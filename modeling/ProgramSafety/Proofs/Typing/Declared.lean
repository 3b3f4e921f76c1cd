import ProgramSafety.Proofs.Typing.Formed

/-!
# Declared registries

The registries that declaring programs and closing can lead to. However a registry was
built, its map of names leads to the definitions of those names and to nothing else
(`Registry.Built.lookup_eq_some_iff`). Types are first registered by name and get their
members later, but the name, the namespace and the parameters of a definition never
change once it is registered (`Registry.Extends`), so a type that was well-formed stays
well-formed. The invariant is `Registry.WellFormed`; `Registry.run_formed` says what both
mean for lookups and resolution after any requests.
-/

namespace ProgramSafety

namespace Registry

/-! ## The map of names -/

section Names

variable {defs : List TypeDef} {names : NameMap} {closed : Bool} {key : Namespace × String} {id : ℕ}

/-- A new definition is the only one of its name, and stands at the end. -/
theorem Built.lookup_register_iff
    (hnames : ∀ {key id}, names.lookup key = some id ↔ ∃ d, defs[id]? = some d ∧ d.key = key)
    {d : TypeDef} (hnew : names.lookup d.key = none) :
    List.lookup key ((d.key, defs.length) :: names) = some id ↔
      ∃ e, (defs ++ [d])[id]? = some e ∧ e.key = key := by
  rw [List.lookup_cons]
  constructor
  · intro hid
    split at hid
    next hkey =>
      obtain rfl := Option.some.inj hid
      exact ⟨d, by simp, (beq_iff_eq.1 hkey).symm⟩
    next =>
      obtain ⟨e, he, hkey⟩ := hnames.1 hid
      rw [List.getElem?_append_left (List.getElem?_eq_some_iff.1 he).1]
      exact ⟨e, he, hkey⟩
  · rintro ⟨e, he, rfl⟩
    rw [List.getElem?_append] at he
    split at he
    next =>
      have hid := hnames.2 ⟨e, he, rfl⟩
      have hne : (e.key == d.key) = false := by
        rw [beq_eq_false_iff_ne]
        intro hkey
        rw [hkey, hnew] at hid
        cases hid
      rw [hne]
      exact hid
    next hlen =>
      obtain ⟨hlt, hget⟩ := List.getElem?_eq_some_iff.1 he
      rw [List.length_singleton] at hlt
      obtain rfl : defs.length = id := by omega
      simp only [Nat.sub_self, List.getElem_cons_zero] at hget
      rw [hget, beq_self_eq_true]

/-- However a registry was built, a name leads to the definition of that name. -/
theorem Built.lookup_eq_some_iff (h : Built defs names closed) :
    names.lookup key = some id ↔ ∃ d, defs[id]? = some d ∧ d.key = key := by
  induction h generalizing key id with
  | empty => simp
  | register _ hnew ih => exact lookup_register_iff ih hnew
  | setShape _ i s ih =>
      rw [ih]
      simp only [List.getElem?_modify, Option.map_eq_map, Option.map_eq_some_iff]
      constructor
      · rintro ⟨d, hd, rfl⟩
        refine ⟨_, ⟨d, hd, rfl⟩, ?_⟩
        split <;> rfl
      · rintro ⟨_, ⟨d, hd, rfl⟩, hkey⟩
        refine ⟨d, hd, hkey ▸ ?_⟩
        split <;> rfl
  | close _ ih => exact ih

/-- No entry of the map hides another. -/
theorem Built.nodup_names (h : Built defs names closed) : (names.map Prod.fst).Nodup := by
  induction h with
  | empty => exact List.nodup_nil
  | register _ hnew ih =>
      refine List.nodup_cons.2 ⟨fun hmem => ?_, ih⟩
      obtain ⟨entry, hentry, hkey⟩ := List.mem_map.1 hmem
      exact bne_iff_ne.1 (List.lookup_eq_none_iff.1 hnew entry hentry) hkey.symm
  | setShape _ _ _ ih => exact ih
  | close _ ih => exact ih

end Names

variable {r r' r'' : Registry}

theorem lookup?_eq_some_iff {space : Namespace} {name : String} {id : ℕ} :
    r.lookup? space name = some id ↔
      ∃ d, r.get? id = some d ∧ d.space = space ∧ d.name = name := by
  rw [lookup?, r.built.lookup_eq_some_iff]
  simp only [TypeDef.key, Prod.mk.injEq]
  rfl

def keys (r : Registry) : List (Namespace × String) := r.defs.map TypeDef.key

theorem nodup_keys (r : Registry) : r.keys.Nodup := by
  rw [List.nodup_iff_getElem?_ne_getElem?]
  intro i j hij hj hsame
  rw [keys, List.length_map] at hj
  have hlookup : ∀ k, (hk : k < r.defs.length) → r.names.lookup r.defs[k].key = some k :=
    fun k hk => r.built.lookup_eq_some_iff.2 ⟨_, List.getElem?_eq_getElem hk, rfl⟩
  have hkey : r.defs[i].key = r.defs[j].key := by
    simpa [keys, List.getElem?_eq_getElem (Nat.lt_trans hij hj), List.getElem?_eq_getElem hj]
      using hsame
  have hi := hlookup i (Nat.lt_trans hij hj)
  rw [hkey, hlookup j hj] at hi
  exact Nat.ne_of_gt hij (Option.some.inj hi)

theorem lookup?_eq_none_iff {space : Namespace} {name : String} :
    r.lookup? space name = none ↔ (space, name) ∉ r.keys := by
  rw [Option.eq_none_iff_forall_ne_some, keys, List.mem_map]
  constructor
  · rintro hnone ⟨d, hd, hkey⟩
    obtain ⟨id, hid⟩ := List.mem_iff_getElem?.1 hd
    exact hnone id (r.built.lookup_eq_some_iff.2 ⟨d, hid, hkey⟩)
  · intro hkeys id hid
    obtain ⟨d, hd, hkey⟩ := r.built.lookup_eq_some_iff.1 hid
    exact hkeys ⟨d, List.mem_of_getElem? hd, hkey⟩

/-! ## Growth -/

/-- The definitions of the second registry are in the first at the same places, under
the same names and with the same parameters. -/
def Extends (r' r : Registry) : Prop :=
  ∀ id d, r.get? id = some d → ∃ d', r'.get? id = some d' ∧ d'.key = d.key ∧ d'.generics = d.generics

theorem Extends.refl (r : Registry) : r.Extends r := fun _ d hd => ⟨d, hd, rfl, rfl⟩

theorem Extends.trans (h' : r''.Extends r') (h : r'.Extends r) : r''.Extends r := by
  intro id d hd
  obtain ⟨d', hd', hkey', hgenerics'⟩ := h id d hd
  obtain ⟨d'', hd'', hkey'', hgenerics''⟩ := h' id d' hd'
  exact ⟨d'', hd'', hkey''.trans hkey', hgenerics''.trans hgenerics'⟩

end Registry

theorem TypeDef.qualifiedName_eq {d d' : TypeDef} (h : d'.key = d.key) :
    d'.qualifiedName = d.qualifiedName := by
  obtain ⟨hspace, hname⟩ := Prod.mk.inj h
  rw [qualifiedName, qualifiedName, hspace, hname]

theorem Ty.Formed.mono {r r' : Registry} {generics : List String} {t : Ty} (hext : r'.Extends r)
    (ht : t.Formed r generics) : t.Formed r' generics where
  adt id name args hocc := by
    obtain ⟨d, hd, harity, hname⟩ := ht.adt id name args hocc
    obtain ⟨d', hd', hkey, hgenerics⟩ := hext id d hd
    exact ⟨d', hd', hgenerics ▸ harity, (TypeDef.qualifiedName_eq hkey).trans hname⟩
  param := ht.param

theorem Shape.Formed.mono {r r' : Registry} {generics : List String} {s : Shape}
    (hext : r'.Extends r) (hs : s.Formed r generics) : s.Formed r' generics where
  fields f hf := (hs.fields f hf).mono hext
  methods m hm t ht := (hs.methods m hm t ht).mono hext
  variants v hv t ht := (hs.variants v hv t ht).mono hext
  nodup_variants := hs.nodup_variants

namespace Registry

variable {r r' : Registry}

structure WellFormed (r : Registry) : Prop where
  shapes : ∀ id d, r.get? id = some d → d.shape.Formed r d.generics

theorem wellFormed_empty : empty.WellFormed := by
  refine ⟨?_⟩
  intro id d hd
  simp [get?, empty] at hd

/-! ## Registering by name -/

theorem register_cases (r : Registry) (d : TypeDef) :
    (∃ p, r.register d = .error p) ∨
      ∃ hopen hnew, r.register d = .ok (r.defs.length, r.push d hopen hnew) := by
  unfold register
  split
  · exact Or.inl ⟨_, rfl⟩
  next hclosed =>
    split
    · exact Or.inl ⟨_, rfl⟩
    next hnew => exact Or.inr ⟨Bool.eq_false_iff.2 hclosed, hnew, rfl⟩

section Push

variable {d : TypeDef} (hopen : r.closed = false) (hnew : r.names.lookup d.key = none)

theorem extends_push : (r.push d hopen hnew).Extends r := by
  intro id e he
  refine ⟨e, ?_, rfl, rfl⟩
  rw [get?, push, List.getElem?_append_left (List.getElem?_eq_some_iff.1 he).1]
  exact he

theorem get?_push_length : (r.push d hopen hnew).get? r.defs.length = some d := by
  simp [get?, push]

theorem WellFormed.push (hr : r.WellFormed) (hd : d.shape.Formed r d.generics) :
    (r.push d hopen hnew).WellFormed where
  shapes id e he := by
    have hext := extends_push hopen hnew
    rw [get?, Registry.push, List.getElem?_append] at he
    split at he
    · exact (hr.shapes id e he).mono hext
    · obtain rfl := List.mem_singleton.1 (List.mem_of_getElem? he)
      exact hd.mono hext

end Push

theorem formed_blank (r : Registry) (space : Namespace) (d : TypeDecl) :
    (blank space d).shape.Formed r (blank space d).generics := by
  cases d <;> exact ⟨by simp [blank, Shape.fields], by simp [blank, Shape.methods],
    by simp [blank, Shape.variants], by simp [blank, Shape.variants]⟩

/-- What registering a list of declarations by name leads to. -/
structure Named (r r' : Registry) (placed : List (ℕ × Namespace × TypeDecl)) : Prop where
  wellFormed : r'.WellFormed
  grown : r'.Extends r
  placed_at : ∀ id space d, (id, space, d) ∈ placed →
    ∃ e, r'.get? id = some e ∧ e.generics = d.generics

theorem named_registerAll (hr : r.WellFormed) (ds : List (Namespace × TypeDecl)) :
    Named r (r.registerAll ds).1 (r.registerAll ds).2.1 := by
  induction ds generalizing r with
  | nil => exact ⟨hr, .refl r, by simp [registerAll]⟩
  | cons x ds ih =>
      obtain ⟨space, d⟩ := x
      obtain ⟨p, hp⟩ | ⟨hopen, hnew, hok⟩ := r.register_cases (blank space d)
      · simp only [registerAll, hp]
        exact ih hr
      · simp only [registerAll, hok]
        have hrest := ih (hr.push hopen hnew (r.formed_blank space d))
        refine ⟨hrest.wellFormed, hrest.grown.trans (extends_push hopen hnew), ?_⟩
        intro id space' d' hmem
        rcases List.mem_cons.1 hmem with hhead | hmem
        · obtain ⟨rfl, rfl, rfl⟩ := by simpa using hhead
          obtain ⟨e, he, -, hgenerics⟩ := hrest.grown r.defs.length _
            (get?_push_length hopen hnew)
          exact ⟨e, he, hgenerics⟩
        · exact hrest.placed_at id space' d' hmem

theorem registerAll_of_closed (hr : r.closed = true) (ds : List (Namespace × TypeDecl)) :
    (r.registerAll ds).1 = r ∧ (r.registerAll ds).2.1 = [] := by
  induction ds with
  | nil => exact ⟨rfl, rfl⟩
  | cons x ds ih =>
      obtain ⟨space, d⟩ := x
      obtain ⟨p, hp⟩ | ⟨hopen, -⟩ := r.register_cases (blank space d)
      · simp only [registerAll, hp]
        exact ih
      · simp [hr] at hopen

/-! ## Filling in members -/

theorem get?_setShape (r : Registry) (id : ℕ) (s : Shape) (j : ℕ) :
    (r.setShape id s).get? j =
      (r.get? j).map fun d => if id = j then { d with shape := s } else d := by
  rw [get?, setShape, List.getElem?_modify]
  rfl

theorem extends_setShape (r : Registry) (id : ℕ) (s : Shape) : (r.setShape id s).Extends r := by
  intro j d hd
  rw [get?_setShape, hd]
  refine ⟨_, rfl, ?_, ?_⟩ <;> split <;> rfl

theorem WellFormed.setShape (hr : r.WellFormed) {id : ℕ} {s : Shape}
    (hs : ∀ d, r.get? id = some d → s.Formed r d.generics) : (r.setShape id s).WellFormed where
  shapes j e he := by
    have hext := r.extends_setShape id s
    rw [get?_setShape] at he
    obtain ⟨d, hd, rfl⟩ := Option.map_eq_some_iff.1 he
    split
    next hid =>
      subst hid
      exact (hs d hd).mono hext
    next => exact (hr.shapes j d hd).mono hext

/-- Members that are resolved against the registry as it stands are well-formed in it, and
stay so while the others are filled in. -/
theorem wellFormed_fill {placed : List (ℕ × Namespace × TypeDecl)} (hr : r.WellFormed)
    (hplaced : ∀ id space d, (id, space, d) ∈ placed →
      ∃ e, r.get? id = some e ∧ e.generics = d.generics) : (r.fill placed).1.WellFormed := by
  induction placed generalizing r with
  | nil => exact hr
  | cons x placed ih =>
      obtain ⟨id, space, d⟩ := x
      refine ih (hr.setShape ?_) ?_
      · intro e he
        obtain ⟨e', he', hgenerics⟩ := hplaced id space d List.mem_cons_self
        obtain rfl : e' = e := Option.some.inj (he'.symm.trans he)
        rw [hgenerics]
        exact r.formed_shape space d
      · intro id' space' d' hmem
        obtain ⟨e, he, hgenerics⟩ := hplaced id' space' d' (List.mem_cons_of_mem _ hmem)
        obtain ⟨e', he', -, hgenerics'⟩ := r.extends_setShape id (r.shape space d) id' e he
        exact ⟨e', he', hgenerics'.trans hgenerics⟩

theorem WellFormed.declare (hr : r.WellFormed) (p : Program) : (r.declare p).1.WellFormed := by
  have hnamed := named_registerAll hr p.typeDecls
  exact wellFormed_fill hnamed.wellFormed hnamed.placed_at

theorem declare_of_closed (hr : r.closed = true) (p : Program) : (r.declare p).1 = r := by
  obtain ⟨hregistry, hplaced⟩ := registerAll_of_closed hr p.typeDecls
  rw [declare]
  simp only [hregistry, hplaced, fill]

theorem lt_of_find? {scope : Scope} {t : TypeRef} {id : ℕ} (h : r.find? scope t = some id) :
    id < r.defs.length := by
  unfold find? at h
  split at h
  · obtain ⟨space, -, h⟩ := List.exists_of_findSome?_eq_some h
    exact r.built.lt_length h
  · exact r.built.lt_length h

/-! ## Runs -/

inductive Request where
  | declare (p : Program)
  | close

def serve (r : Registry) : Request → Registry
  | .declare p => (r.declare p).1
  | .close => r.close

def run (r : Registry) (requests : List Request) : Registry := requests.foldl serve r

theorem WellFormed.serve (hr : r.WellFormed) (request : Request) :
    (r.serve request).WellFormed := by
  cases request with
  | declare p => exact hr.declare p
  | close => exact ⟨fun id d hd => (hr.shapes id d hd).mono (.refl r)⟩

theorem WellFormed.run (hr : r.WellFormed) (requests : List Request) :
    (r.run requests).WellFormed := by
  induction requests generalizing r with
  | nil => exact hr
  | cons request requests ih => exact ih (hr.serve request)

theorem close_of_closed (hr : r.closed = true) : r.close = r := by
  obtain ⟨defs, names, closed, built⟩ := r
  subst hr
  rfl

theorem run_of_closed (hr : r.closed = true) (requests : List Request) : r.run requests = r := by
  induction requests with
  | nil => rfl
  | cons request requests ih =>
      have hserve : r.serve request = r := by
        cases request with
        | declare p => exact declare_of_closed hr p
        | close => exact close_of_closed hr
      rw [run, List.foldl_cons, hserve]
      exact ih

/-- After any declarations and closings, the map of names has every name once and leads from
it to the definition of that name, one name for every definition; the members of all
definitions and whatever a written type resolves to are well-formed, and variants have names
of their own. Closing ends all change, of the definitions and of the map. -/
theorem run_formed (requests : List Request) :
    ((empty.run requests).names.map Prod.fst).Nodup ∧
    (∀ space name id, (empty.run requests).names.lookup (space, name) = some id ↔
      ∃ d, (empty.run requests).get? id = some d ∧ d.space = space ∧ d.name = name) ∧
    (∀ id < (empty.run requests).defs.length,
      ∃! key : Namespace × String, (empty.run requests).names.lookup key = some id) ∧
    (∀ id d, (empty.run requests).get? id = some d →
      d.shape.Formed (empty.run requests) d.generics) ∧
    (∀ scope t u, (empty.run requests).resolve scope t = .ok u →
      u.Formed (empty.run requests) scope.generics) ∧
    (∀ scope t id, (empty.run requests).find? scope t = some id →
      id < (empty.run requests).defs.length) ∧
    ∀ earlier later, requests = earlier ++ .close :: later →
      (empty.run requests).defs = (empty.run earlier).defs ∧
      (empty.run requests).names = (empty.run earlier).names := by
  have hr := wellFormed_empty.run requests
  have hnames := (empty.run requests).built
  refine ⟨hnames.nodup_names, fun space name id => lookup?_eq_some_iff, ?_, hr.shapes,
    fun scope t u => formed_of_resolve, fun scope t id => lt_of_find?, ?_⟩
  · intro id hid
    have hget : (empty.run requests).get? id = some (empty.run requests).defs[id] :=
      List.getElem?_eq_getElem hid
    refine ⟨(empty.run requests).defs[id].key, hnames.lookup_eq_some_iff.2 ⟨_, hget, rfl⟩, ?_⟩
    rintro key hkey
    obtain ⟨d, hd, rfl⟩ := hnames.lookup_eq_some_iff.1 hkey
    rw [Option.some.inj (hget.symm.trans hd)]
  · rintro earlier later rfl
    have hrun : empty.run (earlier ++ .close :: later) = (empty.run earlier).close := by
      rw [run, List.foldl_append, List.foldl_cons]
      exact run_of_closed rfl later
    rw [hrun]
    exact ⟨rfl, rfl⟩

end Registry

end ProgramSafety
