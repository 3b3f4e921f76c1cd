import ProgramSafety.Proofs.Analysis.MatchPlans
import ProgramSafety.Proofs.Ownership.Scopes

/-!
# Binders of arms

What an alternative binds is determined by the payload of its variant
(`Alternative.Binds`). An arm with several alternatives declares one binding for every
name, with the type that the first alternative to bind the name gives it
(`Context.declares_iff`). This is right for every alternative exactly if the
alternatives agree (`Context.accepted_arm_binders`), which nothing checks.
-/

namespace ProgramSafety

/-! ## What an alternative binds -/

namespace Alternative

/-- Values of the alternative's variant, which is one of the given variants, bind the
name to something of the given type: to the whole payload or to a field of it. -/
inductive Binds (vs : List Variant) (a : Alternative) : String → Ty → Prop where
  | whole {v : Variant} {names : List Ident} {n : Ident} {t : Ty}
      (hv : vs.find? (·.name == a.name) = some v) (hb : a.bindings = .positional names)
      (hn : n ∈ names) (hp : v.payload = .single t) : Binds vs a n.name t
  | part {v : Variant} {bs : List FieldBinding} {b : FieldBinding} {fs : List Field} {f : Field}
      (hv : vs.find? (·.name == a.name) = some v) (hb : a.bindings = .named bs) (hmem : b ∈ bs)
      (hp : v.payload = .fields fs) (hf : fs.find? (·.name == b.field.name) = some f) :
      Binds vs a b.binder.name f.type

theorem binds_of_positional_iff {vs : List Variant} {a : Alternative} {v : Variant} {n : Ident}
    {name : String} {t u : Ty} (hv : vs.find? (·.name == a.name) = some v)
    (hb : a.bindings = .positional [n]) (hp : v.payload = .single t) :
    a.Binds vs name u ↔ name = n.name ∧ u = t := by
  constructor
  · rintro (⟨hv', hb', hn, hp'⟩ | ⟨-, hb', -, -, -⟩)
    · obtain rfl := Option.some.inj (hv.symm.trans hv')
      obtain rfl := Bindings.positional.inj (hb.symm.trans hb')
      obtain rfl := List.mem_singleton.1 hn
      exact ⟨rfl, Payload.single.inj (hp'.symm.trans hp)⟩
    · cases hb.symm.trans hb'
  · rintro ⟨rfl, rfl⟩
    exact .whole hv hb List.mem_cons_self hp

theorem not_binds_of_none {vs : List Variant} {a : Alternative} {name : String} {t : Ty}
    (hb : a.bindings = .none) : ¬ a.Binds vs name t := by
  rintro (⟨-, hb', -, -⟩ | ⟨-, hb', -, -, -⟩) <;> cases hb.symm.trans hb'

/-- The alternatives bind the same names, and each of them to one type. -/
def Agree (vs : List Variant) (as : List Alternative) : Prop :=
  ∀ a ∈ as, ∀ b ∈ as, ∀ name t, a.Binds vs name t →
    b.Binds vs name t ∧ ∀ t', b.Binds vs name t' → t' = t

/-- A scope holds what the alternative binds and nothing else, each binding with the
references that something of its type owns. -/
structure Fills (r : Registry) (vs : List Variant) (a : Alternative) (scope : List Local) :
    Prop where
  bound : ∀ l ∈ scope, ∃ t, a.Binds vs l.name t ∧ l.paths = r.countedPaths t
  opened : ∀ name t, a.Binds vs name t → ∃ l ∈ scope, l.name = name ∧ l.paths = r.countedPaths t

end Alternative

/-! ## The types of binders -/

def Variant.boundType (v : Variant) (field : Option String) : Ty :=
  match v.payload, field with
  | .single t, none => t
  | .fields fs, some name => ((fs.find? (·.name == name)).map Field.type).getD .unknown
  | _, _ => .unknown

namespace Context

variable {c : Context} {t u : Ty} {span : Span} {enum name : String} {vs : List Variant}
  {v : Variant} {a : Alternative} {as : List Alternative}

theorem applied?_of_get? {id : ℕ} {args : List Ty} {d : TypeDef}
    (hd : c.registry.get? id = some d) :
    c.applied? (.adt id name args) = some (d, d.subst args) := by
  simp [applied?, Ty.adt?, hd]

theorem applied?_of_matched? {id : ℕ} {args : List Ty}
    (hmatched : c.matched? (.adt id name args) span = some (enum, vs)) :
    ∃ d, c.applied? (.adt id name args) = some (d, d.subst args) ∧
      vs = d.shape.variants.map (Variant.substitute (d.subst args)) := by
  obtain ⟨i, hi, hshape⟩ := Option.bind_eq_some_iff.1 hmatched
  obtain ⟨_, _, _, d, heq, hd, -, rfl⟩ := Registry.instanceOf?_eq_some_iff.1 hi
  cases heq
  refine ⟨d, applied?_of_get? hd, ?_⟩
  rw [← Shape.variants_substitute]
  split at hshape
  · exact (Prod.mk.inj (Option.some.inj hshape)).2.symm
  · cases hshape

/-- A binder gets the type that the payload of the instantiated variant gives it. -/
theorem binderType_eq (hmatched : c.matched? t span = some (enum, vs))
    (hv : vs.find? (·.name == name) = some v) (field : Option String) :
    c.binderType t name field = v.boundType field := by
  cases t with
  | wrap w u =>
      cases w with
      | optional =>
          obtain rfl : Coverage.optionalVariants u span = vs :=
            (Prod.mk.inj (Option.some.inj hmatched)).2
          by_cases hnone : name = "None"
          · subst hnone
            obtain rfl := Option.some.inj hv
            cases field <;> rfl
          · by_cases hsome : name = "Some"
            · subst hsome
              obtain rfl := Option.some.inj hv
              cases field <;> rfl
            · simp [Coverage.optionalVariants, Ne.symm hnone, Ne.symm hsome] at hv
      | _ => cases hmatched
  | adt id defName args =>
      obtain ⟨d, happlied, rfl⟩ := applied?_of_matched? hmatched
      rw [List.find?_map, Option.map_eq_some_iff] at hv
      obtain ⟨w, hw, rfl⟩ := hv
      have hvariant : d.shape.variant? name = some w := hw
      simp only [binderType, happlied, hvariant, Option.map_some, Variant.boundType,
        Variant.substitute]
      cases w.payload with
      | unit => rfl
      | single u => cases field <;> rfl
      | fields fs =>
          cases field with
          | none => rfl
          | some x =>
              simp only [Payload.map, Field.typeIn?, List.find?_map, Option.map_map]
              rfl
  | _ => cases hmatched

theorem map_fst_alternativeBinders (c : Context) (t : Ty) (a : Alternative) :
    (c.alternativeBinders t a).map Prod.fst = a.binders := by
  rw [alternativeBinders, Alternative.binders]
  cases a.bindings <;> simp [Function.comp_def]

/-- The ownership analysis gives the binders of an alternative that fits its variant the
types that the payload gives them. -/
theorem binds_iff (hmatched : c.matched? t span = some (enum, vs))
    (hv : vs.find? (·.name == a.name) = some v) (hfits : Coverage.bindingProblem? v a = none) :
    a.Binds vs name u ↔ ∃ n, (n, u) ∈ c.alternativeBinders t a ∧ n.name = name := by
  have htype := binderType_eq hmatched hv
  constructor
  · rintro (⟨hv', hb, hn, hp⟩ | ⟨hv', hb, hmem, hp, hf⟩)
    · obtain rfl := Option.some.inj (hv.symm.trans hv')
      refine ⟨_, ?_, rfl⟩
      simp [alternativeBinders, hb, htype, Variant.boundType, hp, hn]
    · obtain rfl := Option.some.inj (hv.symm.trans hv')
      refine ⟨_, ?_, rfl⟩
      simp only [alternativeBinders, hb]
      exact List.mem_map.2 ⟨_, hmem, by simp [htype, Variant.boundType, hp, hf]⟩
  · rintro ⟨n, hn, rfl⟩
    rcases Coverage.shape_of_bindingProblem? hfits with
      hnil | ⟨n', t', hb, hp⟩ | ⟨bs, fs, hb, hp, hfields⟩
    · have hmem : n ∈ a.binders := map_fst_alternativeBinders c t a ▸ List.mem_map_of_mem hn
      simp [hnil] at hmem
    · obtain ⟨rfl, rfl⟩ : n = n' ∧ u = t' := by
        simpa [alternativeBinders, hb, htype, Variant.boundType, hp] using hn
      exact .whole hv hb List.mem_cons_self hp
    · rw [alternativeBinders, hb] at hn
      obtain ⟨b, hmem, hpair⟩ := List.mem_map.1 hn
      obtain ⟨f, hf⟩ := hfields b hmem
      obtain ⟨rfl, rfl⟩ : b.binder = n ∧ f.type = u := by
        simpa [htype, Variant.boundType, hp, hf] using hpair
      exact .part hv hb hmem hp hf

/-! ## Merging alternatives -/

theorem mem_firstOfName_iff {seen : List String} {b : Ident × Ty} {bs : List (Ident × Ty)} :
    b ∈ firstOfName seen bs ↔ b.1.name ∉ seen ∧ bs.find? (·.1.name == b.1.name) = some b := by
  induction bs generalizing seen with
  | nil => simp [firstOfName]
  | cons x bs ih =>
      rw [firstOfName]
      by_cases hname : x.1.name = b.1.name
      · rw [List.find?_cons_of_pos (by simpa using hname)]
        split
        next hseen =>
          have hmem : b.1.name ∈ seen := by simpa [hname] using hseen
          simp [ih, hmem]
        next hnew =>
          have hnot : b.1.name ∉ seen := by simpa [hname] using hnew
          simp [ih, hname, hnot, eq_comm]
      · rw [List.find?_cons_of_neg (by simpa using hname)]
        split
        · exact ih
        · have hne : b ≠ x := fun h => hname (h ▸ rfl)
          simp [ih, hne, Ne.symm hname]

theorem nodup_firstOfName (seen : List String) (bs : List (Ident × Ty)) :
    ((firstOfName seen bs).map (·.1.name)).Nodup := by
  fun_induction firstOfName seen bs with
  | case1 => exact List.nodup_nil
  | case2 seen b bs hseen ih => exact ih
  | case3 seen b bs hseen ih =>
      rw [List.map_cons, List.nodup_cons]
      refine ⟨?_, ih⟩
      intro hmem
      obtain ⟨x, hx, hname⟩ := List.mem_map.1 hmem
      exact (mem_firstOfName_iff.1 hx).1 (hname ▸ List.mem_cons_self)

def Declares (c : Context) (scrutinee : Expr) (p : Pattern) (name : String) (t : Ty) : Prop :=
  ∃ d ∈ c.declared (.arm scrutinee p), d.name.name = name ∧ d.type = some t

/-- The alternatives are names of variants with payloads that they fit. -/
def Fits (vs : List Variant) (as : List Alternative) : Prop :=
  ∀ a ∈ as, ∃ v, vs.find? (·.name == a.name) = some v ∧ Coverage.bindingProblem? v a = none

variable {scrutinee : Expr} {pspan : Span}

/-- An arm declares the first binder of every name. -/
theorem declares_iff : c.Declares scrutinee (.variants pspan as) name u ↔
    ∃ n, (as.flatMap (c.alternativeBinders (c.types.expr scrutinee))).find?
      (·.1.name == name) = some (n, u) := by
  constructor
  · rintro ⟨d, hd, rfl, htype⟩
    obtain ⟨⟨n, t⟩, hmem, rfl⟩ := List.mem_map.1 hd
    obtain rfl := Option.some.inj htype
    exact ⟨n, (mem_firstOfName_iff.1 hmem).2⟩
  · rintro ⟨n, hn⟩
    have hname : n.name = name := by simpa using List.find?_some hn
    subst hname
    exact ⟨⟨n, some u⟩,
      List.mem_map.2 ⟨(n, u), mem_firstOfName_iff.2 ⟨List.not_mem_nil, hn⟩, rfl⟩, rfl, rfl⟩

theorem Declares.type_eq {u' : Ty} (h : c.Declares scrutinee (.variants pspan as) name u)
    (h' : c.Declares scrutinee (.variants pspan as) name u') : u = u' := by
  obtain ⟨n, hn⟩ := declares_iff.1 h
  obtain ⟨n', hn'⟩ := declares_iff.1 h'
  exact (Prod.mk.inj (Option.some.inj (hn.symm.trans hn'))).2

section Accepted

variable (hmatched : c.matched? (c.types.expr scrutinee) span = some (enum, vs))
  (hfits : Fits vs as)

include hmatched hfits

theorem binds_iff_of_mem (ha : a ∈ as) : a.Binds vs name u ↔
    ∃ n, (n, u) ∈ c.alternativeBinders (c.types.expr scrutinee) a ∧ n.name = name := by
  obtain ⟨v, hv, hshape⟩ := hfits a ha
  exact binds_iff hmatched hv hshape

theorem exists_binds_of_mem_binders (ha : a ∈ as) {n : Ident} (hn : n ∈ a.binders) :
    ∃ u, a.Binds vs n.name u := by
  rw [← map_fst_alternativeBinders c (c.types.expr scrutinee)] at hn
  obtain ⟨⟨n, u⟩, hmem, rfl⟩ := List.mem_map.1 hn
  exact ⟨u, (binds_iff_of_mem hmatched hfits ha).2 ⟨n, hmem, rfl⟩⟩

/-- The type of a declared name is the one that the first alternative to bind it
gives it. -/
theorem Declares.exists_first (h : c.Declares scrutinee (.variants pspan as) name u) :
    ∃ before a after, as = before ++ a :: after ∧ a.Binds vs name u ∧
      ∀ b ∈ before, ∀ u', ¬ b.Binds vs name u' := by
  obtain ⟨n, hn⟩ := declares_iff.1 h
  rw [List.find?_flatMap, List.findSome?_eq_some_iff] at hn
  obtain ⟨before, a, after, rfl, hfound, hnone⟩ := hn
  have hname : n.name = name := by simpa using List.find?_some hfound
  refine ⟨before, a, after, rfl, ?_, ?_⟩
  · exact (binds_iff_of_mem hmatched hfits (by simp)).2
      ⟨n, List.mem_of_find?_eq_some hfound, hname⟩
  · intro b hb u' hbinds
    obtain ⟨n', hn', hname'⟩ :=
      (binds_iff_of_mem hmatched hfits (List.mem_append_left _ hb)).1 hbinds
    exact List.find?_eq_none.1 (hnone b hb) _ hn' (by simpa using hname')

theorem exists_declares_of_binds (pspan : Span) (ha : a ∈ as) (hbinds : a.Binds vs name u) :
    ∃ u', c.Declares scrutinee (.variants pspan as) name u' := by
  obtain ⟨n, hn, hname⟩ := (binds_iff_of_mem hmatched hfits ha).1 hbinds
  obtain ⟨⟨n', u'⟩, hfound⟩ : ∃ b, (as.flatMap
      (c.alternativeBinders (c.types.expr scrutinee))).find? (·.1.name == name) = some b := by
    rw [← Option.isSome_iff_exists, List.find?_isSome]
    exact ⟨(n, u), List.mem_flatMap.2 ⟨a, ha, hn⟩, by simpa using hname⟩
  exact ⟨u', declares_iff.2 ⟨n', hfound⟩⟩

/-- What an arm declares is what each of its alternatives binds if and only if the
alternatives agree. -/
theorem declares_iff_binds_iff_agree (pspan : Span) :
    (∀ a ∈ as, ∀ name t, c.Declares scrutinee (.variants pspan as) name t ↔ a.Binds vs name t) ↔
      Alternative.Agree vs as := by
  constructor
  · intro h a ha b hb name t hbinds
    have hdeclares := (h a ha name t).2 hbinds
    exact ⟨(h b hb name t).1 hdeclares,
      fun t' hbinds' => ((h b hb name t').2 hbinds').type_eq hdeclares⟩
  · intro hagree a ha name t
    -- Some alternative gives the declared type, and by agreement so do the others.
    have hdeclared : ∀ {t}, c.Declares scrutinee (.variants pspan as) name t →
        a.Binds vs name t := by
      intro t hdeclares
      obtain ⟨before, b, after, rfl, hbinds, -⟩ := hdeclares.exists_first hmatched hfits
      exact (hagree b (by simp) a ha name t hbinds).1
    constructor
    · exact hdeclared
    · intro hbinds
      obtain ⟨t', hdeclares⟩ := exists_declares_of_binds hmatched hfits pspan ha hbinds
      obtain rfl := (hagree a ha a ha name t hbinds).2 t' (hdeclared hdeclares)
      exact hdeclares

end Accepted

/-! ## The scope of an arm -/

end Context

theorem ScopeForest.own_ofDeclarations (ds : List Declaration) (n : ℕ) :
    (ofDeclarations ds).own n = ds.zipIdx n := by
  induction ds generalizing n with
  | nil => rfl
  | cons d ds ih => exact congrArg ((d, n) :: ·) (ih (n + 1))

namespace Lifetimes

variable {s : Lifetimes} {decl : ℕ} {paths : List FieldPath}

theorem retainBinder_mem_declare_iff {b : Binder} :
    .obligation (.retainBinder decl paths) ∈ (s.declare b).2 ↔
      b.shared = true ∧ paths ≠ [] ∧ decl = s.next ∧ b.paths = paths := by
  rw [declare]
  dsimp only
  split
  next h =>
    obtain ⟨hshared, hpaths⟩ : b.shared = true ∧ b.paths ≠ [] := by simpa using h
    constructor
    · intro hmem
      obtain ⟨rfl, rfl⟩ : decl = s.next ∧ paths = b.paths := by simpa using hmem
      exact ⟨hshared, hpaths, rfl, rfl⟩
    · rintro ⟨-, -, rfl, rfl⟩
      simp
  next h =>
    have hnot : ¬ (b.shared = true ∧ b.paths ≠ []) := by simpa using h
    constructor
    · intro hmem
      simp at hmem
    · rintro ⟨hshared, hpaths, -, rfl⟩
      exact absurd ⟨hshared, hpaths⟩ hnot

theorem retainBinder_mem_declareAll_iff {r : Registry} {shared : Bool} {ds : List Declaration} :
    .obligation (.retainBinder decl paths) ∈
        (transduce declare s (ds.map fun d => ⟨d.name, d.paths r, shared⟩)).2 ↔
      shared = true ∧ paths ≠ [] ∧ ∃ d, (d, decl) ∈ ds.zipIdx s.next ∧ d.paths r = paths := by
  induction ds generalizing s with
  | nil => simp
  | cons d ds ih =>
      have hnext : (s.declare ⟨d.name, d.paths r, shared⟩).1.next = s.next + 1 := rfl
      rw [List.map_cons, transduce_cons, List.mem_append, ih, retainBinder_mem_declare_iff, hnext,
        List.zipIdx_cons]
      constructor
      · rintro (⟨hshared, hpaths, rfl, hd⟩ | ⟨hshared, hpaths, d', hmem, hd⟩)
        · exact ⟨hshared, hpaths, d, List.mem_cons_self, hd⟩
        · exact ⟨hshared, hpaths, d', List.mem_cons_of_mem _ hmem, hd⟩
      · rintro ⟨hshared, hpaths, d', hmem, hd⟩
        rcases List.mem_cons.1 hmem with hhead | hmem
        · obtain ⟨rfl, rfl⟩ := Prod.mk.inj hhead
          exact Or.inl ⟨hshared, hpaths, rfl, hd⟩
        · exact Or.inr ⟨hshared, hpaths, d', hmem, hd⟩

end Lifetimes

namespace Context

variable {c : Context} {span pspan : Span} {scrutinee : Expr} {enum : String} {vs : List Variant}
  {as : List Alternative} {patterns : List Pattern} {node : ℕ}

def armScope (c : Context) (next : ℕ) (scrutinee : Expr) (p : Pattern) : List Local :=
  ((c.declared (.arm scrutinee p)).zipIdx next).reverse.map (Declaration.opened c.registry)

theorem mem_armScope_iff {next : ℕ} {p : Pattern} {l : Local} :
    l ∈ c.armScope next scrutinee p ↔
      ∃ d i, (d, i) ∈ (c.declared (.arm scrutinee p)).zipIdx next ∧
        l = ⟨i, d.name.name, d.paths c.registry⟩ := by
  simp [armScope, Declaration.opened, eq_comm]

theorem scopes_openArm (c : Context) (s : Lifetimes) (scrutinee : Expr) (p : Pattern) (b : Block) :
    (c.scopeStep s (.openBlock (.arm scrutinee p) b)).1.scopes =
      c.armScope s.next scrutinee p :: s.scopes := by
  rw [scopeStep, Lifetimes.openScope, binders_arm, (ScopeForest.describes_declareAll _ _ _).state]
  simp [Lifetimes.after, ScopeForest.own_ofDeclarations, armScope]

/-- The references of an arm are retained if they are shared with a place. -/
theorem retainBinder_mem_openArm_iff {s : Lifetimes} {p : Pattern} {b : Block} {decl : ℕ}
    {paths : List FieldPath} :
    .obligation (.retainBinder decl paths) ∈ (c.scopeStep s (.openBlock (.arm scrutinee p) b)).2 ↔
      scrutinee.isPlace = true ∧ paths ≠ [] ∧
        ∃ l ∈ c.armScope s.next scrutinee p, l.decl = decl ∧ l.paths = paths := by
  rw [scopeStep, Lifetimes.openScope, binders_arm, Lifetimes.retainBinder_mem_declareAll_iff]
  refine and_congr_right fun _ => and_congr_right fun _ => ?_
  constructor
  · rintro ⟨d, hd, rfl⟩
    exact ⟨_, mem_armScope_iff.2 ⟨d, decl, hd, rfl⟩, rfl, rfl⟩
  · rintro ⟨l, hl, rfl, rfl⟩
    obtain ⟨d, i, hd, rfl⟩ := mem_armScope_iff.1 hl
    exact ⟨d, hd, rfl⟩

theorem fills_armScope {a : Alternative} {p : Pattern}
    (h : ∀ name t, c.Declares scrutinee p name t ↔ a.Binds vs name t) (next : ℕ) :
    a.Fills c.registry vs (c.armScope next scrutinee p) where
  bound l hl := by
    obtain ⟨d, i, hd, rfl⟩ := mem_armScope_iff.1 hl
    have hmem := List.fst_mem_of_mem_zipIdx hd
    obtain ⟨t, htype⟩ : ∃ t, d.type = some t := by
      obtain ⟨x, -, rfl⟩ := List.mem_map.1 hmem
      exact ⟨x.2, rfl⟩
    exact ⟨t, (h _ t).1 ⟨d, hmem, rfl, htype⟩, Declaration.paths_of_type htype⟩
  opened name t hbinds := by
    obtain ⟨d, hd, rfl, htype⟩ := (h name t).2 hbinds
    rw [← List.zipIdx_map_fst next (c.declared _)] at hd
    obtain ⟨⟨d, i⟩, hi, rfl⟩ := List.mem_map.1 hd
    exact ⟨_, mem_armScope_iff.2 ⟨d, i, hi, rfl⟩, rfl, Declaration.paths_of_type htype⟩

/-- In an accepted match every name written in an alternative stands for something of
its variant's payload. An arm declares each bound name once, with the type that the first
alternative to bind it gives it. What it declares is what every alternative binds if and
only if the alternatives agree; the references that the arm owns, and retains if the
scrutinee is a place, are then those of whichever alternative matches. -/
theorem accepted_arm_binders
    (hmatched : c.matched? (c.types.expr scrutinee) span = some (enum, vs))
    (haccepted : ∀ p, .problem p ∉ c.matchFindings node span scrutinee patterns)
    (harm : .variants pspan as ∈ patterns) :
    (∀ a ∈ as, ∀ n ∈ a.binders, ∃ t, a.Binds vs n.name t) ∧
    ((c.declared (.arm scrutinee (.variants pspan as))).map (·.name.name)).Nodup ∧
    (∀ name t, c.Declares scrutinee (.variants pspan as) name t →
      ∃ before a after, as = before ++ a :: after ∧ a.Binds vs name t ∧
        ∀ b ∈ before, ∀ t', ¬ b.Binds vs name t') ∧
    (∀ a ∈ as, ∀ name t, a.Binds vs name t →
      ∃ t', c.Declares scrutinee (.variants pspan as) name t') ∧
    ((∀ a ∈ as, ∀ name t, c.Declares scrutinee (.variants pspan as) name t ↔
      a.Binds vs name t) ↔ Alternative.Agree vs as) ∧
    ∀ (s : Lifetimes) (b : Block), ∃ scope,
      (c.scopeStep s (.openBlock (.arm scrutinee (.variants pspan as)) b)).1.scopes =
        scope :: s.scopes ∧
      (∀ decl paths, .obligation (.retainBinder decl paths) ∈
          (c.scopeStep s (.openBlock (.arm scrutinee (.variants pspan as)) b)).2 ↔
        scrutinee.isPlace = true ∧ paths ≠ [] ∧ ∃ l ∈ scope, l.decl = decl ∧ l.paths = paths) ∧
      (Alternative.Agree vs as → ∀ a ∈ as, a.Fills c.registry vs scope) := by
  have hfits : Fits vs as := fun a ha =>
    Coverage.bindingProblem?_of_problems_eq_nil (problems_eq_nil hmatched haccepted) harm ha
  have hagree := declares_iff_binds_iff_agree hmatched hfits pspan
  refine ⟨fun a ha n => exists_binds_of_mem_binders hmatched hfits ha, ?_,
    fun name t h => h.exists_first hmatched hfits,
    fun a ha name t => exists_declares_of_binds hmatched hfits pspan ha, hagree, ?_⟩
  · rw [declared, List.map_map]
    exact nodup_firstOfName [] _
  · intro s b
    refine ⟨_, c.scopes_openArm s scrutinee _ b, fun decl paths => retainBinder_mem_openArm_iff, ?_⟩
    intro h a ha
    exact fills_armScope (hagree.2 h a ha) s.next

end Context

namespace EntryMatches

def nodeType : TypeRef := .named "Node"

def slotType : TypeRef := .applied "Optional" [nodeType]

def entry (id : ℕ) : Expr := ⟨id, .nowhere, .named "Entry", .var "entry"⟩

def slot (id : ℕ) : Expr := ⟨id, .nowhere, slotType, .var "slot"⟩

def finding (variant : String) : Alternative :=
  ⟨.nowhere, variant, .positional [⟨"found", .nowhere⟩]⟩

def matchOn (id : ℕ) (scrutinee : Expr) (patterns : List Pattern) : Stmt :=
  .expr ⟨id, .nowhere, .named "void",
    .matchOn .nowhere scrutinee (patterns.map (⟨·, ⟨.nowhere, []⟩⟩))⟩

def nodesOnly : Pattern := .variants .nowhere [finding "here", finding "there"]

def mixed : Pattern := .variants .nowhere [finding "number", finding "here"]

def always : Pattern := .variants .nowhere [finding "Some", ⟨.nowhere, "None", .none⟩]

def body : Block :=
  ⟨.nowhere, [matchOn 2 (entry 1) [nodesOnly, .catchAll .nowhere],
    matchOn 4 (entry 3) [mixed, .catchAll .nowhere], matchOn 6 (slot 5) [always]]⟩

def run : FunctionDecl :=
  ⟨⟨"run", .nowhere⟩, [], [⟨⟨"entry", .nowhere⟩, .named "Entry"⟩, ⟨⟨"slot", .nowhere⟩, slotType⟩],
    none, false, some body⟩

def variantDecl (name : String) (type : TypeRef) : VariantDecl :=
  ⟨⟨name, .nowhere⟩, .nowhere, none, .single type⟩

def program : Program where
  decls :=
    [.type (.classType ⟨⟨"Node", .nowhere⟩, [], [], []⟩),
      .type (.enumType ⟨⟨"Entry", .nowhere⟩, [], none,
        [variantDecl "number" (.named "i32"), variantDecl "here" nodeType,
          variantDecl "there" nodeType]⟩),
      .function run]

def session : Session := ((Session.start .default).register program).1.close.1

def context : Context :=
  session.context (TypeTable.ofBodies session.registry program.bodies) ⟨[], none, run, body⟩

def nodes : Ty := .adt 0 "Node" []

def entryVariants : List Variant :=
  [⟨"number", .nowhere, none, none, .single (.int .i32)⟩,
    ⟨"here", .nowhere, none, none, .single nodes⟩,
    ⟨"there", .nowhere, none, none, .single nodes⟩]

theorem matched_entry :
    context.matched? (context.types.expr (entry 1)) .nowhere = some ("Entry", entryVariants) := by
  decide +kernel

theorem binds_finding_iff {variant name : String} {u : Ty}
    (hv : (entryVariants.find? (·.name == variant)).map Variant.payload = some (.single nodes)) :
    (finding variant).Binds entryVariants name u ↔ name = "found" ∧ u = nodes := by
  obtain ⟨v, hv, hp⟩ := Option.map_eq_some_iff.1 hv
  exact Alternative.binds_of_positional_iff (n := ⟨"found", .nowhere⟩) hv rfl hp

theorem agree_nodesOnly :
    Alternative.Agree entryVariants [finding "here", finding "there"] := by
  have hboth : ∀ x ∈ [finding "here", finding "there"], ∀ {name t},
      x.Binds entryVariants name t ↔ name = "found" ∧ t = nodes := by
    intro x hx name t
    rcases List.mem_pair.1 hx with rfl | rfl <;> exact binds_finding_iff (by decide)
  intro a ha b hb name t hbinds
  obtain ⟨rfl, rfl⟩ := (hboth a ha).1 hbinds
  exact ⟨(hboth b hb).2 ⟨rfl, rfl⟩, fun t' hbinds' => ((hboth b hb).1 hbinds').2⟩

theorem accepted_arm_binders_nodes :
    context.Declares (entry 1) nodesOnly "found" nodes ∧ ∃ scope,
      (context.scopeStep (.start 0)
        (.openBlock (.arm (entry 1) nodesOnly) ⟨.nowhere, []⟩)).1.scopes = [scope] ∧
      (finding "here").Fills context.registry entryVariants scope ∧
      (finding "there").Fills context.registry entryVariants scope := by
  have haccepted : ∀ p, .problem p ∉
      context.matchFindings 2 .nowhere (entry 1) [nodesOnly, .catchAll .nowhere] :=
    Context.problem_notMem (by decide +kernel)
  obtain ⟨-, -, -, -, hagree, hopens⟩ :=
    Context.accepted_arm_binders matched_entry haccepted List.mem_cons_self
  obtain ⟨scope, hscope, -, hfills⟩ := hopens (.start 0) ⟨.nowhere, []⟩
  have hfound : (finding "here").Binds entryVariants "found" nodes :=
    (binds_finding_iff (by decide +kernel)).2 ⟨rfl, rfl⟩
  exact ⟨(hagree.2 agree_nodesOnly _ List.mem_cons_self _ _).2 hfound, scope,
    hscope, hfills agree_nodesOnly _ (by simp), hfills agree_nodesOnly _ (by simp)⟩

/-- A name that one alternative binds and the other does not is declared, and so is a
name that two alternatives bind to different types, with the first of them. -/
theorem alternatives_disagree_accepted :
    (context.types.expr (slot 5) = .optional nodes ∧
      (∀ p, .problem p ∉ context.matchFindings 6 .nowhere (slot 5) [always]) ∧
      context.Declares (slot 5) always "found" nodes ∧
      ∀ t, ¬ Alternative.Binds (Coverage.optionalVariants nodes .nowhere) ⟨.nowhere, "None", .none⟩
        "found" t) ∧
    context.matched? (context.types.expr (entry 3)) .nowhere = some ("Entry", entryVariants) ∧
      (∀ p, .problem p ∉ context.matchFindings 4 .nowhere (entry 3) [mixed, .catchAll .nowhere]) ∧
      context.Declares (entry 3) mixed "found" (.int .i32) ∧
      (finding "here").Binds entryVariants "found" nodes := by
  refine ⟨⟨by decide +kernel, Context.problem_notMem (by decide +kernel), ?_, ?_⟩,
    by decide +kernel, Context.problem_notMem (by decide +kernel), ?_, ?_⟩
  · exact Context.declares_iff.2 ⟨⟨"found", .nowhere⟩, by decide +kernel⟩
  · exact fun t => Alternative.not_binds_of_none rfl
  · exact Context.declares_iff.2 ⟨⟨"found", .nowhere⟩, by decide +kernel⟩
  · exact (binds_finding_iff (by decide +kernel)).2 ⟨rfl, rfl⟩

end EntryMatches

end ProgramSafety
