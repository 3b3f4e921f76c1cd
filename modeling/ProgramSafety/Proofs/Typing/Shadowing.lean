import Mathlib.Data.List.Induction
import ProgramSafety.Proofs.Typing.Completion

/-!
# Shadowed names

An unqualified name is looked up in the namespace it is used in and then outward, so it
stands for what the innermost namespace around it declares
(`Namespace.findSome?_outward_eq_some_iff`). Declarations that are added later leave the
meaning of a name alone unless one of them stands further inside than all that were known
before: then it captures the name (`Captures`). A type that resolves keeps its meaning in a
larger registry exactly if none of the names in it is captured (`Registry.typeOf_eq_iff`).
-/

namespace ProgramSafety

namespace Namespace

variable {α : Type} {f : Namespace → Option α}

theorem outward_concat (ns : Namespace) (name : String) :
    Namespace.outward (ns ++ [name]) = (ns ++ [name]) :: ns.outward := by
  have htake : ∀ i ∈ (List.range (ns.length + 1)).reverse, (ns ++ [name]).take i = ns.take i := by
    intro i hi
    rw [List.mem_reverse, List.mem_range] at hi
    exact List.take_append_of_le_length (Nat.le_of_lt_succ hi)
  rw [outward, outward, List.length_append, List.length_singleton, List.range_succ,
    List.reverse_append, List.reverse_singleton, List.map_append, List.map_congr_left htake,
    List.map_singleton, List.take_of_length_le (by simp)]
  rfl

/-- The innermost namespace with an answer gives it. -/
theorem findSome?_outward_eq_some_iff {ns : Namespace} {a : α} :
    ns.outward.findSome? f = some a ↔
      ∃ found, found <+: ns ∧ f found = some a ∧
        ∀ inner, found <+: inner → inner <+: ns → inner ≠ found → f inner = none := by
  induction ns using List.reverseRecOn with
  | nil =>
      have houtward : Namespace.outward [] = [[]] := rfl
      rw [houtward, List.findSome?_singleton]
      constructor
      · intro ha
        refine ⟨[], List.prefix_refl _, ha, fun inner _ hinner hne => ?_⟩
        exact absurd (List.prefix_nil.1 hinner) hne
      · rintro ⟨found, hfound, ha, -⟩
        rwa [List.prefix_nil.1 hfound] at ha
  | append_singleton ns name ih =>
      rw [outward_concat, List.findSome?_cons]
      constructor
      · intro ha
        cases hhere : f (ns ++ [name]) with
        | some b =>
            rw [hhere] at ha
            refine ⟨ns ++ [name], List.prefix_refl _, hhere.trans ha, fun inner hle hge hne => ?_⟩
            exact absurd (hge.eq_of_length_le hle.length_le) hne
        | none =>
            rw [hhere] at ha
            obtain ⟨found, hfound, ha, hnone⟩ := ih.1 ha
            refine ⟨found, hfound.trans (List.prefix_append _ _), ha, fun inner hle hge hne => ?_⟩
            rcases List.prefix_concat_iff.1 hge with rfl | hge
            · exact hhere
            · exact hnone inner hle hge hne
      · rintro ⟨found, hfound, ha, hnone⟩
        rcases List.prefix_concat_iff.1 hfound with rfl | hfound
        · rw [ha]
        · have hhere : f (ns ++ [name]) = none := by
            refine hnone _ (hfound.trans (List.prefix_append _ _)) (List.prefix_refl _) ?_
            rintro rfl
            have hle := hfound.length_le
            rw [List.length_append, List.length_singleton] at hle
            exact Nat.not_succ_le_self _ hle
          rw [hhere]
          exact ih.2 ⟨found, hfound, ha, fun inner hle hge hne =>
            hnone inner hle (hge.trans (List.prefix_append _ _)) hne⟩

theorem findSome?_outward_eq_none_iff {ns : Namespace} :
    ns.outward.findSome? f = none ↔ ∀ around, around <+: ns → f around = none := by
  induction ns using List.reverseRecOn with
  | nil =>
      have houtward : Namespace.outward [] = [[]] := rfl
      simp [houtward]
  | append_singleton ns name ih =>
      have hcons : ((ns ++ [name]) :: Namespace.outward ns).findSome? f = none ↔
          f (ns ++ [name]) = none ∧ (Namespace.outward ns).findSome? f = none := by
        rw [List.findSome?_cons]
        cases f (ns ++ [name]) <;> simp
      rw [outward_concat, hcons, ih]
      constructor
      · rintro ⟨hhere, hrest⟩ around haround
        rcases List.prefix_concat_iff.1 haround with rfl | haround
        · exact hhere
        · exact hrest around haround
      · intro hnone
        exact ⟨hnone _ (List.prefix_refl _), fun around haround =>
          hnone around (haround.trans (List.prefix_append _ _))⟩

end Namespace

/-- A declaration of the name that is added in a namespace around the given one stands
further inside than all known ones. -/
def Captures (known added : List (Namespace × String)) (space : Namespace) (name : String) : Prop :=
  ∃ near, near <+: space ∧ (near, name) ∈ added ∧
    ∀ inner, near <+: inner → inner <+: space → (inner, name) ∉ known

/-- What a name stands for in each namespace, before and after some declarations are
added to the known ones. -/
structure Widens {α : Type} (known added : List (Namespace × String)) (name : String)
    (f f' : Namespace → Option α) : Prop where
  keeps : ∀ {space a}, f space = some a → f' space = some a
  before : ∀ space, f space = none ↔ (space, name) ∉ known
  after : ∀ space, f' space = none ↔ (space, name) ∉ known ∧ (space, name) ∉ added

namespace Widens

variable {α : Type} {known added : List (Namespace × String)} {name : String}
  {f f' : Namespace → Option α} {space : Namespace} {a : α}

theorem mem_added (h : Widens known added name f f') (hnone : f space = none)
    (hsome : f' space ≠ none) : (space, name) ∈ added := by
  by_contra hmem
  exact hsome ((h.after space).2 ⟨(h.before space).1 hnone, hmem⟩)

/-- A name that is not captured stands for what it did. -/
theorem findSome?_eq (h : Widens known added name f f') (hfree : ¬ Captures known added space name) :
    space.outward.findSome? f' = space.outward.findSome? f := by
  -- A namespace with an answer only afterwards, and none known further inside, captures.
  have hnone : ∀ near, near <+: space →
      (∀ inner, near <+: inner → inner <+: space → f inner = none) → f' near = none := by
    intro near hnear hinner
    by_contra hsome
    refine hfree ⟨near, hnear, h.mem_added (hinner near (List.prefix_refl _) hnear) hsome, ?_⟩
    exact fun inner hle hge => (h.before inner).1 (hinner inner hle hge)
  cases hfind : space.outward.findSome? f with
  | none =>
      rw [Namespace.findSome?_outward_eq_none_iff] at hfind ⊢
      exact fun around haround => hnone around haround fun inner _ hge => hfind inner hge
  | some a =>
      obtain ⟨found, hfound, ha, hinner⟩ := Namespace.findSome?_outward_eq_some_iff.1 hfind
      refine Namespace.findSome?_outward_eq_some_iff.2 ⟨found, hfound, h.keeps ha, ?_⟩
      intro near hle hge hne
      refine hnone near hge fun inner hle' hge' => hinner inner (hle.trans hle') hge' ?_
      rintro rfl
      exact hne (hle'.eq_of_length_le hle.length_le)

/-- A name that stands for the same as before is not captured, if no two namespaces give
the same answer. -/
theorem not_captures (h : Widens known added name f f')
    (hinj : ∀ {here there}, f' here = some a → f' there = some a → here = there)
    (hfind : space.outward.findSome? f = some a) (hfind' : space.outward.findSome? f' = some a) :
    ¬ Captures known added space name := by
  rintro ⟨near, hnear, hadded, hinner⟩
  obtain ⟨found, hfound, ha, -⟩ := Namespace.findSome?_outward_eq_some_iff.1 hfind
  obtain ⟨found', hfound', ha', hnone⟩ := Namespace.findSome?_outward_eq_some_iff.1 hfind'
  obtain rfl : found = found' := hinj (h.keeps ha) ha'
  have hout : ¬ near <+: found := fun hle => by
    have hunknown := (h.before found).2 (hinner found hle hfound)
    rw [ha] at hunknown
    cases hunknown
  rcases List.prefix_or_prefix_of_prefix hnear hfound with hle | hle
  · exact hout hle
  · have hempty := hnone near hle hnear (by rintro rfl; exact hout (List.prefix_refl _))
    exact ((h.after near).1 hempty).2 hadded

end Widens

/-! ## Types in a larger registry -/

namespace Registry

variable {r r' r'' : Registry} {added added' : List (Namespace × String)} {scope : Scope}

/-- The second registry has the definitions of the first and after them those with the
given keys. -/
structure GrowsBy (added : List (Namespace × String)) (r r' : Registry) : Prop where
  defs : r.defs <+: r'.defs
  keys : r'.keys = r.keys ++ added

theorem GrowsBy.refl (r : Registry) : GrowsBy [] r r := ⟨List.prefix_refl _, by simp⟩

theorem GrowsBy.trans (h : GrowsBy added r r') (h' : GrowsBy added' r' r'') :
    GrowsBy (added ++ added') r r'' :=
  ⟨h.defs.trans h'.defs, by rw [h'.keys, h.keys, List.append_assoc]⟩

theorem GrowsBy.get? (h : GrowsBy added r r') {id : ℕ} {d : TypeDef} (hd : r.get? id = some d) :
    r'.get? id = some d := by
  obtain ⟨more, hmore⟩ := h.defs
  have hlt := (List.getElem?_eq_some_iff.1 hd).1
  rw [Registry.get?, ← hmore, List.getElem?_append_left hlt]
  exact hd

theorem GrowsBy.widens (h : GrowsBy added r r') (name : String) :
    Widens r.keys added name (r.lookup? · name) (r'.lookup? · name) where
  keeps hid := by
    obtain ⟨d, hd, hspace, hname⟩ := lookup?_eq_some_iff.1 hid
    exact lookup?_eq_some_iff.2 ⟨d, h.get? hd, hspace, hname⟩
  before space := lookup?_eq_none_iff
  after space := by rw [lookup?_eq_none_iff, h.keys, List.mem_append, not_or]

theorem foundAlike_iff (h : GrowsBy added r r') {t : TypeRef} {i : ℕ}
    (hfind : r.find? scope t = some i) :
    FoundAlike id r r' scope t ↔ (t.path = [] → ¬ Captures r.keys added scope.space t.name) := by
  have hwidens := h.widens t.name
  rw [FoundAlike, Option.map_id, id, hfind]
  by_cases hpath : t.path = []
  · simp only [find?, hpath, List.isEmpty_nil, if_true] at hfind ⊢
    constructor
    · intro hfind' _
      refine hwidens.not_captures (fun {here there} hhere hthere => ?_) hfind hfind'
      obtain ⟨d, hd, rfl, -⟩ := lookup?_eq_some_iff.1 hhere
      obtain ⟨e, he, rfl, -⟩ := lookup?_eq_some_iff.1 hthere
      rw [Option.some.inj (hd.symm.trans he)]
    · intro hfree
      exact (hwidens.findSome?_eq (hfree trivial)).trans hfind
  · have hempty : t.path.isEmpty = false := by simpa using hpath
    simp only [find?, hempty] at hfind ⊢
    exact ⟨fun _ hnil => absurd hnil hpath, fun _ => hwidens.keeps hfind⟩

theorem find?_of_resolveDef {t : TypeRef} {i : ℕ} {d : TypeDef}
    (h : r.resolveDef scope t = .ok (i, d)) : r.find? scope t = some i := by
  cases hfind : r.find? scope t with
  | none => rw [resolveDef_eq_error hfind] at h; cases h
  | some j =>
      obtain ⟨e, he⟩ := exists_get?_of_find? hfind
      rw [resolveDef_eq hfind he] at h
      split at h
      · obtain ⟨rfl, -⟩ := Prod.mk.inj (Except.ok.inj h)
        rfl
      · cases h

mutual

/-- Registries that give a written type the same meaning find all names in it alike. -/
theorem find?_of_resolve : ∀ {t : TypeRef} {u : Ty}, r.resolve scope t = .ok u →
    r'.resolve scope t = .ok u → ∀ w, w.Occurs t → reserved? scope w = none →
      ∃ i, r.find? scope w = some i ∧ r'.find? scope w = some i
  | ⟨span, path, name, args⟩, u, h, h' => by
    intro w hw hreserved
    unfold resolve at h h'
    dsimp only at h h'
    split at h
    next s hplain =>
      split at h
      next hargs =>
        cases hw with
        | here => rw [hplain] at hreserved; cases hreserved
        | arg ha _ => rw [List.isEmpty_iff.1 hargs] at ha; cases ha
      next => cases h
    next wrapper hwrapper =>
      rw [hwrapper] at h'
      split at h
      next a =>
        obtain ⟨v, hv, rfl⟩ := exists_of_map_eq_ok h
        obtain ⟨v', hv', hsame⟩ := exists_of_map_eq_ok h'
        obtain ⟨-, rfl⟩ := Ty.wrap.inj hsame
        cases hw with
        | here => rw [hwrapper] at hreserved; cases hreserved
        | arg ha hw =>
            obtain rfl := List.mem_singleton.1 ha
            exact find?_of_resolve hv hv' w hw hreserved
      next => cases h
    next hnone =>
      rw [hnone] at h'
      dsimp only at h'
      split at h
      next => cases h
      next i d hdef =>
        split at h'
        next => cases h'
        next j e hdef' =>
          obtain ⟨us, hus, rfl⟩ := exists_of_map_eq_ok h
          obtain ⟨us', hus', hsame⟩ := exists_of_map_eq_ok h'
          obtain ⟨rfl, -, rfl⟩ := Ty.adt.inj hsame
          cases hw with
          | here => exact ⟨_, find?_of_resolveDef hdef, find?_of_resolveDef hdef'⟩
          | arg ha hw => exact find?_of_resolveList hus hus' _ ha w hw hreserved

theorem find?_of_resolveList : ∀ {ts : List TypeRef} {us : List Ty},
    r.resolveList scope ts = .ok us → r'.resolveList scope ts = .ok us →
      ∀ t ∈ ts, ∀ w, w.Occurs t → reserved? scope w = none →
        ∃ i, r.find? scope w = some i ∧ r'.find? scope w = some i
  | [], us, h, h' => by simp
  | t :: ts, us, h, h' => by
    unfold resolveList at h h'
    split at h
    next => cases h
    next u hu =>
      split at h'
      next => cases h'
      next u' hu' =>
        obtain ⟨vs, hvs, rfl⟩ := exists_of_map_eq_ok h
        obtain ⟨vs', hvs', hsame⟩ := exists_of_map_eq_ok h'
        obtain ⟨rfl, rfl⟩ := List.cons.inj hsame
        intro x hx
        rcases List.mem_cons.1 hx with rfl | hx
        · exact find?_of_resolve hu hu'
        · exact find?_of_resolveList hvs hvs' x hx

end

theorem ne_unknown_of_resolve {t : TypeRef} {u : Ty} (h : r.resolve scope t = .ok u) :
    u ≠ .unknown := by
  rintro rfl
  obtain ⟨span, path, name, args⟩ := t
  unfold resolve at h
  dsimp only at h
  split at h
  next s hplain =>
    split at h
    · obtain rfl := Except.ok.inj h
      obtain ⟨hparam, -⟩ | hscalar := reserved?_plain_cases hplain
      · cases hparam
      · rcases Ty.leaf_of_scalar? hscalar with h | h | h | ⟨_, h⟩ | ⟨_, h⟩ <;> cases h
    · cases h
  next w hwrapper =>
    split at h
    · obtain ⟨v, -, hv⟩ := exists_of_map_eq_ok h
      cases hv
    · cases h
  next =>
    split at h
    · cases h
    · obtain ⟨us, -, hus⟩ := exists_of_map_eq_ok h
      cases hus

/-- A type that resolves means the same in a larger registry exactly if no name in it is
captured. -/
theorem typeOf_eq_iff (h : GrowsBy added r r') {t : TypeRef} {u : Ty}
    (ht : r.resolve scope t = .ok u) :
    r'.typeOf scope t = r.typeOf scope t ↔
      ∀ w, w.Occurs t → w.path = [] → reserved? scope w = none →
        ¬ Captures r.keys added scope.space w.name := by
  have hmoves : MovesTo id r r' := fun i d hd => ⟨d, h.get? hd, rfl, rfl⟩
  have hu : r.typeOf scope t = u := by rw [typeOf, ht]
  constructor
  · intro hsame w hw hpath hreserved
    have ht' : r'.resolve scope t = .ok u := by
      rw [hu, typeOf] at hsame
      split at hsame
      next hok => rw [hok, hsame]
      next => exact absurd hsame.symm (ne_unknown_of_resolve ht)
    obtain ⟨i, hfind, hfind'⟩ := find?_of_resolve ht ht' w hw hreserved
    refine (foundAlike_iff h hfind).1 ?_ hpath
    rw [FoundAlike, hfind, hfind']
    rfl
  · intro hfree
    have ht' := resolve_eq_map hmoves t fun w hw hreserved => by
      obtain ⟨i, hfind, -⟩ := find?_of_resolve ht ht w hw hreserved
      exact (foundAlike_iff h hfind).2 fun hpath => hfree w hw hpath hreserved
    rw [hu, typeOf, ht', ht]
    exact u.renumber_id

end Registry

end ProgramSafety
