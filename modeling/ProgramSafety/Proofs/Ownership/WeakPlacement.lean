import ProgramSafety.Proofs.Ownership.WeakInstances
import ProgramSafety.Proofs.Tree.Address

/-!
# Weak references by their addresses

`Ty.weakSites` hands a flag down a type that says whether the operand of an optional has been
reached. Here the same is said of addresses: `Ty.WrappedAt` looks at the type one step above.
The flag agrees with it (`Ty.flag_iff_wrappedAt`), and the list of weak references has one
entry for each address with a weak reference (`Ty.weakSites_perm`). So the problems of a type
are counted by the addresses at which a weak reference is not wrapped, and those at which it
observes something other than a class (`Registry.weakUse_exact`).
-/

namespace ProgramSafety

namespace Ty

def operands : Ty → List Ty
  | adt _ _ args => args
  | wrap _ t => [t]
  | unknown | void | bool | int _ | float _ | str | param _ => []

def isOptional : Ty → Bool
  | optional _ => true
  | _ => false

variable {t u : Ty}

theorem sizeOf_lt_of_mem_operands (hu : u ∈ t.operands) : sizeOf u < sizeOf t := by
  cases t with
  | adt id name args =>
      have hargs : sizeOf u < sizeOf args := List.sizeOf_lt_of_mem hu
      rw [adt.sizeOf_spec]
      omega
  | wrap w t =>
      obtain rfl := List.mem_singleton.1 hu
      rw [wrap.sizeOf_spec]
      omega
  | _ => cases hu

theorem isOptional_iff : t.isOptional = true ↔ ∃ u, t = optional u := by
  constructor
  · intro ht
    unfold isOptional at ht
    split at ht
    next u => exact ⟨u, rfl⟩
    next => cases ht
  · rintro ⟨u, rfl⟩
    rfl

noncomputable def layout : Layout Ty := ⟨operands, sizeOf, sizeOf_lt_of_mem_operands⟩

noncomputable def at? (t : Ty) (p : Address) : Option Ty := layout.at? t p

/-- The address is that of the operand of an optional. -/
def WrappedAt (t : Ty) (p : Address) : Prop :=
  ∃ q u, p = q ++ [0] ∧ t.at? q = some (optional u)

/-- The tree of a type, with the information whether it is the operand of an optional. -/
noncomputable def placed : Layout (Bool × Ty) where
  parts x := x.2.operands.map (x.2.isOptional, ·)
  size x := sizeOf x.2
  size_lt := by
    intro x y hy
    obtain ⟨u, hu, rfl⟩ := List.mem_map.1 hy
    exact sizeOf_lt_of_mem_operands hu

theorem at?_eq (inside : Bool) (t : Ty) (p : Address) :
    t.at? p = (placed.at? (inside, t) p).map Prod.snd := by
  refine Layout.at?_map (f := Prod.snd) (fun x => ?_) (inside, t) p
  change x.2.operands = (x.2.operands.map (x.2.isOptional, ·)).map Prod.snd
  rw [List.map_map]
  exact (List.map_id _).symm

/-- What is handed down to an address says whether it is that of the operand of an optional. -/
theorem flag_iff_wrappedAt {flag inside : Bool} {p : Address}
    (hp : placed.at? (inside, t) p = some (flag, u)) :
    flag = true ↔ p = [] ∧ inside = true ∨ t.WrappedAt p := by
  obtain rfl | ⟨q, i, rfl⟩ := List.eq_nil_or_concat p
  · obtain ⟨rfl, -⟩ := Prod.mk.inj (Option.some.inj hp)
    simp [WrappedAt]
  · rw [List.concat_eq_append] at hp ⊢
    rw [Layout.at?_concat] at hp
    obtain ⟨⟨above, v⟩, hq, hpart⟩ := Option.bind_eq_some_iff.1 hp
    have hv : t.at? q = some v := by rw [at?_eq inside, hq, Option.map_some]
    change (v.operands.map (v.isOptional, ·))[i]? = some (flag, u) at hpart
    rw [List.getElem?_map] at hpart
    obtain ⟨w, hw, hflag⟩ := Option.map_eq_some_iff.1 hpart
    obtain ⟨rfl, rfl⟩ := Prod.mk.inj hflag
    rw [isOptional_iff]
    constructor
    · rintro ⟨x, rfl⟩
      obtain rfl : i = 0 := by
        by_contra hne
        simp [operands, hne] at hw
      exact Or.inr ⟨q, x, rfl, hv⟩
    · rintro (⟨hnil, -⟩ | ⟨q', x, hsame, hx⟩)
      · simp at hnil
      · obtain ⟨rfl, -⟩ := List.append_inj' hsame rfl
        exact ⟨x, Option.some.inj (hv.symm.trans hx)⟩

def site? : Bool × Ty → Option WeakSite
  | (inside, weak t) => some ⟨t, inside⟩
  | _ => none

theorem site?_eq_some_iff {flag : Bool} {w : WeakSite} :
    site? (flag, t) = some w ↔ t = weak w.target ∧ (w.wrapped = true ↔ flag = true) := by
  rw [← Bool.eq_iff_iff]
  obtain ⟨target, wrapped⟩ := w
  constructor
  · intro h
    unfold site? at h
    split at h
    next heq =>
      obtain ⟨rfl, rfl⟩ := Prod.mk.inj heq
      obtain ⟨rfl, rfl⟩ := WeakSite.mk.inj (Option.some.inj h)
      exact ⟨rfl, rfl⟩
    next => cases h
  · rintro ⟨rfl, rfl⟩
    rfl

theorem weakSitesList_eq_flatMap (ts : List Ty) :
    weakSitesList ts = ts.flatMap (weakSites false) := by
  induction ts with
  | nil => rfl
  | cons t ts ih => rw [weakSitesList, ih, List.flatMap_cons]

theorem weakSites_eq (x : Bool × Ty) :
    x.2.weakSites x.1 =
      (site? x).toList ++ (placed.parts x).flatMap fun y => y.2.weakSites y.1 := by
  obtain ⟨inside, t⟩ := x
  cases t with
  | adt id name args =>
      change weakSitesList args = [] ++ (args.map (false, ·)).flatMap fun y => y.2.weakSites y.1
      rw [weakSitesList_eq_flatMap, List.nil_append, List.flatMap_map]
  | wrap w t =>
      cases w <;> simp [weakSites, site?, placed, operands, isOptional]
  | _ => rfl

/-- Each address with a weak reference counts once. -/
theorem weakSites_perm (x : Bool × Ty) :
    (x.2.weakSites x.1).Perm ((placed.subtrees x).filterMap site?) := by
  induction x using placed.induction with
  | step x ih =>
      rw [weakSites_eq, Layout.filterMap_subtrees]
      exact List.perm_append_comm.trans ((List.Perm.flatMap_left _ ih).append_right _)

noncomputable def siteAt? (t : Ty) (p : Address) : Option WeakSite :=
  (placed.at? (false, t) p).bind site?

theorem siteAt?_eq_some_iff {p : Address} {w : WeakSite} :
    t.siteAt? p = some w ↔
      t.at? p = some (weak w.target) ∧ (w.wrapped = true ↔ t.WrappedAt p) := by
  rw [siteAt?, at?_eq false]
  cases hp : placed.at? (false, t) p with
  | none => simp
  | some x =>
      obtain ⟨flag, u⟩ := x
      have hflag : flag = true ↔ t.WrappedAt p := by simpa using flag_iff_wrappedAt hp
      obtain ⟨target, wrapped⟩ := w
      rw [← hflag, Option.bind_some, Option.map_some, Option.some.injEq, site?_eq_some_iff]

theorem mem_weakSites_iff {w : WeakSite} : w ∈ t.weakSites false ↔ ∃ p, t.siteAt? p = some w :=
  (weakSites_perm (false, t)).mem_iff.trans placed.mem_filterMap_subtrees_iff

theorem exists_siteAt? {p : Address} (hu : t.at? p = some (weak u)) :
    ∃ w, t.siteAt? p = some w ∧ w.target = u := by
  classical
  exact ⟨⟨u, decide (t.WrappedAt p)⟩, siteAt?_eq_some_iff.2 ⟨hu, decide_eq_true_iff⟩, rfl⟩

/-- Counting weak references in the list counts addresses. -/
theorem countP_weakSites {f : WeakSite → Bool} {P : Address → Ty → Prop}
    (hf : ∀ p w, t.siteAt? p = some w → (f w = true ↔ P p w.target)) :
    (t.weakSites false).countP f = {p | ∃ u, t.at? p = some (weak u) ∧ P p u}.ncard := by
  have hset : {p | ∃ u, t.at? p = some (weak u) ∧ P p u} =
      {p | ∃ w, t.siteAt? p = some w ∧ f w = true} := by
    ext p
    constructor
    · rintro ⟨u, hu, hP⟩
      obtain ⟨w, hw, rfl⟩ := exists_siteAt? hu
      exact ⟨w, hw, (hf p w hw).2 hP⟩
    · rintro ⟨w, hw, hfw⟩
      exact ⟨w.target, (siteAt?_eq_some_iff.1 hw).1, (hf p w hw).1 hfw⟩
  rw [hset, (weakSites_perm (false, t)).countP_eq f]
  exact (placed.ncard_occurrences _ site? f).symm

end Ty

namespace Registry

variable {r : Registry} {t : Ty}

/-- An instance of a class, or a type that may still turn out to be one. -/
inductive MayObserve (r : Registry) : Ty → Prop where
  | classes {id : ℕ} {name : String} {args : List Ty} {d : TypeDef} {fs : List Field}
      {ms : List Method} (hd : r.get? id = some d) (hshape : d.shape = .classType fs ms) :
      MayObserve r (.adt id name args)
  | param (n : String) : MayObserve r (.param n)
  | unknown : MayObserve r .unknown

theorem observable_iff_mayObserve : r.observable t = true ↔ r.MayObserve t := by
  constructor
  · intro h
    cases t with
    | adt id name args =>
        obtain ⟨d, hd, hclass⟩ := (Option.any_eq_true _ _).1 h
        cases hshape : d.shape with
        | classType fs ms => exact .classes hd hshape
        | _ => simp [hshape, Shape.isClass] at hclass
    | param n => exact .param n
    | unknown => exact .unknown
    | wrap w t => cases w <;> simp [observable] at h
    | _ => simp [observable] at h
  · intro h
    cases h with
    | classes hd hshape => simp [observable, hd, hshape, Shape.isClass]
    | param n => rfl
    | unknown => rfl

theorem length_flatMap_siteProblems (r : Registry) (span : Span) (ws : List WeakSite) :
    (ws.flatMap (r.siteProblems span)).length =
      ws.countP (!·.wrapped) + ws.countP (!r.observable ·.target) := by
  induction ws with
  | nil => rfl
  | cons w ws ih =>
      have hw : (r.siteProblems span w).length =
          (if (!w.wrapped) = true then 1 else 0) +
            if (!r.observable w.target) = true then 1 else 0 := by
        cases hwrapped : w.wrapped <;> cases hobservable : r.observable w.target <;>
          simp [siteProblems, hwrapped, hobservable]
      rw [List.flatMap_cons, List.length_append, ih, hw, List.countP_cons, List.countP_cons]
      omega

/-- Exactly the legal types are accepted: every weak reference, at whatever address, is the
operand of an optional and observes a class or what may turn out to be one. Otherwise there is
one problem for each weak reference that is not wrapped and one for each that observes
something else. -/
theorem weakUse_exact (r : Registry) (span : Span) (t : Ty) :
    (r.weakUse span t = [] ↔
      ∀ p u, t.at? p = some (.weak u) → t.WrappedAt p ∧ r.MayObserve u) ∧
    (r.weakUse span t).length =
      {p | ∃ u, t.at? p = some (.weak u) ∧ ¬ t.WrappedAt p}.ncard +
        {p | ∃ u, t.at? p = some (.weak u) ∧ ¬ r.MayObserve u}.ncard := by
  constructor
  · rw [weakUse_eq_nil_iff]
    constructor
    · intro hlegal p u hu
      obtain ⟨w, hw, rfl⟩ := Ty.exists_siteAt? hu
      obtain ⟨hwrapped, hobserved⟩ := hlegal w (Ty.mem_weakSites_iff.2 ⟨p, hw⟩)
      exact ⟨(Ty.siteAt?_eq_some_iff.1 hw).2.1 hwrapped, observable_iff_mayObserve.1 hobserved⟩
    · intro hlegal w hw
      obtain ⟨p, hp⟩ := Ty.mem_weakSites_iff.1 hw
      obtain ⟨hat, hflag⟩ := Ty.siteAt?_eq_some_iff.1 hp
      obtain ⟨hwrapped, hobserved⟩ := hlegal p w.target hat
      exact ⟨hflag.2 hwrapped, observable_iff_mayObserve.2 hobserved⟩
  · have hbare : (t.weakSites false).countP (!·.wrapped) =
        {p | ∃ u, t.at? p = some (.weak u) ∧ ¬ t.WrappedAt p}.ncard := by
      refine Ty.countP_weakSites fun p w hw => ?_
      rw [Bool.not_eq_true', ← Bool.not_eq_true, (Ty.siteAt?_eq_some_iff.1 hw).2]
    have hother : (t.weakSites false).countP (!r.observable ·.target) =
        {p | ∃ u, t.at? p = some (.weak u) ∧ ¬ r.MayObserve u}.ncard := by
      refine Ty.countP_weakSites fun p w hw => ?_
      rw [Bool.not_eq_true', ← Bool.not_eq_true, observable_iff_mayObserve]
    rw [weakUse, weakProblems_eq_flatMap, length_flatMap_siteProblems, hbare, hother]

end Registry

end ProgramSafety
