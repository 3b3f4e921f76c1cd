import Mathlib.Data.List.Flatten
import Mathlib.Data.List.Permutation
import Mathlib.Data.List.Sigma
import ProgramSafety.Proofs.Store.Aging
import ProgramSafety.Proofs.Store.References

/-!
# What a release destroys

A release works off a stack of handles, and destroying an object puts the handles that
it owned on the stack. The outcome does not depend on the order of the stack. If `dead`
are the objects destroyed, an object loses `s.givenUp h dead x` of its owners: one if it
is the object `h` released, and one for every handle to it inside of `dead`. It is
destroyed exactly if these were all of its owners, and `dead` is the least set of
objects that is closed under this rule (`Heap.ReleaseEffect.least`).

The invariant of the loop is `Heap.Cascade`. It is one equation between owners before
and owners now, in which the handles still on the stack count for the state before, and
it is carried through `Heap.releaseAll` by induction. Nothing is asked of the heap but
that live objects have owners: its counts need not be those of `Heap.Accounted`.
-/

namespace ProgramSafety

namespace Heap

open Relation

def lost (s s' : Heap) : List Handle := s.residents.filter fun x => !s'.isAlive x

/-- How many of its owners the object behind `x` loses when `h` is released and the
objects in `dead` are destroyed. -/
def givenUp (s : Heap) (h : Handle) (dead : List Handle) (x : Handle) : ℕ :=
  (if x = h then 1 else 0) + (dead.flatMap s.held).count x

/-- The objects in `dead` fall one after the other, the last of the list first, when `h`
is released: what fell before an object had all of its owners. -/
inductive Falls (s : Heap) (h : Handle) : List Handle → Prop where
  | nil : Falls s h []
  | cons {x : Handle} {dead : List Handle} (howners : s.owners x ≤ s.givenUp h dead x)
      (hdead : Falls s h dead) : Falls s h (x :: dead)

variable {s s₁ s₂ s' : Heap} {h x : Handle} {e : Entry} {dead dead' stack : List Handle}

/-! ## Objects that are gone -/

theorem nodup_residents (s : Heap) : s.residents.Nodup := by
  refine List.pairwise_filterMap.2 ?_
  have hplaces : s.slots.zipIdx.Pairwise fun p q => p.2 ≠ q.2 :=
    List.pairwise_map.1 (List.nodup_zipIdx_map_snd s.slots)
  refine hplaces.imp ?_
  intro p q hne x hx y hy heq
  obtain ⟨-, -, rfl⟩ := Option.map_eq_some_iff.1 hx
  obtain ⟨-, -, rfl⟩ := Option.map_eq_some_iff.1 hy
  exact hne (congrArg Handle.index heq)

theorem mem_lost_iff : x ∈ s.lost s' ↔ s.isAlive x = true ∧ s'.isAlive x = false := by
  rw [lost, List.mem_filter, mem_residents_iff, Bool.not_eq_true']

theorem nodup_lost (s s' : Heap) : (s.lost s').Nodup := (nodup_residents s).filter _

theorem owners_pos (hpos : ∀ x e, s.get? x = some e → 1 ≤ e.count) (hx : s.isAlive x = true) :
    0 < s.owners x := by
  obtain ⟨e, he⟩ := isAlive_iff.1 hx
  rw [owners_of_get? he]
  exact hpos x e he

theorem owners_eq_zero (hx : s.isAlive x = false) : s.owners x = 0 :=
  owners_of_get?_none (by simpa [isAlive] using hx)

/-! ## Owners that are lost -/

theorem givenUp_cons (s : Heap) (h y : Handle) (dead : List Handle) (x : Handle) :
    s.givenUp h (y :: dead) x = s.givenUp h dead x + (s.held y).count x := by
  rw [givenUp, givenUp, List.flatMap_cons, List.count_append]
  omega

theorem givenUp_perm (hperm : dead.Perm dead') (x : Handle) :
    s.givenUp h dead x = s.givenUp h dead' x := by
  rw [givenUp, givenUp, (hperm.flatMap_right s.held).count_eq]

theorem givenUp_mono (hnodup : dead.Nodup) (hsub : dead ⊆ dead') (x : Handle) :
    s.givenUp h dead x ≤ s.givenUp h dead' x := by
  obtain ⟨l, hperm, hl⟩ := List.subperm_of_subset hnodup hsub
  rw [← givenUp_perm hperm]
  exact Nat.add_le_add_left ((hl.flatMap s.held).count_le x) _

namespace Falls

/-- What falls is reached from the object released. -/
theorem reachable (hfalls : s.Falls h dead) (hpos : ∀ y ∈ dead, 0 < s.owners y)
    (hx : x ∈ dead) : ReflTransGen s.Refers h x := by
  induction hfalls generalizing x with
  | nil => simp at hx
  | @cons y dead howners hdead ih =>
      have hreach : ∀ d ∈ dead, ReflTransGen s.Refers h d :=
        fun d => ih fun z hz => hpos z (List.mem_cons_of_mem y hz)
      rcases List.mem_cons.1 hx with rfl | hx
      · by_cases heq : x = h
        · rw [heq]
        · -- an owner that fell before refers to the object
          have hlost : 0 < (dead.flatMap s.held).count x := by
            have howner := hpos x List.mem_cons_self
            rw [givenUp, if_neg heq] at howners
            omega
          obtain ⟨d, hd, hx⟩ := List.mem_flatMap.1 (List.count_pos_iff.1 hlost)
          exact (hreach d hd).tail hx
      · exact hreach x hx

/-- What falls belongs to every set that has all objects whose owners are lost with it. -/
theorem subset (hfalls : s.Falls h dead) (hnodup : dead.Nodup)
    (hclosed : ∀ x ∈ dead, s.owners x ≤ s.givenUp h dead' x → x ∈ dead') : dead ⊆ dead' := by
  induction hfalls with
  | nil => exact List.nil_subset _
  | @cons y dead howners hdead ih =>
      have hnodup' := (List.nodup_cons.1 hnodup).2
      have hrest : dead ⊆ dead' :=
        ih hnodup' fun x hx => hclosed x (List.mem_cons_of_mem y hx)
      refine List.cons_subset.2 ⟨hclosed y List.mem_cons_self ?_, hrest⟩
      exact howners.trans (givenUp_mono hnodup' hrest y)

end Falls

/-! ## The loop -/

theorem releaseOne_cases {r : Released} {owned : List Handle}
    (hone : releaseOne x s₁ = .ok (r, owned) s₂) : ∃ e, s₁.get? x = some e ∧
      (1 < e.count ∧ r = .alive (e.count - 1) ∧ owned = [] ∧
          s₂ = s₁.setEntry x { e with count := e.count - 1 } ∨
        ¬ 1 < e.count ∧ r = .destroyed ∧ owned = e.object.handles ∧ s₂ = s₁.vacate x) := by
  unfold releaseOne at hone
  split at hone
  · cases hone
  next e he =>
    refine ⟨e, he, ?_⟩
    split at hone
    next hcount =>
      cases hone
      exact Or.inl ⟨hcount, rfl, rfl, rfl⟩
    next hcount =>
      cases hone
      exact Or.inr ⟨hcount, rfl, rfl, rfl⟩

theorem exists_of_release {r : Released} (hr : release h s = .ok r s') :
    ∃ owned s₁, releaseOne h s = .ok (r, owned) s₁ ∧ releaseAll owned.reverse s₁ = .ok () s' := by
  unfold release at hr
  split at hr
  · cases hr
  next r₁ owned s₁ hone =>
    split at hr
    next hall =>
      cases hr
      exact ⟨owned, s₁, hone, hall⟩
    · cases hr

/-- The release of `h` in the heap `s` has led to the heap `s₁`, with the objects in
`dead` destroyed, the last one first, and the handles on the stack to be released. -/
structure Cascade (s : Heap) (h : Handle) (dead stack : List Handle) (s₁ : Heap) : Prop where
  owners_eq : ∀ x, s.owners x + stack.count x = s₁.owners x + s.givenUp h dead x
  object_eq : ∀ x e₁, s₁.get? x = some e₁ → ∃ e, s.get? x = some e ∧ e₁.object = e.object
  count_pos : ∀ x e₁, s₁.get? x = some e₁ → 1 ≤ e₁.count
  mem_dead_iff : ∀ x, x ∈ dead ↔ s.isAlive x = true ∧ s₁.isAlive x = false
  nodup : dead.Nodup
  free_eq : s₁.free = dead.map Handle.index ++ s.free
  falls : s.Falls h dead

namespace Cascade

theorem start (hpos : ∀ x e, s.get? x = some e → 1 ≤ e.count) (h : Handle) :
    s.Cascade h [] [h] s where
  owners_eq x := by
    by_cases hx : x = h
    · simp [givenUp, hx]
    · simp [givenUp, hx, Ne.symm hx]
  object_eq x e he := ⟨e, he, rfl⟩
  count_pos := hpos
  mem_dead_iff x := by simp
  nodup := List.nodup_nil
  free_eq := rfl
  falls := .nil

/-- An object with further owners loses one of them. -/
theorem lower (hc : s.Cascade h dead (x :: stack) s₁) (he : s₁.get? x = some e)
    (hcount : 1 < e.count) :
    s.Cascade h dead stack (s₁.setEntry x { e with count := e.count - 1 }) where
  owners_eq y := by
    have hbefore := hc.owners_eq y
    rw [List.count_cons] at hbefore
    rw [owners_setEntry he]
    by_cases hy : y = x
    · subst hy
      rw [owners_of_get? he, if_pos (beq_self_eq_true y)] at hbefore
      rw [if_pos rfl]
      dsimp only
      omega
    · rw [if_neg (by simpa using Ne.symm hy)] at hbefore
      rw [if_neg hy]
      omega
  object_eq y e₁ hy := by
    by_cases hne : y = x
    · subst hne
      rw [get?_setEntry_self he] at hy
      obtain rfl := Option.some.inj hy
      exact hc.object_eq y e he
    · rw [get?_setEntry_of_ne he hne] at hy
      exact hc.object_eq y e₁ hy
  count_pos y e₁ hy := by
    by_cases hne : y = x
    · subst hne
      rw [get?_setEntry_self he] at hy
      obtain rfl := Option.some.inj hy
      dsimp only
      omega
    · rw [get?_setEntry_of_ne he hne] at hy
      exact hc.count_pos y e₁ hy
  mem_dead_iff y := by
    rw [hc.mem_dead_iff]
    by_cases hne : y = x
    · subst hne
      simp [isAlive, get?_setEntry_self he, he]
    · simp [isAlive, get?_setEntry_of_ne he hne]
  nodup := hc.nodup
  free_eq := hc.free_eq
  falls := hc.falls

/-- An object that loses its last owner is destroyed, and its handles go on the stack. -/
theorem destroy (hc : s.Cascade h dead (x :: stack) s₁) (he : s₁.get? x = some e)
    (hcount : ¬ 1 < e.count) :
    s.Cascade h (x :: dead) (e.object.handles.reverse ++ stack) (s₁.vacate x) := by
  have hone : e.count = 1 := by
    have := hc.count_pos x e he
    omega
  obtain ⟨e₀, he₀, hobject⟩ := hc.object_eq x e he
  have hheld : s.held x = e.object.handles := by rw [held_of_get? he₀, hobject]
  -- the owner that is left is the handle on the stack, which comes from what fell before
  have hfall : s.owners x ≤ s.givenUp h dead x := by
    have hx := hc.owners_eq x
    rw [owners_of_get? he, hone, List.count_cons_self] at hx
    omega
  refine
    { owners_eq := fun y => ?_, object_eq := fun y e₁ hy => ?_, count_pos := fun y e₁ hy => ?_,
      mem_dead_iff := fun y => ?_, nodup := ?_, free_eq := ?_, falls := .cons hfall hc.falls }
  · have hbefore := hc.owners_eq y
    rw [List.count_cons] at hbefore
    rw [givenUp_cons, hheld, List.count_append, List.count_reverse]
    by_cases hy : y = x
    · subst hy
      rw [owners_of_get? he, hone, if_pos (beq_self_eq_true y)] at hbefore
      rw [owners_of_get?_none (get?_vacate_self he)]
      omega
    · rw [if_neg (by simpa using Ne.symm hy)] at hbefore
      have hsame : (s₁.vacate x).owners y = s₁.owners y := by
        simp [owners, get?_vacate_of_ne he hy]
      omega
  · by_cases hne : y = x
    · rw [hne, get?_vacate_self he] at hy
      cases hy
    · rw [get?_vacate_of_ne he hne] at hy
      exact hc.object_eq y e₁ hy
  · by_cases hne : y = x
    · rw [hne, get?_vacate_self he] at hy
      cases hy
    · rw [get?_vacate_of_ne he hne] at hy
      exact hc.count_pos y e₁ hy
  · by_cases hne : y = x
    · subst hne
      simp [isAlive, get?_vacate_self he, he₀]
    · rw [List.mem_cons, or_iff_right hne, hc.mem_dead_iff]
      simp [isAlive, get?_vacate_of_ne he hne]
  · refine List.nodup_cons.2 ⟨?_, hc.nodup⟩
    rw [hc.mem_dead_iff]
    simp [isAlive, he]
  · rw [vacate, hc.free_eq]
    rfl

/-- One handle of the stack. -/
theorem releaseOne {r : Released} {owned : List Handle} (hc : s.Cascade h dead (x :: stack) s₁)
    (hone : Heap.releaseOne x s₁ = .ok (r, owned) s₂) :
    ∃ dead', s.Cascade h dead' (owned.reverse ++ stack) s₂ := by
  obtain ⟨e, he, ⟨hcount, -, rfl, rfl⟩ | ⟨hcount, -, rfl, rfl⟩⟩ := releaseOne_cases hone
  · exact ⟨dead, hc.lower he hcount⟩
  · exact ⟨x :: dead, hc.destroy he hcount⟩

/-- The whole stack. -/
theorem releaseAll (hc : s.Cascade h dead stack s₁)
    (hall : Heap.releaseAll stack s₁ = .ok () s') : ∃ dead', s.Cascade h dead' [] s' := by
  fun_induction Heap.releaseAll stack s₁ generalizing dead with
  | case1 s₁ =>
      cases hall
      exact ⟨dead, hc⟩
  | case2 s₁ x stack f s₂ hone => cases hall
  | case3 s₁ x stack r owned s₂ hone ih =>
      obtain ⟨dead', hc'⟩ := hc.releaseOne hone
      exact ih hc' hall

/-- The objects destroyed when the stack is empty are those that are gone. -/
theorem perm_lost (hc : s.Cascade h dead [] s') : dead.Perm (s.lost s') :=
  (List.perm_ext_iff_of_nodup hc.nodup (nodup_lost s s')).2 fun x => by
    rw [hc.mem_dead_iff, mem_lost_iff]

theorem count_eq_add (hc : s.Cascade h dead [] s') (he : s.get? x = some e) :
    e.count = s'.owners x + s.givenUp h (s.lost s') x := by
  rw [← givenUp_perm hc.perm_lost, ← owners_of_get? he]
  exact hc.owners_eq x

theorem mem_lost_iff_givenUp (hc : s.Cascade h dead [] s') (he : s.get? x = some e) :
    x ∈ s.lost s' ↔ s.givenUp h (s.lost s') x = e.count := by
  have hcount := hc.count_eq_add he
  cases hx : s'.isAlive x with
  | true =>
      have := owners_pos hc.count_pos hx
      refine iff_of_false (fun hmem => ?_) (by omega)
      exact Bool.noConfusion (hx.symm.trans (mem_lost_iff.1 hmem).2)
  | false =>
      rw [owners_eq_zero hx, zero_add] at hcount
      exact iff_of_true (mem_lost_iff.2 ⟨isAlive_iff.2 ⟨e, he⟩, hx⟩) hcount.symm

theorem exists_of_notMem_lost (hc : s.Cascade h dead [] s') (he : s.get? x = some e)
    (hx : x ∉ s.lost s') :
    ∃ n, s'.get? x = some ⟨n, e.object⟩ ∧ n + s.givenUp h (s.lost s') x = e.count := by
  have halive : s'.isAlive x = true := by
    by_contra hdead
    exact hx (mem_lost_iff.2 ⟨isAlive_iff.2 ⟨e, he⟩, by simpa using hdead⟩)
  obtain ⟨⟨n, o⟩, he'⟩ := isAlive_iff.1 halive
  obtain ⟨e₀, he₀, hobject⟩ := hc.object_eq x _ he'
  obtain rfl : e₀ = e := Option.some.inj (he₀.symm.trans he)
  have hcount := hc.count_eq_add he
  rw [owners_of_get? he'] at hcount
  exact ⟨n, by rw [he', ← hobject], hcount.symm⟩

theorem lost_subset (hc : s.Cascade h dead [] s')
    (hclosed : ∀ x e, s.get? x = some e → e.count ≤ s.givenUp h dead' x → x ∈ dead') :
    s.lost s' ⊆ dead' := by
  refine List.Subset.trans hc.perm_lost.symm.subset (hc.falls.subset hc.nodup ?_)
  intro x hx hle
  obtain ⟨e, he⟩ := isAlive_iff.1 ((hc.mem_dead_iff x).1 hx).1
  rw [owners_of_get? he] at hle
  exact hclosed x e he hle

theorem reachable_of_mem_lost (hc : s.Cascade h dead [] s')
    (hpos : ∀ x e, s.get? x = some e → 1 ≤ e.count) (hx : x ∈ s.lost s') :
    ReflTransGen s.Refers h x := by
  refine hc.falls.reachable (fun y hy => ?_) (hc.perm_lost.mem_iff.2 hx)
  exact owners_pos hpos ((hc.mem_dead_iff y).1 hy).1

theorem isAlive_before (hc : s.Cascade h dead [] s') (hx : s'.isAlive x = true) :
    s.isAlive x = true := by
  obtain ⟨e', he'⟩ := isAlive_iff.1 hx
  obtain ⟨e, he, -⟩ := hc.object_eq x e' he'
  exact isAlive_iff.2 ⟨e, he⟩

end Cascade

/-- A release starts with its handle alone on the stack. -/
theorem releaseAll_of_release {r : Released} (hr : release h s = .ok r s') :
    releaseAll [h] s = .ok () s' := by
  obtain ⟨owned, s₁, hone, hall⟩ := exists_of_release hr
  rw [releaseAll]
  split
  next hone' => cases hone.symm.trans hone'
  next hone' =>
    cases hone.symm.trans hone'
    rw [List.append_nil, hall]

/-- A slot that lost its object is empty, one generation on. -/
theorem Ages.getElem?_of_lost (hages : s.Ages s') (hx : x ∈ s.lost s') :
    s'.slots[x.index]? = some ⟨x.generation + 1, none⟩ := by
  obtain ⟨halive, hdead⟩ := mem_lost_iff.1 hx
  obtain ⟨e, he⟩ := isAlive_iff.1 halive
  obtain ⟨slot, hslot, hslots⟩ := hages.slots _ _ (exists_slot_of_get? he)
  cases hslots with
  | loses => exact hslot
  | @keeps _ _ e' h =>
      obtain ⟨e', rfl⟩ := Option.isSome_iff_exists.1 h
      have halive' : s'.isAlive x = true := isAlive_iff.2 ⟨e', get?_eq_some_iff.2 hslot⟩
      rw [hdead] at halive'
      cases halive'

theorem Ages.getElem?_of_empty (hages : s.Ages s') {i : ℕ} {g : UInt32}
    (hslot : s.slots[i]? = some ⟨g, none⟩) : s'.slots[i]? = some ⟨g, none⟩ := by
  obtain ⟨slot, hslot', hslots⟩ := hages.slots i _ hslot
  cases hslots with
  | @keeps _ _ e' h =>
      obtain rfl : e' = none := Option.not_isSome_iff_eq_none.1 (by simp [h])
      exact hslot'

/-! ## The effect of a release -/

structure ReleaseEffect (s : Heap) (h : Handle) (r : Released) (s' : Heap) : Prop where
  /-- An object is destroyed if its owners are the handle released and handles inside of
  destroyed objects. -/
  lost_iff : ∀ x e, s.get? x = some e →
    (x ∈ s.lost s' ↔ s.givenUp h (s.lost s') x = e.count)
  /-- No set of objects closed under the rule leaves out an object that is destroyed. -/
  least : ∀ dead : List Handle,
    (∀ x e, s.get? x = some e → e.count ≤ s.givenUp h dead x → x ∈ dead) → s.lost s' ⊆ dead
  reachable : ∀ x ∈ s.lost s', ReflTransGen s.Refers h x
  /-- The other objects lose owners and are otherwise the same. -/
  kept : ∀ x e, s.get? x = some e → x ∉ s.lost s' →
    ∃ n, s'.get? x = some ⟨n, e.object⟩ ∧ n + s.givenUp h (s.lost s') x = e.count
  nothing_new : ∀ x, s'.isAlive x = true → s.isAlive x = true
  vacated : ∀ x ∈ s.lost s', s'.slots[x.index]? = some ⟨x.generation + 1, none⟩
  empty_kept : ∀ (i : ℕ) (g : UInt32), s.slots[i]? = some ⟨g, none⟩ →
    s'.slots[i]? = some ⟨g, none⟩
  /-- Each emptied slot is put on the free list once, before the slots that are there. -/
  freed : ∃ order : List Handle, order.Perm (s.lost s') ∧
    s'.free = order.map Handle.index ++ s.free
  freeListed : s'.FreeListed
  result : ∃ e, s.get? h = some e ∧
    r = if e.count = 1 then .destroyed else .alive (e.count - 1)

/-- In a heap whose live objects have owners and whose free list is right, a release that
succeeds destroys the objects that lose all of their owners, and takes from the others
the owners that they lose. -/
theorem release_effect (s s' : Heap) (h : Handle) (r : Released)
    (hpos : ∀ x e, s.get? x = some e → 1 ≤ e.count) (hfree : s.FreeListed)
    (hr : release h s = .ok r s') : s.ReleaseEffect h r s' := by
  obtain ⟨dead, hc⟩ := (Cascade.start hpos h).releaseAll (releaseAll_of_release hr)
  have hages : s.Ages s' := placesNothing_release.of_ok hr
  have hresult : ∃ e, s.get? h = some e ∧
      r = if e.count = 1 then .destroyed else .alive (e.count - 1) := by
    obtain ⟨owned, s₁, hone, -⟩ := exists_of_release hr
    obtain ⟨e, he, ⟨hcount, rfl, -⟩ | ⟨hcount, rfl, -⟩⟩ := releaseOne_cases hone
    · exact ⟨e, he, by rw [if_neg (by omega)]⟩
    · have := hpos h e he
      exact ⟨e, he, by rw [if_pos (by omega)]⟩
  exact
    { lost_iff := fun x e => hc.mem_lost_iff_givenUp
      least := fun dead' => hc.lost_subset
      reachable := fun x => hc.reachable_of_mem_lost hpos
      kept := fun x e => hc.exists_of_notMem_lost
      nothing_new := fun x => hc.isAlive_before
      vacated := fun x => hages.getElem?_of_lost
      empty_kept := fun i g => hages.getElem?_of_empty
      freed := ⟨dead, hc.perm_lost, hc.free_eq⟩
      freeListed := hages.freeListed hfree
      result := hresult }

/-- An object with two owned parts that share a third, which an optional and a struct
lead to. What all of them refer to has more owners, among them itself. -/
def sharedParts : Heap where
  slots :=
    [⟨0, some ⟨1, .classInstance "Node"
        [("left", .present (.object ⟨1, 3⟩)), ("right", .array ⟨2, 4294967295⟩)]⟩⟩,
     ⟨3, some ⟨1, .classInstance "Node"
        [("pair", .struct "Pair" [("a", .array ⟨2, 4294967295⟩), ("b", .object ⟨4, 0⟩)])]⟩⟩,
     ⟨4294967295, some ⟨2, .array [.object ⟨4, 0⟩]⟩⟩,
     ⟨7, none⟩,
     ⟨0, some ⟨5, .classInstance "Node" [("self", .object ⟨4, 0⟩)]⟩⟩]
  free := [3]

def sharedPartsGone : Heap where
  slots :=
    [⟨1, none⟩, ⟨4, none⟩, ⟨0, none⟩, ⟨7, none⟩,
     ⟨0, some ⟨3, .classInstance "Node" [("self", .object ⟨4, 0⟩)]⟩⟩]
  free := [2, 1, 0, 3]

theorem release_effect_sharedParts :
    release ⟨0, 0⟩ sharedParts = .ok .destroyed sharedPartsGone ∧
      sharedParts.lost sharedPartsGone = [⟨0, 0⟩, ⟨1, 3⟩, ⟨2, 4294967295⟩] ∧
      sharedParts.ReleaseEffect ⟨0, 0⟩ .destroyed sharedPartsGone := by
  have hr : release ⟨0, 0⟩ sharedParts = .ok .destroyed sharedPartsGone := by cbv
  have hpos : ∀ x e, sharedParts.get? x = some e → 1 ≤ e.count := by
    intro x e he
    have hmem := List.mem_of_getElem? (exists_slot_of_get? he)
    simp only [sharedParts, List.mem_cons, List.not_mem_nil, Slot.mk.injEq, Option.some.injEq,
      reduceCtorEq, and_false, or_false, false_or] at hmem
    obtain ⟨-, rfl⟩ | ⟨-, rfl⟩ | ⟨-, rfl⟩ | ⟨-, rfl⟩ := hmem <;> decide
  have hfree : sharedParts.FreeListed := by
    refine ⟨by decide, fun i => ?_⟩
    rcases i with _ | _ | _ | _ | _ | i <;> simp [sharedParts]
  exact ⟨hr, by decide, release_effect _ _ _ _ hpos hfree hr⟩

end Heap

end ProgramSafety
