import ProgramSafety.Proofs.Store.Cascade

/-!
# The steps of a release

A release works off a stack of handles. An object that is destroyed puts the handles that
it owned on the stack, and objects may refer to each other in cycles, so the stack need not
get smaller. What gets smaller is `Heap.total`, the owners of all live objects together: a
handle that is released takes away one owner, and an object is destroyed with its last one.

`Stage.Step` is one handle taken off the stack, and `Stage.Steps` are several of them in a
row. Every row of steps is as long as the owners that it takes away
(`Stage.Steps.total_add`), and what `Heap.releaseAll` does is the same at each stage of it
(`Stage.Steps.releaseAll_eq`). Nothing is asked of the handles inside objects: they may be
dead, or more than the counts allow for.
-/

namespace ProgramSafety

def Slot.owners (slot : Slot) : ℕ := slot.entry.elim 0 Entry.count

namespace Heap

def total (s : Heap) : ℕ := s.slots.foldr (fun slot n => slot.owners + n) 0

variable {s s' : Heap} {h : Handle} {e : Entry}

theorem foldr_owners_set {slots : List Slot} {i : ℕ} {old : Slot} (hold : slots[i]? = some old)
    (new : Slot) :
    (slots.set i new).foldr (fun slot n => slot.owners + n) 0 + old.owners =
      slots.foldr (fun slot n => slot.owners + n) 0 + new.owners := by
  induction slots generalizing i with
  | nil => simp at hold
  | cons slot slots ih =>
      cases i with
      | zero =>
          obtain rfl : slot = old := by simpa using hold
          simp only [List.set_cons_zero, List.foldr_cons]
          omega
      | succ i =>
          have hrest := ih (i := i) (by simpa using hold)
          simp only [List.set_cons_succ, List.foldr_cons]
          omega

theorem total_setEntry (he : s.get? h = some e) (e' : Entry) :
    (s.setEntry h e').total + e.count = s.total + e'.count :=
  foldr_owners_set (exists_slot_of_get? he) ⟨h.generation, some e'⟩

theorem total_vacate (he : s.get? h = some e) : (s.vacate h).total + e.count = s.total :=
  foldr_owners_set (exists_slot_of_get? he) ⟨h.generation + 1, none⟩

/-- A handle that is released takes away one owner. -/
theorem total_releaseOne {r : Released} {owned : List Handle}
    (hpos : ∀ x e, s.get? x = some e → 1 ≤ e.count)
    (hone : releaseOne h s = .ok (r, owned) s') : s'.total + 1 = s.total := by
  obtain ⟨e, he, ⟨hcount, -, -, rfl⟩ | ⟨hcount, -, -, rfl⟩⟩ := releaseOne_cases hone
  · have htotal := total_setEntry he { e with count := e.count - 1 }
    dsimp only at htotal
    omega
  · have htotal := total_vacate he
    have hlast := hpos h e he
    omega

theorem count_pos_releaseOne {r : Released} {owned : List Handle}
    (hpos : ∀ x e, s.get? x = some e → 1 ≤ e.count)
    (hone : releaseOne h s = .ok (r, owned) s') : ∀ x e, s'.get? x = some e → 1 ≤ e.count := by
  obtain ⟨dead, hc⟩ := (Cascade.start hpos h).releaseOne hone
  exact hc.count_pos

theorem releaseOne_of_dead (hdead : s.get? h = none) :
    releaseOne h s = .error (.danglingHandle h.index) s := by
  simp [releaseOne, hdead]

theorem exists_releaseOne (he : s.get? h = some e) :
    ∃ r owned s', releaseOne h s = .ok (r, owned) s' := by
  unfold releaseOne
  rw [he]
  dsimp only
  split
  · exact ⟨_, _, _, rfl⟩
  · exact ⟨_, _, _, rfl⟩

end Heap

/-! ## Stages -/

/-- How far a release has got: the handles to be released, the next one first, and the
heap. -/
structure Stage where
  stack : List Handle
  heap : Heap

namespace Stage

/-- The next handle is released, and what a destroyed object owned goes on the stack. -/
inductive Step : Stage → Stage → Prop where
  | release {h : Handle} {rest owned : List Handle} {r : Released} {s s' : Heap}
      (hone : Heap.releaseOne h s = .ok (r, owned) s') :
      Step ⟨h :: rest, s⟩ ⟨owned.reverse ++ rest, s'⟩

inductive Steps : ℕ → Stage → Stage → Prop where
  | zero {a : Stage} : Steps 0 a a
  | succ {n : ℕ} {a b c : Stage} (hstep : Step a b) (hsteps : Steps n b c) : Steps (n + 1) a c

def Done (a : Stage) : Prop := a.stack = []

def StuckAt (a : Stage) (h : Handle) : Prop := a.stack.head? = some h ∧ a.heap.get? h = none

variable {a b : Stage} {h : Handle} {n : ℕ}

theorem Step.total_add (hstep : Step a b)
    (hpos : ∀ x e, a.heap.get? x = some e → 1 ≤ e.count) :
    b.heap.total + 1 = a.heap.total := by
  obtain ⟨hone⟩ := hstep
  exact Heap.total_releaseOne hpos hone

theorem Step.count_pos (hstep : Step a b)
    (hpos : ∀ x e, a.heap.get? x = some e → 1 ≤ e.count) :
    ∀ x e, b.heap.get? x = some e → 1 ≤ e.count := by
  obtain ⟨hone⟩ := hstep
  exact Heap.count_pos_releaseOne hpos hone

theorem Step.releaseAll_eq (hstep : Step a b) :
    Heap.releaseAll a.stack a.heap = Heap.releaseAll b.stack b.heap := by
  obtain ⟨hone⟩ := hstep
  rw [Heap.releaseAll]
  split
  next hone' => cases hone.symm.trans hone'
  next hone' =>
    cases hone.symm.trans hone'
    rfl

theorem Steps.count_pos (hsteps : Steps n a b)
    (hpos : ∀ x e, a.heap.get? x = some e → 1 ≤ e.count) :
    ∀ x e, b.heap.get? x = some e → 1 ≤ e.count := by
  induction hsteps with
  | zero => exact hpos
  | succ hstep _ ih => exact ih (hstep.count_pos hpos)

theorem Steps.total_add (hsteps : Steps n a b)
    (hpos : ∀ x e, a.heap.get? x = some e → 1 ≤ e.count) :
    b.heap.total + n = a.heap.total := by
  induction hsteps with
  | zero => rfl
  | succ hstep _ ih =>
      have hfirst := hstep.total_add hpos
      have hrest := ih (hstep.count_pos hpos)
      omega

/-- What remains to be done at a later stage leads to the same end. -/
theorem Steps.releaseAll_eq (hsteps : Steps n a b) :
    Heap.releaseAll a.stack a.heap = Heap.releaseAll b.stack b.heap := by
  induction hsteps with
  | zero => rfl
  | succ hstep _ ih => exact hstep.releaseAll_eq.trans ih

/-- A step can be made unless the stack is empty or its next handle dangles. -/
theorem exists_step_or (a : Stage) : (∃ b, Step a b) ∨ a.Done ∨ ∃ h, a.StuckAt h := by
  obtain ⟨stack, s⟩ := a
  cases stack with
  | nil => exact Or.inr (Or.inl rfl)
  | cons h rest =>
      cases he : s.get? h with
      | none => exact Or.inr (Or.inr ⟨h, rfl, he⟩)
      | some e =>
          obtain ⟨r, owned, s', hone⟩ := Heap.exists_releaseOne he
          exact Or.inl ⟨_, .release hone⟩

/-- The steps come to an end, since each of them takes away an owner. -/
theorem exists_last (a : Stage) (hpos : ∀ x e, a.heap.get? x = some e → 1 ≤ e.count) :
    ∃ n b, Steps n a b ∧ (b.Done ∨ ∃ h, b.StuckAt h) := by
  induction htotal : a.heap.total using Nat.strongRecOn generalizing a with
  | ind k ih =>
      subst htotal
      obtain ⟨b, hstep⟩ | hlast := a.exists_step_or
      · have hlt : b.heap.total < a.heap.total := by
          have := hstep.total_add hpos
          omega
        obtain ⟨n, c, hsteps, hlast⟩ := ih _ hlt b (hstep.count_pos hpos) rfl
        exact ⟨n + 1, c, .succ hstep hsteps, hlast⟩
      · exact ⟨0, a, .zero, hlast⟩

theorem Done.releaseAll_eq (hdone : a.Done) : Heap.releaseAll a.stack a.heap = .ok () a.heap := by
  rw [hdone, Heap.releaseAll]

theorem StuckAt.releaseAll_eq (hstuck : a.StuckAt h) :
    Heap.releaseAll a.stack a.heap = .error (.danglingHandle h.index) a.heap := by
  obtain ⟨stack, s⟩ := a
  obtain ⟨hhead, hdead⟩ := hstuck
  obtain ⟨rest, rfl⟩ : ∃ rest, stack = h :: rest := List.head?_eq_some_iff.1 hhead
  have hone := Heap.releaseOne_of_dead hdead
  rw [Heap.releaseAll]
  split
  next hone' =>
    cases hone.symm.trans hone'
    rfl
  next hone' => cases hone.symm.trans hone'

end Stage

/-! ## The whole release -/

namespace Heap

/-- A release is the work on a stack that has its handle alone. -/
theorem release_cases (h : Handle) (s : Heap) :
    (∃ r s', release h s = .ok r s' ∧ releaseAll [h] s = .ok () s') ∨
      ∃ f s', release h s = .error f s' ∧ releaseAll [h] s = .error f s' := by
  cases hr : release h s with
  | ok r s' => exact Or.inl ⟨r, s', rfl, releaseAll_of_release hr⟩
  | error f s' =>
      refine Or.inr ⟨f, s', rfl, ?_⟩
      unfold release at hr
      rw [releaseAll]
      split at hr
      next hone =>
        split
        next hone' =>
          cases hone.symm.trans hone'
          cases hr
          rfl
        next hone' => cases hone.symm.trans hone'
      next hone =>
        split
        next hone' => cases hone.symm.trans hone'
        next hone' =>
          cases hone.symm.trans hone'
          rw [List.append_nil]
          split at hr
          · cases hr
          next hall =>
            cases hr
            exact hall

/-- On every heap whose live objects have owners a release comes to an end. Each step takes
away exactly one of the owners of all live objects together, so there are no more steps than
owners, whatever the objects refer to. The release succeeds once the stack is empty, and a
dead handle that is met ends it with a fault. -/
theorem release_ends (s : Heap) (h : Handle)
    (hpos : ∀ x e, s.get? x = some e → 1 ≤ e.count) :
    (∀ n stage, Stage.Steps n ⟨[h], s⟩ stage → stage.heap.total + n = s.total ∧
      ∀ next, stage.Step next → next.heap.total + 1 = stage.heap.total) ∧
    (∃ n stage, Stage.Steps n ⟨[h], s⟩ stage ∧ (stage.Done ∨ ∃ x, stage.StuckAt x)) ∧
    (∀ n stage, Stage.Steps n ⟨[h], s⟩ stage → stage.Done →
      ∃ r, release h s = .ok r stage.heap) ∧
    ∀ n stage x, Stage.Steps n ⟨[h], s⟩ stage → stage.StuckAt x →
      release h s = .error (.danglingHandle x.index) stage.heap := by
  refine ⟨?_, Stage.exists_last _ hpos, ?_, ?_⟩
  · intro n stage hsteps
    exact ⟨hsteps.total_add hpos, fun next hstep => hstep.total_add (hsteps.count_pos hpos)⟩
  · intro n stage hsteps hdone
    have hall := hsteps.releaseAll_eq.trans hdone.releaseAll_eq
    obtain ⟨r, s', hr, hall'⟩ | ⟨f, s', -, hall'⟩ := release_cases h s
    · cases hall.symm.trans hall'
      exact ⟨r, hr⟩
    · cases hall.symm.trans hall'
  · intro n stage x hsteps hstuck
    have hall := hsteps.releaseAll_eq.trans hstuck.releaseAll_eq
    obtain ⟨r, s', -, hall'⟩ | ⟨f, s', hr, hall'⟩ := release_cases h s
    · cases hall.symm.trans hall'
    · cases hall.symm.trans hall'
      exact hr

/-- Two objects that refer to each other, one of them also to itself, with fewer owners than
handles. -/
def overReleased : Heap where
  slots :=
    [⟨0, some ⟨1, .classInstance "Node" [("self", .object ⟨0, 0⟩), ("next", .object ⟨1, 5⟩)]⟩⟩,
     ⟨5, some ⟨2, .array [.object ⟨0, 0⟩, .object ⟨1, 5⟩]⟩⟩]
  free := []

/-- The first object is destroyed and the second loses an owner, before the handle of the first
to itself is met. -/
theorem release_ends_overReleased :
    (∀ x e, overReleased.get? x = some e → 1 ≤ e.count) ∧ overReleased.total = 3 ∧
    ∃ stage, Stage.Steps 2 ⟨[⟨0, 0⟩], overReleased⟩ stage ∧ stage.StuckAt ⟨0, 0⟩ ∧
      stage.heap.total = 1 ∧
      release ⟨0, 0⟩ overReleased = .error (.danglingHandle 0) stage.heap := by
  have hpos : ∀ x e, overReleased.get? x = some e → 1 ≤ e.count := by
    intro x e he
    have hmem := List.mem_of_getElem? (exists_slot_of_get? he)
    simp only [overReleased, List.mem_cons, List.not_mem_nil, Slot.mk.injEq, Option.some.injEq,
      or_false] at hmem
    obtain ⟨-, rfl⟩ | ⟨-, rfl⟩ := hmem <;> decide
  obtain ⟨hlower, -, -, hfault⟩ := release_ends overReleased ⟨0, 0⟩ hpos
  have hsteps : ∃ stage, Stage.Steps 2 ⟨[⟨0, 0⟩], overReleased⟩ stage ∧
      stage.StuckAt ⟨0, 0⟩ :=
    ⟨_, .succ (.release rfl) (.succ (.release rfl) .zero), rfl, rfl⟩
  obtain ⟨stage, hsteps, hstuck⟩ := hsteps
  have htotal : overReleased.total = 3 := rfl
  have hleft := (hlower 2 stage hsteps).1
  exact ⟨hpos, htotal, stage, hsteps, hstuck, by omega, hfault 2 stage ⟨0, 0⟩ hsteps hstuck⟩

end Heap

end ProgramSafety
