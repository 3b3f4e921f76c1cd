import Mathlib.Data.Multiset.OrderedMonoid
import ProgramSafety.Store.Update

/-!
# The heap through its handles

How placing, replacing and removing an entry looks from outside. `Heap.get?`
is read at every handle after each of the three writes, `Heap.stored` collects
the strong handles inside live objects, and `Heap.FreeListed` says that the free
list names the empty slots. Later arguments about the heap use these equations
and do not look at slots again.
-/

namespace ProgramSafety

def Slot.handles (slot : Slot) : List Handle :=
  match slot.entry with
  | some e => e.object.handles
  | none => []

namespace Heap

def stored (s : Heap) : Multiset Handle := ↑(s.slots.flatMap Slot.handles)

/-- The free list names every empty slot once and nothing else. -/
structure FreeListed (s : Heap) : Prop where
  nodup : s.free.Nodup
  mem_iff : ∀ i, i ∈ s.free ↔ ∃ slot, s.slots[i]? = some slot ∧ slot.entry = none

variable {s : Heap} {h h' : Handle} {e e' : Entry} {o : Object}

theorem get?_eq_some_iff :
    s.get? h = some e ↔ s.slots[h.index]? = some ⟨h.generation, some e⟩ := by
  constructor
  · exact exists_slot_of_get?
  · intro hslot
    simp [get?, hslot]

theorem isAlive_iff : s.isAlive h = true ↔ ∃ e, s.get? h = some e :=
  Option.isSome_iff_exists

/-! ## Reading after a write -/

/-- A write to the slot of a live object is not seen through other handles: one
that points to the same slot carries another generation. -/
theorem get?_set_of_ne {new : Slot} {free : List ℕ} (he : s.get? h = some e)
    (hnew : new.generation = h.generation ∨ new.entry = none) (hne : h' ≠ h) :
    (Heap.mk (s.slots.set h.index new) free).get? h' = s.get? h' := by
  have hslot := exists_slot_of_get? he
  by_cases hidx : h.index = h'.index
  · have hgen : h.generation ≠ h'.generation := by
      intro hgen
      exact hne (by cases h; cases h'; simp_all)
    have hlt := (List.getElem?_eq_some_iff.1 hslot).1
    have hbefore : s.get? h' = none := by
      simp [get?, ← hidx, hslot, hgen]
    rw [hbefore]
    rcases hnew with hnew | hnew
    · simp [get?, ← hidx, hlt, hnew, hgen]
    · simp [get?, ← hidx, hlt, hnew]
  · simp [get?, List.getElem?_set_ne hidx]

theorem get?_setEntry_self (he : s.get? h = some e) :
    (s.setEntry h e').get? h = some e' := by
  have hlt := (List.getElem?_eq_some_iff.1 (exists_slot_of_get? he)).1
  rw [get?_eq_some_iff, setEntry, List.getElem?_set_self hlt]

theorem get?_setEntry_of_ne (he : s.get? h = some e) (hne : h' ≠ h) :
    (s.setEntry h e').get? h' = s.get? h' :=
  get?_set_of_ne he (Or.inl rfl) hne

theorem get?_vacate_self (he : s.get? h = some e) : (s.vacate h).get? h = none := by
  have hlt := (List.getElem?_eq_some_iff.1 (exists_slot_of_get? he)).1
  simp [get?, vacate, hlt]

theorem get?_vacate_of_ne (he : s.get? h = some e) (hne : h' ≠ h) :
    (s.vacate h).get? h' = s.get? h' :=
  get?_set_of_ne he (Or.inr rfl) hne

/-! ## Stored handles -/

theorem flatMap_handles_set {slots : List Slot} {i : ℕ} {old : Slot}
    (hold : slots[i]? = some old) (new : Slot) (x : Handle) :
    ((slots.set i new).flatMap Slot.handles).count x + old.handles.count x =
      (slots.flatMap Slot.handles).count x + new.handles.count x := by
  induction slots generalizing i with
  | nil => simp at hold
  | cons slot slots ih =>
      cases i with
      | zero =>
          obtain rfl : slot = old := by simpa using hold
          simp only [List.set_cons_zero, List.flatMap_cons, List.count_append]
          omega
      | succ i =>
          have hrest := ih (i := i) (by simpa using hold)
          simp only [List.set_cons_succ, List.flatMap_cons, List.count_append]
          omega

theorem stored_setEntry (he : s.get? h = some e) :
    (s.setEntry h e').stored + ↑e.object.handles = s.stored + ↑e'.object.handles := by
  ext x
  have hset := flatMap_handles_set (exists_slot_of_get? he) ⟨h.generation, some e'⟩ x
  simpa [stored, setEntry, Slot.handles] using hset

theorem stored_vacate (he : s.get? h = some e) :
    (s.vacate h).stored + ↑e.object.handles = s.stored := by
  ext x
  have hset := flatMap_handles_set (exists_slot_of_get? he) ⟨h.generation + 1, none⟩ x
  simpa [stored, vacate, Slot.handles] using hset

/-! ## The free list -/

theorem FreeListed.notMem (hf : s.FreeListed) (he : s.get? h = some e) : h.index ∉ s.free := by
  intro hmem
  obtain ⟨slot, hslot, hnone⟩ := (hf.mem_iff _).1 hmem
  rw [exists_slot_of_get? he] at hslot
  obtain rfl := Option.some.inj hslot
  simp at hnone

theorem FreeListed.setEntry (hf : s.FreeListed) (he : s.get? h = some e) :
    (s.setEntry h e').FreeListed := by
  have hlt := (List.getElem?_eq_some_iff.1 (exists_slot_of_get? he)).1
  refine ⟨hf.nodup, fun i => ?_⟩
  by_cases hi : h.index = i
  · subst hi
    simpa [Heap.setEntry, hlt] using hf.notMem he
  · simpa [Heap.setEntry, List.getElem?_set_ne hi] using hf.mem_iff i

theorem FreeListed.vacate (hf : s.FreeListed) (he : s.get? h = some e) :
    (s.vacate h).FreeListed := by
  have hlt := (List.getElem?_eq_some_iff.1 (exists_slot_of_get? he)).1
  refine ⟨List.nodup_cons.2 ⟨hf.notMem he, hf.nodup⟩, fun i => ?_⟩
  by_cases hi : h.index = i
  · subst hi
    simp [Heap.vacate, hlt]
  · simpa [Heap.vacate, List.getElem?_set_ne hi, Ne.symm hi] using hf.mem_iff i

/-! ## Placing an object -/

/-- An object is placed in an empty slot, under the generation of that slot, or
behind all slots. -/
theorem alloc_cases (hf : s.FreeListed) (o : Object) :
    (∃ i rest g, s.free = i :: rest ∧ s.slots[i]? = some ⟨g, none⟩ ∧
        s.alloc o = (⟨i, g⟩, ⟨s.slots.set i ⟨g, some ⟨1, o⟩⟩, rest⟩)) ∨
      (s.free = [] ∧
        s.alloc o = (⟨s.slots.length, 0⟩, { s with slots := s.slots ++ [⟨0, some ⟨1, o⟩⟩] })) := by
  cases hfree : s.free with
  | nil => exact Or.inr ⟨rfl, by simp [alloc, hfree]⟩
  | cons i rest =>
      obtain ⟨⟨g, entry⟩, hslot, rfl⟩ := (hf.mem_iff i).1 (by simp [hfree])
      exact Or.inl ⟨i, rest, g, rfl, hslot, by simp [alloc, hfree, hslot]⟩

theorem get?_alloc_before (hf : s.FreeListed) (o : Object) : s.get? (s.alloc o).1 = none := by
  obtain ⟨i, rest, g, -, hslot, halloc⟩ | ⟨-, halloc⟩ := alloc_cases hf o
  · simp [get?, halloc, hslot]
  · simp [get?, halloc]

theorem get?_alloc_self (hf : s.FreeListed) (o : Object) :
    (s.alloc o).2.get? (s.alloc o).1 = some ⟨1, o⟩ := by
  obtain ⟨i, rest, g, -, hslot, halloc⟩ | ⟨-, halloc⟩ := alloc_cases hf o
  · have hlt := (List.getElem?_eq_some_iff.1 hslot).1
    simp [get?, halloc, hlt]
  · simp [get?, halloc]

theorem get?_alloc_of_ne (hf : s.FreeListed) (o : Object) (hne : h ≠ (s.alloc o).1) :
    (s.alloc o).2.get? h = s.get? h := by
  obtain ⟨i, g⟩ := h
  obtain ⟨j, rest, g', -, hslot, halloc⟩ | ⟨-, halloc⟩ := alloc_cases hf o
  · have hlt := (List.getElem?_eq_some_iff.1 hslot).1
    rw [halloc] at hne ⊢
    by_cases hi : j = i
    · subst hi
      have hgen : g' ≠ g := by
        rintro rfl
        exact hne rfl
      have hbefore : s.get? ⟨j, g⟩ = none := by simp [get?, hslot]
      rw [hbefore]
      simp [get?, hlt, hgen]
    · simp [get?, List.getElem?_set_ne hi]
  · rw [halloc] at hne ⊢
    by_cases hi : i < s.slots.length
    · simp [get?, List.getElem?_append_left hi]
    · have hbefore : s.slots[i]? = none := List.getElem?_eq_none (by omega)
      by_cases hlast : i = s.slots.length
      · subst hlast
        have hgen : (0 : UInt32) ≠ g := by
          rintro rfl
          exact hne rfl
        simp [get?, hgen]
      · have hafter : (s.slots ++ [⟨0, some ⟨1, o⟩⟩])[i]? = none :=
          List.getElem?_eq_none (by simp; omega)
        simp [get?, hbefore, hafter]

theorem stored_alloc (hf : s.FreeListed) (o : Object) :
    (s.alloc o).2.stored = s.stored + ↑o.handles := by
  obtain ⟨i, rest, g, -, hslot, halloc⟩ | ⟨-, halloc⟩ := alloc_cases hf o
  · ext x
    have hset := flatMap_handles_set hslot ⟨g, some ⟨1, o⟩⟩ x
    simpa [stored, halloc, Slot.handles] using hset
  · simp [stored, halloc, Slot.handles]

theorem FreeListed.alloc (hf : s.FreeListed) (o : Object) : (s.alloc o).2.FreeListed := by
  obtain ⟨i, rest, g, hfree, hslot, halloc⟩ | ⟨hfree, halloc⟩ := alloc_cases hf o
  · have hlt := (List.getElem?_eq_some_iff.1 hslot).1
    have hnodup := hf.nodup
    rw [hfree, List.nodup_cons] at hnodup
    rw [halloc]
    refine ⟨hnodup.2, fun j => ?_⟩
    by_cases hj : i = j
    · subst hj
      simpa [hlt] using hnodup.1
    · have hmem := hf.mem_iff j
      rw [hfree, List.mem_cons, or_iff_right (Ne.symm hj)] at hmem
      simpa [List.getElem?_set_ne hj] using hmem
  · rw [halloc]
    refine ⟨hf.nodup, fun j => ?_⟩
    have hmem := hf.mem_iff j
    rw [hmem]
    constructor
    · rintro ⟨slot, hslot, hnone⟩
      have hlt := (List.getElem?_eq_some_iff.1 hslot).1
      exact ⟨slot, by rw [List.getElem?_append_left hlt, hslot], hnone⟩
    · rintro ⟨slot, hslot, hnone⟩
      by_cases hlt : j < s.slots.length
      · rw [List.getElem?_append_left hlt] at hslot
        exact ⟨slot, hslot, hnone⟩
      · have hslot' := List.mem_of_getElem? (by
          rw [List.getElem?_append_right (by omega)] at hslot
          exact hslot)
        obtain rfl := List.mem_singleton.1 hslot'
        simp at hnone

end Heap

end ProgramSafety
