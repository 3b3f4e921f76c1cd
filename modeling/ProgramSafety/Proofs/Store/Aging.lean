import ProgramSafety.Proofs.Store.Client

/-!
# Heaps that age

What the operations of a heap do to its slots, allocation apart. Nobody has to be
disciplined here: handles may be released too often or stored after their object is
gone, and an operation that faults may have done half of its work.

`Slot.Ages` says what can happen to a slot while nothing is placed in it. It is
transitive, so it describes a whole cascade of releases as well as one of them, and
an operation destroys at most one object of a slot. Every operation that allocates
nothing ages the heap, however it ends (`HeapM.PlacesNothing`).
-/

namespace ProgramSafety

/-- What can happen to a slot while no object is placed: its object stays, with
any count and contents, or it is destroyed. -/
inductive Slot.Ages : Slot → Slot → Prop where
  | keeps {g : UInt32} {e e' : Option Entry} (h : e'.isSome = e.isSome) : Ages ⟨g, e⟩ ⟨g, e'⟩
  | loses {g : UInt32} {e : Entry} : Ages ⟨g, some e⟩ ⟨g + 1, none⟩

namespace Slot.Ages

variable {a b c : Slot}

theorem refl (a : Slot) : a.Ages a := .keeps rfl

theorem trans (hab : a.Ages b) (hbc : b.Ages c) : a.Ages c := by
  cases hab with
  | @keeps g e e' h =>
      cases hbc with
      | keeps h' => exact .keeps (h'.trans h)
      | loses =>
          obtain ⟨e, rfl⟩ := Option.isSome_iff_exists.1 h.symm
          exact .loses
  | loses =>
      -- an emptied slot is not emptied again
      cases hbc with
      | @keeps g e e' h =>
          obtain rfl : e' = none := Option.not_isSome_iff_eq_none.1 (by simp [h])
          exact .loses

/-- The generation moves on exactly when the slot is emptied. -/
theorem generation_eq (hab : a.Ages b) :
    b.generation = a.generation + if a.entry.isSome && !b.entry.isSome then 1 else 0 := by
  cases hab with
  | @keeps g e e' h => cases e <;> simp_all
  | loses => simp

end Slot.Ages

/-- The heap that a computation leaves behind, also when it faults. -/
def HeapM.after {α : Type} (m : HeapM α) (s : Heap) : Heap :=
  match m s with
  | .ok _ s' => s'
  | .error _ s' => s'

namespace Heap

structure Ages (s s' : Heap) : Prop where
  freeListed : s.FreeListed → s'.FreeListed
  slots : ∀ (i : ℕ) (slot : Slot), s.slots[i]? = some slot →
    ∃ slot', s'.slots[i]? = some slot' ∧ slot.Ages slot'

variable {s s' s'' : Heap} {h : Handle} {e e' : Entry} {i : ℕ}

/-! ## Heaps without placements -/

theorem Ages.refl (s : Heap) : s.Ages s := ⟨id, fun _ slot hslot => ⟨slot, hslot, .refl slot⟩⟩

theorem Ages.trans (h₁ : s.Ages s') (h₂ : s'.Ages s'') : s.Ages s'' := by
  refine ⟨h₂.freeListed ∘ h₁.freeListed, fun i slot hslot => ?_⟩
  obtain ⟨slot', hslot', hages⟩ := h₁.slots i slot hslot
  obtain ⟨slot'', hslot'', hages'⟩ := h₂.slots i slot' hslot'
  exact ⟨slot'', hslot'', hages.trans hages'⟩

theorem ages_set {old new : Slot} {free : List ℕ} (hold : s.slots[i]? = some old)
    (hnew : old.Ages new) (hf : s.FreeListed → (Heap.mk (s.slots.set i new) free).FreeListed) :
    s.Ages ⟨s.slots.set i new, free⟩ := by
  refine ⟨hf, fun j slot hslot => ?_⟩
  by_cases hij : i = j
  · subst hij
    obtain rfl : old = slot := Option.some.inj (hold.symm.trans hslot)
    have hlt := (List.getElem?_eq_some_iff.1 hold).1
    exact ⟨new, by simp [hlt], hnew⟩
  · exact ⟨slot, by simpa [List.getElem?_set_ne hij] using hslot, .refl slot⟩

theorem ages_setEntry (he : s.get? h = some e) : s.Ages (s.setEntry h e') :=
  ages_set (exists_slot_of_get? he) (.keeps rfl) fun hf => hf.setEntry he

theorem ages_vacate (he : s.get? h = some e) : s.Ages (s.vacate h) :=
  ages_set (exists_slot_of_get? he) .loses fun hf => hf.vacate he

end Heap

namespace HeapM

def PlacesNothing {α : Type} (m : HeapM α) : Prop := ∀ s : Heap, s.Ages (after m s)

variable {α β : Type} {m : HeapM α} {s s' : Heap}

theorem PlacesNothing.of_ok {a : α} (hm : PlacesNothing m) (h : m s = .ok a s') : s.Ages s' := by
  simpa only [after, h] using hm s

theorem PlacesNothing.of_error {f : Fault} (hm : PlacesNothing m) (h : m s = .error f s') :
    s.Ages s' := by
  simpa only [after, h] using hm s

theorem after_map (f : α → β) (m : HeapM α) (s : Heap) : after (f <$> m) s = after m s := by
  cases h : m s with
  | ok a s' => simp only [after, h, HeapM.map_ok f h]
  | error x s' => simp only [after, h, HeapM.map_error f h]

theorem PlacesNothing.map (f : α → β) (hm : PlacesNothing m) : PlacesNothing (f <$> m) := by
  intro s
  rw [after_map]
  exact hm s

end HeapM

namespace Heap

open HeapM

variable {s s' : Heap} {h : Handle} {hs : List Handle} {v : Value}

theorem placesNothing_retain : PlacesNothing (retain h) := by
  intro s
  cases he : s.get? h with
  | none =>
      simp only [after, retain, he]
      exact .refl s
  | some e =>
      simp only [after, retain, he]
      exact ages_setEntry he

theorem placesNothing_releaseOne : PlacesNothing (releaseOne h) := by
  intro s
  cases he : s.get? h with
  | none =>
      simp only [after, releaseOne, he]
      exact .refl s
  | some e =>
      by_cases hcount : 1 < e.count
      · simp only [after, releaseOne, he, if_pos hcount]
        exact ages_setEntry he
      · simp only [after, releaseOne, he, if_neg hcount]
        exact ages_vacate he

theorem placesNothing_releaseAll : PlacesNothing (releaseAll hs) := by
  intro s
  fun_induction releaseAll hs s with
  | case1 s => simpa only [after, releaseAll] using .refl s
  | case2 s h rest f s' hone =>
      have hages := placesNothing_releaseOne.of_error hone
      have hall : releaseAll (h :: rest) s = .error f s' := by
        rw [releaseAll]
        split <;> simp_all
      simpa only [after, hall] using hages
  | case3 s h rest r owned s' hone ih =>
      have hages := placesNothing_releaseOne.of_ok hone
      have hall : releaseAll (h :: rest) s = releaseAll (owned.reverse ++ rest) s' := by
        rw [releaseAll]
        split <;> simp_all
      simpa only [after, hall] using hages.trans ih

theorem placesNothing_release : PlacesNothing (release h) := by
  intro s
  cases hone : releaseOne h s with
  | error f s' =>
      simp only [after, release, hone]
      exact placesNothing_releaseOne.of_error hone
  | ok r s' =>
      have hages := placesNothing_releaseOne.of_ok hone
      cases hall : releaseAll r.2.reverse s' with
      | ok u s'' =>
          simp only [after, release, hone, hall]
          exact hages.trans (placesNothing_releaseAll.of_ok hall)
      | error f s'' =>
          simp only [after, release, hone, hall]
          exact hages.trans (placesNothing_releaseAll.of_error hall)

theorem placesNothing_releaseEach : PlacesNothing (releaseEach hs) := by
  intro s
  induction hs generalizing s with
  | nil => exact .refl s
  | cons h hs ih =>
      cases hone : release h s with
      | error f s' =>
          simp only [after, releaseEach, hone]
          exact placesNothing_release.of_error hone
      | ok r s' =>
          have hages := placesNothing_release.of_ok hone
          have heach : after (releaseEach (h :: hs)) s = after (releaseEach hs) s' := by
            simp only [after, releaseEach, hone]
          rw [heach]
          exact hages.trans (ih s')

theorem placesNothing_drop : PlacesNothing (drop v) := placesNothing_releaseEach

theorem placesNothing_retainEach : PlacesNothing (retainEach hs) := by
  intro s
  induction hs generalizing s with
  | nil => exact .refl s
  | cons h hs ih =>
      cases hone : retain h s with
      | error f s' =>
          simp only [after, retainEach, hone]
          exact placesNothing_retain.of_error hone
      | ok n s' =>
          have hages := placesNothing_retain.of_ok hone
          have heach : after (retainEach (h :: hs)) s = after (retainEach hs) s' := by
            simp only [after, retainEach, hone]
          rw [heach]
          exact hages.trans (ih s')

theorem placesNothing_copy : PlacesNothing (copy v) := by
  intro s
  obtain ⟨-, s', heach, hcopy⟩ | ⟨x, -, -, hcopy⟩ := copy_cases v s
  · simp only [after, hcopy]
    exact placesNothing_retainEach.of_ok heach
  · simp only [after, hcopy]
    exact .refl s

theorem placesNothing_upgrade (w : WeakHandle) : PlacesNothing (upgrade w) := by
  intro s
  obtain ⟨n, s', hr, hup⟩ | hup := upgrade_cases w s
  · simp only [after, hup]
    exact placesNothing_retain.of_ok hr
  · simp only [after, hup]
    exact .refl s

theorem placesNothing_readWeak (w : WeakHandle) : PlacesNothing (readWeak w) := by
  intro s
  cases hone : upgrade w s with
  | ok r s' =>
      have hages := (placesNothing_upgrade w).of_ok hone
      cases r with
      | none => simpa only [after, readWeak, hone] using hages
      | some h => simpa only [after, readWeak, hone] using hages
  | error f s' =>
      have hages := (placesNothing_upgrade w).of_error hone
      simpa only [after, readWeak, hone] using hages

/-- An overwrite is a write followed by the drop of the old value. -/
theorem ages_exchange {e e' : Entry} (he : s.get? h = some e) (old : Value) :
    s.Ages (after (drop old) (s.setEntry h e')) :=
  (ages_setEntry he).trans (placesNothing_drop _)

theorem placesNothing_setField (name : String) : PlacesNothing (setField h name v) := by
  intro s
  obtain ⟨f, hf⟩ | ⟨n, c, fields, old, fields', he, -, heq⟩ := setField_cases h name v s
  · simp only [after, setField_of_refused hf v]
    exact .refl s
  · simp only [after, heq]
    exact ages_exchange he old

theorem placesNothing_setElement (index : Int) : PlacesNothing (setElement h index v) := by
  intro s
  obtain ⟨f, hf⟩ | ⟨n, items, old, he, -, -, heq⟩ := setElement_cases h index v s
  · simp only [after, setElement_of_refused hf v]
    exact .refl s
  · simp only [after, heq]
    exact ages_exchange he old

theorem placesNothing_push : PlacesNothing (push h v) := by
  intro s
  obtain ⟨f, hf⟩ | ⟨n, items, he, heq⟩ := push_cases h v s
  · simp only [after, hf]
    exact .refl s
  · simp only [after, heq]
    exact ages_setEntry he

end Heap

end ProgramSafety
