import ProgramSafety.Store.Heap

/-!
# Releasing

Giving up an owner of an object. The last owner's release destroys the object
and gives up, in turn, everything the object owned. The work still to do is a
stack of handles, so the object reached last is emptied first. Every step takes
one owner or one object off the heap (`Heap.weight`), which is why the cascade
ends whatever the objects refer to.
-/

namespace ProgramSafety

inductive Released where
  | alive (count : Nat)
  | destroyed
deriving DecidableEq, Repr

def Slot.weight (slot : Slot) : Nat :=
  match slot.entry with
  | some e => e.count + 1
  | none => 0

namespace Heap

/-- The owners and the live objects of the heap, counted together. -/
def weight (s : Heap) : Nat := s.slots.foldr (fun slot n => slot.weight + n) 0

/-- Empties the slot of a handle and moves its generation on. -/
def vacate (s : Heap) (h : Handle) : Heap :=
  { slots := s.slots.set h.index ⟨h.generation + 1, none⟩, free := h.index :: s.free }

/-- Gives up one owner of an object. The handles that a destroyed object owned
are returned, still to be released. -/
def releaseOne (h : Handle) : HeapM (Released × List Handle) := fun s =>
  match s.get? h with
  | none => .error (.danglingHandle h.index) s
  | some e =>
    if 1 < e.count then
      .ok (.alive (e.count - 1), []) (s.setEntry h { e with count := e.count - 1 })
    else .ok (.destroyed, e.object.handles) (s.vacate h)

theorem foldr_set_lt {slots : List Slot} {i : Nat} {old new : Slot}
    (hold : slots[i]? = some old) (hlt : new.weight < old.weight) :
    (slots.set i new).foldr (fun slot n => slot.weight + n) 0 <
      slots.foldr (fun slot n => slot.weight + n) 0 := by
  induction slots generalizing i with
  | nil => simp at hold
  | cons slot slots ih =>
    cases i with
    | zero =>
      simp only [List.getElem?_cons_zero, Option.some.injEq] at hold
      subst hold
      simp only [List.set_cons_zero, List.foldr_cons]
      omega
    | succ i =>
      have := ih (by simpa using hold)
      simp only [List.set_cons_succ, List.foldr_cons]
      omega

theorem exists_slot_of_get? {s : Heap} {h : Handle} {e : Entry} (he : s.get? h = some e) :
    s.slots[h.index]? = some ⟨h.generation, some e⟩ := by
  unfold get? at he
  split at he
  · next slot hslot =>
    split at he
    · next hgen =>
      obtain ⟨generation, entry⟩ := slot
      simp_all
    · simp at he
  · simp at he

theorem weight_releaseOne_lt {s s' : Heap} {h : Handle} {r : Released × List Handle}
    (hr : releaseOne h s = .ok r s') : s'.weight < s.weight := by
  unfold releaseOne at hr
  split at hr
  · simp at hr
  · next e he =>
    have hslot := exists_slot_of_get? he
    split at hr
    · next hcount =>
      obtain ⟨-, rfl⟩ := by simpa using hr
      exact foldr_set_lt hslot (by simp only [Slot.weight]; omega)
    · obtain ⟨-, rfl⟩ := by simpa using hr
      exact foldr_set_lt hslot (by simp [Slot.weight])

/-- Releases the handles on the stack and whatever their destruction sets free,
stopping at the first handle that dangles. -/
def releaseAll (stack : List Handle) : HeapM Unit := fun s =>
  match stack with
  | [] => .ok () s
  | h :: rest =>
    match _hr : releaseOne h s with
    | .error f s' => .error f s'
    | .ok (_, owned) s' => releaseAll (owned.reverse ++ rest) s'
termination_by s => s.weight
decreasing_by exact weight_releaseOne_lt _hr

/-- Gives up an owner of an object, with everything that hangs on it. -/
def release (h : Handle) : HeapM Released := fun s =>
  match releaseOne h s with
  | .error f s' => .error f s'
  | .ok (r, owned) s' =>
    match releaseAll owned.reverse s' with
    | .ok _ s'' => .ok r s''
    | .error f s'' => .error f s''

def releaseEach : List Handle → HeapM Unit
  | [] => fun s => .ok () s
  | h :: hs => fun s =>
    match release h s with
    | .ok _ s' => releaseEach hs s'
    | .error f s' => .error f s'

def drop (v : Value) : HeapM Unit := releaseEach v.handles

def retainEach : List Handle → HeapM Unit
  | [] => fun s => .ok () s
  | h :: hs => fun s =>
    match retain h s with
    | .ok _ s' => retainEach hs s'
    | .error f s' => .error f s'

/-- Copies a value, its handles becoming owners of their own. Nothing is retained
unless every handle of the value is alive. -/
def copy (v : Value) : HeapM Value := fun s =>
  match v.handles.find? (!s.isAlive ·) with
  | some h => .error (.danglingHandle h.index) s
  | none =>
    match retainEach v.handles s with
    | .ok _ s' => .ok v s'
    | .error f s' => .error f s'

end Heap

end ProgramSafety
