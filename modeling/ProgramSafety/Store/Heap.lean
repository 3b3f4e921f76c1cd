import ProgramSafety.Store.Value

/-!
# The heap

Objects live in numbered slots and are counted by their owners. A slot carries a
generation that moves on when its object is destroyed, so that handles issued
before no longer reach whatever is stored there next. `Heap.get?` is the view
of the heap through a handle; every operation reads and writes through it.
-/

namespace ProgramSafety

inductive Object where
  | classInstance (name : String) (fields : List (String × Value))
  | array (items : List Value)

namespace Object

def contents : Object → List Value
  | classInstance _ fields => fields.map (·.2)
  | array items => items

def handles (o : Object) : List Handle := o.contents.flatMap Value.handles

end Object

/-- A live object with the number of its owners. -/
structure Entry where
  count : Nat
  object : Object

structure Slot where
  generation : UInt32
  entry : Option Entry

/-- The slots, and the empty ones among them in the order of reuse. -/
structure Heap where
  slots : List Slot
  free : List Nat

/-- A computation on a heap that may fault. A fault leaves the heap as it was at
that moment. -/
abbrev HeapM := EStateM Fault Heap

namespace Heap

def empty : Heap := ⟨[], []⟩

def get? (s : Heap) (h : Handle) : Option Entry :=
  match s.slots[h.index]? with
  | some slot => if slot.generation = h.generation then slot.entry else none
  | none => none

def isAlive (s : Heap) (h : Handle) : Bool := (s.get? h).isSome

/-- The live entry a handle reaches; a handle without one dangles. -/
def entry (s : Heap) (h : Handle) : Except Fault Entry :=
  match s.get? h with
  | some e => .ok e
  | none => .error (.danglingHandle h.index)

def setEntry (s : Heap) (h : Handle) (e : Entry) : Heap :=
  { s with slots := s.slots.set h.index ⟨h.generation, some e⟩ }

/-- Places an object with one owner, in the slot freed last or in a new one. -/
def alloc (s : Heap) (o : Object) : Handle × Heap :=
  match s.free with
  | i :: rest =>
    match s.slots[i]? with
    | some slot =>
      (⟨i, slot.generation⟩, ⟨s.slots.set i { slot with entry := some ⟨1, o⟩ }, rest⟩)
    | none => (⟨i, 0⟩, { s with free := rest })
  | [] => (⟨s.slots.length, 0⟩, { s with slots := s.slots ++ [⟨0, some ⟨1, o⟩⟩] })

def count (s : Heap) (h : Handle) : Except Fault Nat := (s.entry h).map (·.count)

def object (s : Heap) (h : Handle) : Except Fault Object := (s.entry h).map (·.object)

def retain (h : Handle) : HeapM Nat := fun s =>
  match s.get? h with
  | some e => .ok (e.count + 1) (s.setEntry h { e with count := e.count + 1 })
  | none => .error (.danglingHandle h.index) s

def downgrade (s : Heap) (h : Handle) : Except Fault WeakHandle :=
  (s.entry h).map fun _ => ⟨h⟩

/-- The observed object as a new owner, absent once it has been destroyed. -/
def upgrade (w : WeakHandle) : HeapM (Option Handle) := fun s =>
  match retain w.target s with
  | .ok _ s' => .ok (some w.target) s'
  | .error _ s' => .ok none s'

/-- Reads an observer as an optional strong reference. -/
def readWeak (w : WeakHandle) : HeapM Value := fun s =>
  match upgrade w s with
  | .ok (some h) s' => .ok (.present (.object h)) s'
  | .ok none s' => .ok .absent s'
  | .error f s' => .error f s'

def live (s : Heap) : Nat := s.slots.countP (·.entry.isSome)

def field (s : Heap) (h : Handle) (name : String) : Except Fault Value :=
  match s.entry h with
  | .error f => .error f
  | .ok e =>
    match e.object with
    | .classInstance _ fields =>
      match fields.find? (·.1 == name) with
      | some (_, v) => .ok v
      | none => .error (.unknownField name)
    | .array _ => .error (.kindMismatch .classInstance)

def items (s : Heap) (h : Handle) : Except Fault (List Value) :=
  match s.entry h with
  | .error f => .error f
  | .ok e =>
    match e.object with
    | .array items => .ok items
    | .classInstance .. => .error (.kindMismatch .array)

def length (s : Heap) (h : Handle) : Except Fault Nat := (s.items h).map List.length

def element (s : Heap) (h : Handle) (index : Int) : Except Fault Value := do
  let items ← s.items h
  let i ← checkIndex index items.length
  match items[i]? with
  | some v => .ok v
  | none => .error (.outOfBounds index items.length)

end Heap

end ProgramSafety
