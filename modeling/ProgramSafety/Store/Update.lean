import ProgramSafety.Store.Release

/-!
# Writing into objects

Overwriting a field or an item hands the new value's handles over to the object
and ends the lifetime of the value that was there.
-/

namespace ProgramSafety.Heap

/-- The fields with the first one of the given name overwritten, together with
the value it held. -/
def replaceField (name : String) (v : Value) :
    List (String × Value) → Option (Value × List (String × Value))
  | [] => none
  | (n, old) :: fs =>
    if n = name then some (old, (n, v) :: fs)
    else (replaceField name v fs).map fun (old', fs') => (old', (n, old) :: fs')

def setField (h : Handle) (name : String) (v : Value) : HeapM Unit := fun s =>
  match s.get? h with
  | none => .error (.danglingHandle h.index) s
  | some e =>
    match e.object with
    | .array _ => .error (.kindMismatch .classInstance) s
    | .classInstance c fields =>
      match replaceField name v fields with
      | none => .error (.unknownField name) s
      | some (old, fields') =>
        drop old (s.setEntry h { e with object := .classInstance c fields' })

def setElement (h : Handle) (index : Int) (v : Value) : HeapM Unit := fun s =>
  match s.get? h with
  | none => .error (.danglingHandle h.index) s
  | some e =>
    match e.object with
    | .classInstance .. => .error (.kindMismatch .array) s
    | .array items =>
      match checkIndex index items.length with
      | .error f => .error f s
      | .ok i =>
        match items[i]? with
        | none => .error (.outOfBounds index items.length) s
        | some old => drop old (s.setEntry h { e with object := .array (items.set i v) })

def push (h : Handle) (v : Value) : HeapM Unit := fun s =>
  match s.get? h with
  | none => .error (.danglingHandle h.index) s
  | some e =>
    match e.object with
    | .classInstance .. => .error (.kindMismatch .array) s
    | .array items => .ok () (s.setEntry h { e with object := .array (items ++ [v]) })

end ProgramSafety.Heap
