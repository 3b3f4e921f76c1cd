import ProgramSafety.Fault
import ProgramSafety.Payload

/-!
# Values

Run-time values. Structs, variants and optionals hold their parts inline; class
instances and arrays live in the store and a value refers to them by a handle.
A handle is strong, and counts as an owner of the object, or weak, and only
observes it. `Value.handles` lists the strong handles a value owns.
-/

namespace ProgramSafety

/-- A reference to a slot of the store at one of the slot's generations. -/
structure Handle where
  index : Nat
  generation : UInt32
deriving DecidableEq, Repr

def Handle.text (h : Handle) : String :=
  let (index, generation) := (h.index, h.generation.toNat)
  s!"#{index}@{generation}"

/-- An observer of an object that does not keep it alive. -/
structure WeakHandle where
  target : Handle
deriving DecidableEq, Repr

inductive Value where
  | void
  | bool (b : Bool)
  | int (type : IntType) (v : Int)
  | float (type : FloatType) (x : Binary64)
  | str (s : String)
  | struct (name : String) (fields : List (String × Value))
  | object (h : Handle)
  | array (h : Handle)
  | weak (w : WeakHandle)
  | variant (enum name : String) (payload : Payload Value (String × Value))
  | absent
  | present (v : Value)

namespace Value

def int? (t : IntType) (v : Int) : Option Value := if v ∈ t then some (int t v) else none

def ofFloat (t : FloatType) (x : Binary64) : Value := float t (t.round x)

def scalar? : Value → Option Scalar
  | int _ v => some (.int v)
  | float _ x => some (.float x)
  | _ => none

def handle? : Value → Option Handle
  | object h | array h => some h
  | _ => none

mutual

/-- The strong handles a value owns, those inside its inline parts included. -/
def handles : Value → List Handle
  | object h | array h => [h]
  | struct _ fs => fieldHandles fs
  | variant _ _ (.single v) => v.handles
  | variant _ _ (.fields fs) => fieldHandles fs
  | present v => v.handles
  | _ => []

def fieldHandles : List (String × Value) → List Handle
  | [] => []
  | (_, v) :: fs => v.handles ++ fieldHandles fs

end

end Value

end ProgramSafety
