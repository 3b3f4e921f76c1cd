import ProgramSafety.Number.Scalar

/-!
# Faults

What can go wrong when a program runs. A fault ends the running program, so
operations return it instead of a result.
-/

namespace ProgramSafety

/-- The integer operations that can leave their type. -/
inductive IntOp where
  | add | sub | mul | div | rem | neg
deriving DecidableEq, Repr

namespace IntOp

def symbol : IntOp → String
  | add => "+"
  | sub => "-"
  | mul => "*"
  | div => "/"
  | rem => "%"
  | neg => "neg"

def all : List IntOp := [add, sub, mul, div, rem, neg]

def ofSymbol? (s : String) : Option IntOp := all.find? (·.symbol == s)

/-- The operations that are undefined at a zero divisor. -/
def divides : IntOp → Bool
  | div | rem => true
  | _ => false

end IntOp

inductive ObjectKind where
  | classInstance | array
deriving DecidableEq, Repr

def ObjectKind.text : ObjectKind → String
  | classInstance => "class instance"
  | array => "array"

/-- The causes for which a running program is stopped. -/
inductive Fault where
  | integerOverflow (op : IntOp) (type : IntType)
  | divideByZero (op : IntOp) (type : IntType)
  | outOfBounds (index : Int) (length : Nat)
  | castFailed (value : Scalar) (target : NumericType)
  | danglingHandle (index : Nat)
  | kindMismatch (expected : ObjectKind)
  | unknownField (field : String)
deriving DecidableEq, Repr

namespace Fault

def exitStatus : Nat := 134

def isOverflow : Fault → Bool
  | integerOverflow .. => true
  | _ => false

def message : Fault → String
  | integerOverflow op t =>
    let (symbol, name, low, high) := (op.symbol, t.name, t.min, t.max)
    s!"integer overflow: `{symbol}` on {name} produced a value outside [{low}, {high}]"
  | divideByZero op t =>
    let (symbol, name) := (op.symbol, t.name)
    s!"division by zero in `{symbol}` on {name}"
  | outOfBounds index length => s!"index {index} out of bounds for length {length}"
  | castFailed value target =>
    let (value, target) := (value.text, target.name)
    s!"cast of {value} to {target} failed"
  | danglingHandle index => s!"handle #{index} refers to a destroyed object"
  | kindMismatch expected =>
    let kind := expected.text
    s!"object kind mismatch: expected {kind}"
  | unknownField field => s!"no field named '{field}'"

/-- The stable identifier of the cause. -/
def code : Fault → String
  | integerOverflow .. => "tern::rt::integer_overflow"
  | divideByZero .. => "tern::rt::divide_by_zero"
  | outOfBounds .. => "tern::rt::bounds"
  | castFailed .. => "tern::rt::cast_failed"
  | danglingHandle .. => "tern::rt::dangling_handle"
  | kindMismatch .. => "tern::rt::kind_mismatch"
  | unknownField .. => "tern::rt::unknown_field"

def help? : Fault → Option String
  | castFailed .. => some "use `as?` to get an absent value instead of a fault"
  | _ => none

end Fault

def checkIndex (index : Int) (length : Nat) : Except Fault Nat :=
  if 0 ≤ index ∧ index < length then .ok index.toNat
  else .error (.outOfBounds index length)

end ProgramSafety
