import ProgramSafety.Fault

/-!
# Integer arithmetic

The checked form of an operation faults when the exact result leaves the type,
the wrapping form keeps the low bits of the exact result. Division truncates
toward zero. The result is first formed in a wide word.
-/

namespace ProgramSafety

/-- The mathematical result of an operation; negation ignores its second operand. -/
def IntOp.exact : IntOp → Int → Int → Int
  | .add, l, r => l + r
  | .sub, l, r => l - r
  | .mul, l, r => l * r
  | .div, l, r => l.tdiv r
  | .rem, l, r => l.tmod r
  | .neg, l, _ => -l

def IntOp.dividesByZero (op : IntOp) (r : Int) : Bool := op.divides && r == 0

namespace IntType

/-- The result of an operation if it is a value of the type. A remainder also
needs the quotient to be one: both come out of the same machine division. -/
def result? (t : IntType) (op : IntOp) (l r : Int) : Option Int :=
  let quotient := if op = .rem then Wide.fit? (l.tdiv r) else some 0
  match quotient, Wide.fit? (op.exact l r) with
  | some q, some v => if (op = .rem → q ∈ t) ∧ v ∈ t then some v else none
  | _, _ => none

def checked (t : IntType) (op : IntOp) (l r : Int) : Except Fault Int :=
  if op.dividesByZero r then .error (.divideByZero op t)
  else
    match t.result? op l r with
    | some v => .ok v
    | none => .error (.integerOverflow op t)

def wrapping (t : IntType) (op : IntOp) (l r : Int) : Except Fault Int :=
  if op.dividesByZero r then .error (.divideByZero op t)
  else .ok (t.wrap (Wide.wrap (op.exact l r)))

def checkedNeg (t : IntType) (v : Int) : Except Fault Int := t.checked .neg v 0

end IntType

end ProgramSafety
