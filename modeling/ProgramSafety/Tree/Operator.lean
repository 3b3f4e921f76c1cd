import ProgramSafety.Number.Cast

/-!
# Operators

The operators of expressions and, for the arithmetic ones, the integer operation
they perform.
-/

namespace ProgramSafety

inductive UnaryOp where
  | neg | not
deriving DecidableEq, Repr

inductive BinaryOp where
  | add | sub | mul | div | rem
  | eq | ne | lt | gt | le | ge
  | and | or
deriving DecidableEq, Repr

namespace BinaryOp

def all : List BinaryOp := [add, sub, mul, div, rem, eq, ne, lt, gt, le, ge, and, or]

def symbol : BinaryOp → String
  | add => "+"
  | sub => "-"
  | mul => "*"
  | div => "/"
  | rem => "%"
  | eq => "=="
  | ne => "!="
  | lt => "<"
  | gt => ">"
  | le => "<="
  | ge => ">="
  | and => "and"
  | or => "or"

def intOp? : BinaryOp → Option IntOp
  | add => some .add
  | sub => some .sub
  | mul => some .mul
  | div => some .div
  | rem => some .rem
  | _ => none

def isArithmetic (op : BinaryOp) : Bool := op.intOp?.isSome

def ofSymbol? (s : String) : Option BinaryOp := all.find? (·.symbol == s)

end BinaryOp

/-- Whether an arithmetic operation faults or wraps when it leaves its type. -/
inductive ArithMode where
  | checked | wrapping
deriving DecidableEq, Repr

def ArithMode.apply : ArithMode → IntType → IntOp → Int → Int → Except Fault Int
  | checked => IntType.checked
  | wrapping => IntType.wrapping

end ProgramSafety
