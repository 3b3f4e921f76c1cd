import ProgramSafety.Number.IntType
import ProgramSafety.Number.Decimal

/-!
# Numeric types and scalars

The float types beside the integer types, and the untyped numbers that
arithmetic and casts work on.
-/

namespace ProgramSafety

inductive FloatType where
  | f32 | f64
deriving DecidableEq, Repr

namespace FloatType

def format : FloatType → Format
  | f32 => .single
  | f64 => .double

def name : FloatType → String
  | f32 => "f32"
  | f64 => "f64"

def ofName? : String → Option FloatType
  | "f32" => some f32
  | "f64" => some f64
  | _ => none

theorem ofName?_name (t : FloatType) : ofName? t.name = some t := by
  cases t <;> rfl

def greatest (t : FloatType) : Binary64 := t.format.greatest false

def round : FloatType → Binary64 → Binary64
  | f32, x => x.toSingle
  | f64, x => x

end FloatType

inductive NumericType where
  | int (t : IntType)
  | float (t : FloatType)
deriving DecidableEq, Repr

namespace NumericType

def name : NumericType → String
  | int t => t.name
  | float t => t.name

def ofName? (s : String) : Option NumericType :=
  match IntType.ofName? s with
  | some t => some (int t)
  | none => (FloatType.ofName? s).map float

theorem ofName?_name (t : NumericType) : ofName? t.name = some t := by
  cases t with
  | int t => cases t <;> rfl
  | float t => cases t <;> rfl

end NumericType

/-- A number apart from its type. -/
inductive Scalar where
  | int (v : Int)
  | float (x : Binary64)
deriving DecidableEq, Repr

namespace Scalar

def text : Scalar → String
  | int v => toString v
  | float x => Decimal.text x

/-- Numerical equality within integers and within floats. -/
def same : Scalar → Scalar → Bool
  | int v, int w => v == w
  | float x, float y => x.same y
  | _, _ => false

end Scalar

end ProgramSafety
