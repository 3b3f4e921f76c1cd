import ProgramSafety.Number.Arithmetic

/-!
# Numeric casts

Four ways from a number to a numeric type. The fallible and the asserting form
share the test whether the number is representable and differ in what happens
when it is not; the truncating and the saturating form always give a number.
-/

namespace ProgramSafety

inductive CastForm where
  | fallible | asserting | truncating | saturating
deriving DecidableEq, Repr

def CastForm.keyword : CastForm → String
  | fallible => "as?"
  | asserting => "as!"
  | truncating => "as truncated"
  | saturating => "as saturated"

def CastForm.ofKeyword? : String → Option CastForm
  | "as?" => some fallible
  | "as!" => some asserting
  | "as truncated" => some truncating
  | "as saturated" => some saturating
  | _ => none

namespace Scalar

/-- The number as a number of the target type when it is representable there.
An integer must be in range, or survive the way into the float type and back; a
float must be integral and in range, or not larger than the greatest number of
the float type, rounding of the mantissa being accepted. NaN and the infinities
belong to every float type. -/
def convert? : Scalar → NumericType → Option Scalar
  | int v, .int t => if v ∈ t then some (int v) else none
  | float x, .int t => if x.isIntegral ∧ x.toWide ∈ t then some (int x.toWide) else none
  | int v, .float t =>
    let x := t.round (Binary64.ofInt v)
    if x.toWide = v then some (float x) else none
  | float x, .float t => if x.exceeds t.format then none else some (float (t.round x))

def assertCast (s : Scalar) (t : NumericType) : Except Fault Scalar :=
  match s.convert? t with
  | some r => .ok r
  | none => .error (.castFailed s t)

/-- The truncating cast keeps the low bits of the integer part. -/
def truncate : Scalar → NumericType → Scalar
  | int v, .int t => int (t.wrap v)
  | float x, .int t => int (t.wrap x.toWide)
  | int v, .float t => float (t.round (Binary64.ofInt v))
  | float x, .float t => float (t.round x)

def saturate : Scalar → NumericType → Scalar
  | int v, .int t => int (t.clamp v)
  | float x, .int t => int (t.clamp x.toWide)
  | int v, .float t => float (t.round (Binary64.ofInt v))
  | float x, .float t => float (t.round (x.clamp t.format))

end Scalar

/-- What a cast has to verify when it runs. -/
inductive CastCheck where
  | unchecked | range | convert
deriving DecidableEq, Repr

/-- Every value of `source` is representable in `target` for a reason that the two
types alone show. -/
def NumericType.Embeds : NumericType → NumericType → Prop
  | .int a, .int b => b.Covers a
  | .int a, .float .f64 => a.bits ≤ 32
  | .int a, .float .f32 => a.bits ≤ 16
  | .float .f32, .float _ => True
  | .float .f64, .float .f64 => True
  | .float .f64, .float .f32 => False
  | .float _, .int _ => False

instance : DecidableRel NumericType.Embeds := fun a b => by
  unfold NumericType.Embeds
  split <;> infer_instance

/-- The check a fallible or asserting cast between two numeric types needs.
Without elision every such cast is checked. -/
def CastCheck.between (source target : NumericType) (elide : Bool) : CastCheck :=
  if elide ∧ source.Embeds target then .unchecked
  else
    match source, target with
    | .int _, .int _ => .range
    | _, _ => .convert

end ProgramSafety
