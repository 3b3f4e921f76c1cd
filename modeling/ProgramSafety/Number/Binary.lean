import ProgramSafety.Number.Wide

/-!
# Binary floating-point numbers

A float is a NaN, a signed infinity or a signed number `mantissa * 2 ^ exponent`,
so all its operations are exact integer arithmetic followed by one rounding.
`Format.round` is that rounding: to the nearest number of a format, a tie going
to the even mantissa. Numbers are kept in the double format, the narrower one
being contained in it. NaNs are not told apart.
-/

namespace ProgramSafety

/-- A double-precision datum. A finite one is `mantissa * 2 ^ exponent`, negated
when `negative`; zero keeps its sign. -/
inductive Binary64 where
  | nan
  | infinite (negative : Bool)
  | finite (negative : Bool) (mantissa : Nat) (exponent : Int)
deriving DecidableEq, Repr

/-- A binary format: its numbers are `m * 2 ^ e` with `m < 2 ^ precision` and `e`
between the two exponents. -/
structure Format where
  precision : Nat
  minExponent : Int
  maxExponent : Int

namespace Format

def single : Format := ⟨24, -149, 104⟩

def double : Format := ⟨53, -1074, 971⟩

/-- The exponent a number of the magnitude of `m * 2 ^ e` has in the format. -/
def exponentOf (f : Format) (m : Nat) (e : Int) : Int :=
  if m = 0 then f.minExponent else max f.minExponent (e + (m.log2 + 1) - f.precision)

def greatest (f : Format) (negative : Bool) : Binary64 :=
  .finite negative (Nat.pow 2 f.precision - 1) f.maxExponent

end Format

/-- The integer nearest to `n / d`, a tie going to the even one. -/
def divNearest (n d : Nat) : Nat :=
  let q := n / d
  let r := n % d
  if 2 * r < d ∨ 2 * r = d ∧ q % 2 = 0 then q else q + 1

/-- The mantissa of `m * 2 ^ e` at the exponent `q`, rounded to nearest even. -/
def rescale (m : Nat) (e q : Int) : Nat :=
  if q ≤ e then m * Nat.pow 2 (e - q).toNat else divNearest m (Nat.pow 2 (q - e).toNat)

/-- The number of the format nearest to `m * 2 ^ e`, with the given sign. A
mantissa that rounds up to the next power of two moves one exponent up; beyond
the greatest exponent lies infinity. -/
def Format.round (f : Format) (negative : Bool) (m : Nat) (e : Int) : Binary64 :=
  let q := f.exponentOf m e
  let r := rescale m e q
  let (r, q) := if r = Nat.pow 2 f.precision then (Nat.pow 2 (f.precision - 1), q + 1) else (r, q)
  if f.maxExponent < q then .infinite negative else .finite negative r q

namespace Binary64

def ofInt (v : Int) : Binary64 := Format.double.round (v < 0) v.natAbs 0

def toSingle : Binary64 → Binary64
  | .finite n m e =>
    match Format.single.round n m e with
    | .finite n' m' e' => Format.double.round n' m' e'
    | x => x
  | x => x

def isIntegral : Binary64 → Bool
  | .finite _ m e => 0 ≤ e || m % Nat.pow 2 (-e).toNat == 0
  | _ => false

def integerPart (m : Nat) (e : Int) : Nat :=
  if 0 ≤ e then m * Nat.pow 2 e.toNat else m / Nat.pow 2 (-e).toNat

/-- The wide integer a datum converts to: truncated toward zero, clamped to the
word, and zero for a NaN. -/
def toWide : Binary64 → Int
  | .nan => 0
  | .infinite negative => if negative then Wide.min else Wide.max
  | .finite negative m e =>
    Wide.clamp (if negative then -(integerPart m e : Int) else integerPart m e)

def aligned (m : Nat) (e : Int) (m' : Nat) (e' : Int) : Nat × Nat :=
  (m * Nat.pow 2 (e - e').toNat, m' * Nat.pow 2 (e' - e).toNat)

def exceeds (x : Binary64) (f : Format) : Bool :=
  match x with
  | .finite _ m e =>
    let (a, b) := aligned m e (Nat.pow 2 f.precision - 1) f.maxExponent
    b < a
  | _ => false

/-- The datum brought into the finite range of the format; a NaN has no place
there and becomes zero. -/
def clamp (x : Binary64) (f : Format) : Binary64 :=
  match x with
  | .nan => .finite false 0 Format.double.minExponent
  | .infinite n => f.greatest n
  | .finite n .. => if x.exceeds f then f.greatest n else x

/-- Numerical equality: a NaN equals nothing and the two zeros are equal. -/
def same : Binary64 → Binary64 → Bool
  | .infinite n, .infinite n' => n == n'
  | .finite n m e, .finite n' m' e' =>
    let (a, b) := aligned m e m' e'
    a == b && (n == n' || a == 0)
  | _, _ => false

def ofBits (bits : UInt64) : Binary64 :=
  let b := bits.toNat
  let negative := b / Nat.pow 2 63 == 1
  let biased : Nat := b / Nat.pow 2 52 % Nat.pow 2 11
  let fraction : Nat := b % Nat.pow 2 52
  if biased = 2047 then
    if fraction = 0 then .infinite negative else .nan
  else if biased = 0 then .finite negative fraction (-1074)
  else .finite negative (Nat.pow 2 52 + fraction) ((biased : Int) - 1075)

/-- The bit pattern of a datum, the quiet one for a NaN. -/
def toBits : Binary64 → UInt64
  | .nan => 0x7ff8000000000000
  | .infinite n => (if n then 0xfff0000000000000 else 0x7ff0000000000000)
  | .finite n m e =>
    let magnitude :=
      match Format.double.round n m e with
      | .finite _ m e =>
        if m < Nat.pow 2 52 then m else (e + 1075).toNat * Nat.pow 2 52 + (m - Nat.pow 2 52)
      | _ => 2047 * Nat.pow 2 52
    UInt64.ofNat ((if n then Nat.pow 2 63 else 0) + magnitude)

end Binary64

end ProgramSafety
