import ProgramSafety.Number.Binary

/-!
# Decimal text of floats

A finite number is written with the fewest significant digits that read back as
the same double, always positionally. The digits come from the coarsest
power-of-ten grid that has a point reading back as the number: of the number's
two neighbours on that grid the nearer one, and of two equally near ones the
greater. All comparisons are exact.
-/

namespace ProgramSafety.Decimal

/-- Four times a magnitude `m * 2 ^ e` and the ends of the interval of reals that
round to it, over a common denominator. The ends belong to the interval when the
mantissa is even. -/
structure Neighbourhood where
  value : Nat
  low : Nat
  high : Nat
  denominator : Nat
  closed : Bool

/-- The interval around a double. Just above a power of two the lower gap is half
the upper one. -/
def neighbourhood (m : Nat) (e : Int) : Neighbourhood :=
  let scale := Nat.pow 2 (e - 2).toNat
  let lowGap := if m = Nat.pow 2 52 ∧ Format.double.minExponent < e then 1 else 2
  { value := 4 * m * scale
    low := (4 * m - lowGap) * scale
    high := (4 * m + 2) * scale
    denominator := Nat.pow 2 (2 - e).toNat
    closed := m % 2 == 0 }

def Neighbourhood.holds (n : Neighbourhood) (c : Nat) (s : Int) : Bool :=
  let point := c * Nat.pow 10 s.toNat * n.denominator
  let unit := Nat.pow 10 (-s).toNat
  if n.closed then n.low * unit ≤ point && point ≤ n.high * unit
  else n.low * unit < point && point < n.high * unit

/-- The best point of the grid of step `10 ^ s` among the two neighbours of the
value, absent when neither reads back as it. -/
def Neighbourhood.onGrid (n : Neighbourhood) (s : Int) : Option Nat :=
  let num := n.value * Nat.pow 10 (-s).toNat
  let den := n.denominator * Nat.pow 10 s.toNat
  let below := num / den
  let above := below + 1
  match n.holds below s, n.holds above s with
  | true, true => some (if 2 * (num % den) < den then below else above)
  | true, false => some below
  | false, true => some above
  | false, false => none

def gridExponents : List Int := (List.range 660).map fun (i : Nat) => 309 - (i : Int)

/-- The digits `c` and the exponent `s` of the shortest decimal `c * 10 ^ s` that
reads back as the positive number `m * 2 ^ e`. -/
def shortest (m : Nat) (e : Int) : Nat × Int :=
  let n := neighbourhood m e
  (gridExponents.findSome? fun s => (n.onGrid s).map (·, s)).getD (0, 0)

/-- The decimal `c * 10 ^ s`, written without an exponent. -/
def positional (c : Nat) (s : Int) : String :=
  let digits := Nat.toDigits 10 c
  if 0 ≤ s then String.ofList (digits ++ List.replicate s.toNat '0')
  else
    let places := (-s).toNat
    let padded := List.replicate (places + 1 - digits.length) '0' ++ digits
    let whole := padded.length - places
    String.ofList (padded.take whole ++ '.' :: padded.drop whole)

def text : Binary64 → String
  | .nan => "NaN"
  | .infinite n => if n then "-inf" else "inf"
  | .finite n m e =>
    let magnitude :=
      if m = 0 then "0"
      else
        let (c, s) := shortest m e
        positional c s
    if n then "-" ++ magnitude else magnitude

end ProgramSafety.Decimal
