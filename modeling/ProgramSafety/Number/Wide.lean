/-!
# Wide integers

A number is carried in a 128-bit two's complement word until it is checked
against the type it is meant for. Every integer type is narrower, so a result
that leaves the word has left its type as well; the word shows only where a
conversion into it saturates or wraps.
-/

namespace ProgramSafety.Wide

def min : Int := -Int.pow 2 127

def max : Int := Int.pow 2 127 - 1

def Fits (v : Int) : Prop := min ≤ v ∧ v ≤ max

instance (v : Int) : Decidable (Fits v) := inferInstanceAs (Decidable (_ ∧ _))

/-- The exact result of an operation, absent when it leaves the word. -/
def fit? (v : Int) : Option Int := if Fits v then some v else none

def clamp (v : Int) : Int := if v < min then min else if max < v then max else v

def wrap (v : Int) : Int := v.bmod (Nat.pow 2 128)

theorem fit?_eq_some_iff {v w : Int} : fit? v = some w ↔ Fits v ∧ v = w := by
  simp [fit?]

theorem clamp_of_fits {v : Int} (h : Fits v) : clamp v = v := by
  obtain ⟨hlo, hhi⟩ := h
  simp [clamp, Int.not_lt.mpr hlo, Int.not_lt.mpr hhi]

end ProgramSafety.Wide
