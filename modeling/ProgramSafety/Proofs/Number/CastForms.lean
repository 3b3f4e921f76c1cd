import Mathlib.Data.List.TFAE
import ProgramSafety.Proofs.Number.Modular

/-!
# The cast forms agree

Between integer types the four cast forms are written independently of each other: two of
them test the range, one keeps low bits and one clamps. They agree on the values of the
target type, which all of them leave as they are, and nowhere else does any of them give
the number back (`Scalar.intCasts_agree`).

Out of range the truncating form gives the value with the same residue and the saturating
form the nearest value. A truncation to a type that is at least as wide loses nothing that
the next truncation would have kept.
-/

namespace ProgramSafety

namespace IntType

variable {s t : IntType} {v w : Int}

/-! ## Clamping -/

/-- Among the values of the type, `w` is closer to `v` than any other. -/
def Nearest (t : IntType) (v w : Int) : Prop :=
  w ∈ t ∧ ∀ u ∈ t, u ≠ w → |v - w| < |v - u|

theorem clamp_eq_self_iff : t.clamp v = v ↔ v ∈ t :=
  ⟨fun h => h ▸ t.clamp_mem v, clamp_of_mem⟩

theorem clamp_le_clamp (t : IntType) (h : v ≤ w) : t.clamp v ≤ t.clamp w := by
  have hrange := t.min_le_max
  unfold clamp
  split_ifs <;> omega

theorem nearest_clamp (t : IntType) (v : Int) : t.Nearest v (t.clamp v) := by
  refine ⟨t.clamp_mem v, fun u hu hne => ?_⟩
  obtain ⟨hlo, hhi⟩ := hu
  have hrange := t.min_le_max
  unfold clamp at hne ⊢
  split_ifs at hne ⊢ with hbelow habove
  · rw [abs_of_nonpos (by omega), abs_of_nonpos (by omega)]
    omega
  · rw [abs_of_nonneg (by omega), abs_of_nonneg (by omega)]
    omega
  · rw [sub_self, abs_zero, abs_pos]
    omega

/-! ## Reducing twice -/

/-- Reducing to a wider type first makes no difference. -/
theorem wrap_wrap (h : t.bits ≤ s.bits) (v : Int) : t.wrap (s.wrap v) = t.wrap v :=
  wrap_congr ((s.wrap_modEq v).of_dvd (pow_dvd_pow 2 h))

end IntType

namespace Scalar

open List (TFAE)

variable {s t : IntType} {v : Int}

theorem convert?_int_eq_some_iff : (int v).convert? (.int t) = some (int v) ↔ v ∈ t := by
  simp [convert?]

theorem convert?_int_of_notMem (hv : v ∉ t) : (int v).convert? (.int t) = none := by
  simp [convert?, hv]

theorem assertCast_eq_ok_iff {x y : Scalar} {target : NumericType} :
    x.assertCast target = .ok y ↔ x.convert? target = some y := by
  rw [assertCast]
  cases x.convert? target <;> simp

theorem assertCast_of_convert?_eq_none {x : Scalar} {target : NumericType}
    (hx : x.convert? target = none) : x.assertCast target = .error (.castFailed x target) := by
  rw [assertCast, hx]

theorem saturate_int_eq_self_iff : (int v).saturate (.int t) = int v ↔ v ∈ t := by
  rw [saturate, int.injEq, IntType.clamp_eq_self_iff]

theorem truncate_int_eq_self_iff : (int v).truncate (.int t) = int v ↔ v ∈ t := by
  rw [truncate, int.injEq, IntType.wrap_eq_self_iff]

theorem truncate_truncate (h : t.bits ≤ s.bits) (v : Int) :
    ((int v).truncate (.int s)).truncate (.int t) = (int v).truncate (.int t) := by
  rw [truncate, truncate, truncate, IntType.wrap_wrap h]

/-- All four cast forms give an integer back exactly if the target type has it. Where it
has not, the fallible form gives nothing, the asserting form faults, the truncating form
gives some value of the type and the saturating form the nearest one. Saturation keeps the
order of numbers. A truncation to a type at least as wide may be left out before another,
so the way through a type of the same width, as the one of the other signedness, and back
loses nothing. -/
theorem intCasts_agree (s t : IntType) :
    (∀ v, TFAE [v ∈ t, (int v).convert? (.int t) = some (int v),
      (int v).assertCast (.int t) = .ok (int v), (int v).saturate (.int t) = int v,
      (int v).truncate (.int t) = int v]) ∧
    (∀ v, v ∉ t → (int v).convert? (.int t) = none ∧
      (int v).assertCast (.int t) = .error (.castFailed (int v) (.int t))) ∧
    (∀ v, ∃ w, (int v).saturate (.int t) = int w ∧ t.Nearest v w) ∧
    (∀ v, ∃ w ∈ t, (int v).truncate (.int t) = int w) ∧
    (∀ v v' w w', v ≤ v' → (int v).saturate (.int t) = int w →
      (int v').saturate (.int t) = int w' → w ≤ w') ∧
    (t.bits ≤ s.bits → ∀ v,
      ((int v).truncate (.int s)).truncate (.int t) = (int v).truncate (.int t)) ∧
    (s.bits = t.bits → ∀ v, v ∈ t →
      ((int v).truncate (.int s)).truncate (.int t) = int v) := by
  refine ⟨fun v => ?_, fun v hv => ?_, fun v => ?_, fun v => ?_, ?_, truncate_truncate, ?_⟩
  · tfae_have 2 ↔ 1 := convert?_int_eq_some_iff
    tfae_have 3 ↔ 2 := assertCast_eq_ok_iff
    tfae_have 4 ↔ 1 := saturate_int_eq_self_iff
    tfae_have 5 ↔ 1 := truncate_int_eq_self_iff
    tfae_finish
  · have hnone := convert?_int_of_notMem hv
    exact ⟨hnone, assertCast_of_convert?_eq_none hnone⟩
  · exact ⟨t.clamp v, rfl, t.nearest_clamp v⟩
  · exact ⟨t.wrap v, t.wrap_mem v, rfl⟩
  · rintro v v' w w' hle ⟨⟩ ⟨⟩
    exact t.clamp_le_clamp hle
  · intro hbits v hv
    rw [truncate_truncate (Nat.le_of_eq hbits.symm), truncate_int_eq_self_iff]
    exact hv

/-- Beyond the greatest `i8`, and the way of a negative `i8` through `u8`. -/
theorem intCasts_agree_bytes :
    (int 300).assertCast (.int .i8) = .error (.castFailed (int 300) (.int .i8)) ∧
    (∃ w, (int 300).saturate (.int .i8) = int w ∧ IntType.i8.Nearest 300 w) ∧
    ((int 300).truncate (.int .u8)).truncate (.int .i8) = (int 300).truncate (.int .i8) ∧
    ((int (-56)).truncate (.int .u8)).truncate (.int .i8) = int (-56) := by
  obtain ⟨-, hmisfit, hnearest, -, -, hnarrow, hround⟩ := intCasts_agree .u8 .i8
  exact ⟨(hmisfit 300 (by decide)).2, hnearest 300, hnarrow (by decide) 300,
    hround (by decide) (-56) (by decide)⟩

end Scalar

end ProgramSafety
