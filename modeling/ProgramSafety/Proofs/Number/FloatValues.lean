import Mathlib.Algebra.Order.Field.Rat
import Mathlib.Algebra.Order.Field.Power
import Mathlib.Tactic.Linarith
import ProgramSafety.Number.Scalar

/-!
# The numbers behind floats

A finite datum stands for a rational number, `Binary64.signed`. Several data may stand for the
same number, among them the two zeros, and comparing data compares the numbers
(`Binary64.same_finite_iff`). So the comparison is transitive, and a datum equals itself unless
it is a NaN.
-/

namespace ProgramSafety

namespace Binary64

def signed (negative : Bool) (mantissa : ℕ) (exponent : ℤ) : ℚ :=
  (if negative then -1 else 1) * (mantissa * 2 ^ exponent)

variable {m m' : ℕ} {e e' : ℤ} {n n' : Bool} {x y z : Binary64}

theorem two_zpow_add_toNat (h : e ≤ e') : (2 : ℚ) ^ e' = 2 ^ (e' - e).toNat * 2 ^ e := by
  have hexp : e' = ((e' - e).toNat : ℤ) + e := by omega
  conv_lhs => rw [hexp, zpow_add₀ (by norm_num), zpow_natCast]

/-- Mantissas at a common exponent are equal if the magnitudes are. -/
theorem aligned_eq_iff :
    (aligned m e m' e').1 = (aligned m e m' e').2 ↔ (m * 2 ^ e : ℚ) = m' * 2 ^ e' := by
  have hpos : ∀ k : ℤ, (2 : ℚ) ^ k ≠ 0 := fun k => zpow_ne_zero k (by norm_num)
  change m * 2 ^ (e - e').toNat = m' * 2 ^ (e' - e).toNat ↔ _
  rcases le_total e e' with h | h
  · have hzero : (e - e').toNat = 0 := by omega
    rw [two_zpow_add_toNat h, ← mul_assoc, mul_left_inj' (hpos e), hzero, pow_zero, mul_one]
    exact_mod_cast Iff.rfl
  · have hzero : (e' - e).toNat = 0 := by omega
    rw [two_zpow_add_toNat h, ← mul_assoc, mul_left_inj' (hpos e'), hzero, pow_zero, mul_one]
    exact_mod_cast Iff.rfl

theorem aligned_eq_zero_iff : (aligned m e m' e').1 = 0 ↔ (m * 2 ^ e : ℚ) = 0 := by
  change m * 2 ^ (e - e').toNat = 0 ↔ _
  simp [zpow_ne_zero]

theorem signed_eq_iff : signed n m e = signed n' m' e' ↔
    (m * 2 ^ e : ℚ) = m' * 2 ^ e' ∧ (n = n' ∨ (m * 2 ^ e : ℚ) = 0) := by
  have hnonneg : ∀ (m : ℕ) (e : ℤ), (0 : ℚ) ≤ m * 2 ^ e := fun m e => by positivity
  have hm := hnonneg m e
  have hm' := hnonneg m' e'
  unfold signed
  generalize (m * 2 ^ e : ℚ) = a at *
  generalize (m' * 2 ^ e' : ℚ) = b at *
  -- With different signs two magnitudes stand for the same number only if both are zero.
  have hopposite : -a = b ↔ a = b ∧ a = 0 :=
    ⟨fun h => ⟨by linarith, by linarith⟩, fun h => by linarith [h.1, h.2]⟩
  have hopposite' : a = -b ↔ a = b ∧ a = 0 :=
    ⟨fun h => ⟨by linarith, by linarith⟩, fun h => by linarith [h.1, h.2]⟩
  cases n <;> cases n' <;> simp [hopposite, hopposite']

/-- Finite data are compared as numbers. -/
theorem same_finite_iff : (finite n m e).same (finite n' m' e') = true ↔
    signed n m e = signed n' m' e' := by
  rw [signed_eq_iff, ← aligned_eq_iff, ← @aligned_eq_zero_iff m m' e e']
  simp [same]

theorem same_self_iff : x.same x = true ↔ x ≠ .nan := by
  cases x with
  | nan => simp [same]
  | infinite n => simp [same]
  | finite n m e => simp [same_finite_iff]

theorem same_trans (h : x.same y = true) (h' : y.same z = true) : x.same z = true := by
  cases y with
  | nan => cases z <;> cases h'
  | infinite n =>
      cases x <;> cases z <;> simp_all [same]
  | finite n m e =>
      cases x with
      | finite =>
          cases z with
          | finite => exact same_finite_iff.2 ((same_finite_iff.1 h).trans (same_finite_iff.1 h'))
          | nan | infinite => cases h'
      | nan | infinite => cases h

end Binary64

namespace Scalar

variable {a b c : Scalar}

theorem same_self_iff : a.same a = true ↔ a ≠ .float .nan := by
  cases a with
  | int v => simp [same]
  | float x => simp [same, Binary64.same_self_iff]

theorem same_trans (h : a.same b = true) (h' : b.same c = true) : a.same c = true := by
  cases b with
  | int v => cases a <;> cases c <;> simp_all [same]
  | float y =>
      cases a with
      | int => cases h
      | float x =>
          cases c with
          | int => cases h'
          | float z => exact Binary64.same_trans h h'

end Scalar

end ProgramSafety
