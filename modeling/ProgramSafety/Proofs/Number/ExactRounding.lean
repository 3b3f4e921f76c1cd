import Mathlib.Algebra.Order.Ring.Abs
import Mathlib.Tactic.Positivity
import ProgramSafety.Proofs.Number.FloatValues

/-!
# Rounding that changes nothing

Rounding to a format keeps the numbers that the format has (`Format.standsFor_round`). The
exponent chosen for a magnitude is the least at which the mantissa still fits, so it is at
most the exponent at which the format has the number, and there the mantissa is an integer
before it is rounded.

Every integer up to `2 ^ precision` is a number of the format, the last one with a shorter
mantissa and the next exponent. So integers of magnitude at most `2 ^ 53` become doubles
unchanged, those of magnitude at most `2 ^ 24` also pass through single precision, and both
come back as the same integers.
-/

namespace ProgramSafety

/-- The datum is a finite one and has the given value. -/
def Binary64.StandsFor : Binary64 → ℚ → Prop
  | finite n m e, v => signed n m e = v
  | nan, _ | infinite _, _ => False

/-- A number of the format, apart from its sign. -/
def Format.Contains (f : Format) (v : ℚ) : Prop :=
  ∃ (m : ℕ) (e : ℤ), m < 2 ^ f.precision ∧ f.minExponent ≤ e ∧ e ≤ f.maxExponent ∧ v = m * 2 ^ e

variable {m k : ℕ} {e q : ℤ}

theorem Binary64.abs_signed (n : Bool) (m : ℕ) (e : ℤ) : |signed n m e| = m * 2 ^ e := by
  have hnonneg : (0 : ℚ) ≤ m * 2 ^ e := by positivity
  cases n <;> simp [signed, abs_of_nonneg hnonneg]

/-! ## Mantissas -/

theorem divNearest_mul_left (k : ℕ) {d : ℕ} (hd : 0 < d) : divNearest (k * d) d = k := by
  simp [divNearest, Nat.mul_div_cancel k hd, hd]

/-- At a lower exponent the mantissa is a multiple. -/
theorem mul_two_pow_of_le (hle : q ≤ e) (h : (m * 2 ^ e : ℚ) = k * 2 ^ q) :
    m * 2 ^ (e - q).toNat = k := by
  have haligned : m * 2 ^ (e - q).toNat = k * 2 ^ (q - e).toNat := Binary64.aligned_eq_iff.2 h
  have hzero : (q - e).toNat = 0 := by omega
  rwa [hzero, pow_zero, mul_one] at haligned

/-- A mantissa that is an integer at the new exponent is not rounded. -/
theorem rescale_of_eq (h : (m * 2 ^ e : ℚ) = k * 2 ^ q) : rescale m e q = k := by
  rw [rescale]
  split
  next hle => exact mul_two_pow_of_le hle h
  next hlt =>
    rw [← mul_two_pow_of_le (Int.le_of_lt (Int.not_le.1 hlt)) h.symm]
    exact divNearest_mul_left k (Nat.two_pow_pos _)

theorem integerPart_of_eq (h : (m * 2 ^ e : ℚ) = k) : Binary64.integerPart m e = k := by
  have h : (m * 2 ^ e : ℚ) = k * 2 ^ (0 : ℤ) := by rw [h, zpow_zero, mul_one]
  rw [Binary64.integerPart]
  split
  next hle =>
    have hk := mul_two_pow_of_le hle h
    rwa [Int.sub_zero] at hk
  next hlt =>
    rw [← mul_two_pow_of_le (Int.le_of_lt (Int.not_le.1 hlt)) h.symm, Int.zero_sub]
    exact Nat.mul_div_cancel k (Nat.two_pow_pos _)

namespace Format

variable {f g : Format} {v : ℚ}

/-- At the exponent of a magnitude the mantissa fits. -/
theorem lt_two_zpow_exponentOf (f : Format) (m : ℕ) (e : ℤ) :
    (m * 2 ^ e : ℚ) < 2 ^ (f.precision + f.exponentOf m e) := by
  rw [exponentOf]
  split
  next hm =>
    rw [hm, Nat.cast_zero, zero_mul]
    positivity
  next hm =>
    have hlog : (m : ℚ) < 2 ^ ((m.log2 + 1 : ℕ) : ℤ) := by
      rw [zpow_natCast]
      exact_mod_cast Nat.lt_log2_self
    calc (m * 2 ^ e : ℚ)
      _ < 2 ^ ((m.log2 + 1 : ℕ) : ℤ) * 2 ^ e := by gcongr
      _ = 2 ^ ((m.log2 + 1 : ℕ) + e : ℤ) := (zpow_add₀ (by norm_num) _ _).symm
      _ ≤ 2 ^ (f.precision + max f.minExponent (e + (m.log2 + 1) - f.precision)) :=
        zpow_le_zpow_right₀ (by norm_num) (by omega)

/-- No higher exponent is chosen than needed. -/
theorem exponentOf_le (hq : f.minExponent ≤ q) (h : (m * 2 ^ e : ℚ) < 2 ^ (f.precision + q)) :
    f.exponentOf m e ≤ q := by
  rw [exponentOf]
  split
  next => exact hq
  next hm =>
    have hlog : (2 : ℚ) ^ ((m.log2 : ℕ) : ℤ) ≤ m := by
      rw [zpow_natCast]
      exact_mod_cast Nat.log2_self_le hm
    have hlt : (2 : ℚ) ^ (m.log2 + e : ℤ) < 2 ^ (f.precision + q) :=
      calc (2 : ℚ) ^ (m.log2 + e : ℤ)
        _ = 2 ^ (m.log2 : ℤ) * 2 ^ e := zpow_add₀ (by norm_num) _ _
        _ ≤ m * 2 ^ e := by gcongr
        _ < 2 ^ (f.precision + q) := h
    have hexp := (zpow_lt_zpow_iff_right₀ (by norm_num)).1 hlt
    omega

/-- A magnitude with an integer mantissa at its exponent is rounded to itself, without a
carry into the next exponent. -/
theorem round_of_eq (negative : Bool) (hk : (m * 2 ^ e : ℚ) = k * 2 ^ f.exponentOf m e)
    (hmax : f.exponentOf m e ≤ f.maxExponent) :
    f.round negative m e = .finite negative k (f.exponentOf m e) := by
  -- The carry would need a mantissa that does not fit at this exponent.
  have hfits : k < 2 ^ f.precision := by
    have hlt := f.lt_two_zpow_exponentOf m e
    rw [hk, zpow_add₀ (by norm_num), zpow_natCast, mul_lt_mul_iff_left₀ (by positivity)] at hlt
    exact_mod_cast hlt
  have hcarry : ¬ k = Nat.pow 2 f.precision := Nat.ne_of_lt hfits
  simp only [round, rescale_of_eq hk, if_neg hcarry]
  exact if_neg (Int.not_lt.2 hmax)

/-- Rounding keeps the numbers of the format. -/
theorem standsFor_round {negative : Bool} (hx : Binary64.signed negative m e = v)
    (hv : f.Contains |v|) : (f.round negative m e).StandsFor v := by
  rw [← hx, Binary64.abs_signed] at hv
  obtain ⟨m', e', hm', hmin, hmax, hv⟩ := hv
  have hlt : (m * 2 ^ e : ℚ) < 2 ^ (f.precision + e') := by
    rw [hv, zpow_add₀ (by norm_num), zpow_natCast]
    gcongr
    exact_mod_cast hm'
  -- The chosen exponent is not above the one at which the format has the number, so the
  -- mantissa that it asks for is an integer and nothing is rounded off.
  have hle : f.exponentOf m e ≤ e' := exponentOf_le hmin hlt
  have hk : (m * 2 ^ e : ℚ) =
      (m' * 2 ^ (e' - f.exponentOf m e).toNat : ℕ) * 2 ^ f.exponentOf m e := by
    rw [hv, Binary64.two_zpow_add_toNat hle, ← mul_assoc]
    push_cast
    rfl
  rw [round_of_eq negative hk (hle.trans hmax), Binary64.StandsFor, ← hx, Binary64.signed_eq_iff]
  exact ⟨hk.symm, Or.inl rfl⟩

theorem Contains.mono (h : f.Contains v) (hprecision : f.precision ≤ g.precision)
    (hmin : g.minExponent ≤ f.minExponent) (hmax : f.maxExponent ≤ g.maxExponent) :
    g.Contains v := by
  obtain ⟨m, e, hm, hlo, hhi, hv⟩ := h
  exact ⟨m, e, hm.trans_le (Nat.pow_le_pow_right (by decide) hprecision), hmin.trans hlo,
    hhi.trans hmax, hv⟩

/-- The integers that need no more digits than the format has, and the next one. -/
theorem contains_natCast (hk : k ≤ 2 ^ f.precision) (hprecision : 0 < f.precision)
    (hmin : f.minExponent ≤ 0) (hmax : 1 ≤ f.maxExponent) : f.Contains k := by
  rcases hk.lt_or_eq with hlt | rfl
  · exact ⟨k, 0, hlt, hmin, by omega, by simp⟩
  · refine ⟨2 ^ (f.precision - 1), 1, Nat.pow_lt_pow_right (by decide) (by omega), by omega,
      hmax, ?_⟩
    have hdouble : 2 ^ f.precision = 2 ^ (f.precision - 1) * 2 := by
      rw [← Nat.pow_succ, Nat.succ_eq_add_one, Nat.sub_add_cancel hprecision]
    rw [hdouble, zpow_one]
    push_cast
    rfl

end Format

/-! ## Integers as floats -/

namespace Binary64

variable {x : Binary64}

theorem standsFor_toSingle {v : ℚ} (hx : x.StandsFor v) (hv : Format.single.Contains |v|) :
    x.toSingle.StandsFor v := by
  cases x with
  | nan | infinite n => cases hx
  | finite n m e =>
      have hsingle := Format.standsFor_round hx hv
      rw [toSingle]
      split
      next n' m' e' hround =>
        rw [hround] at hsingle
        exact Format.standsFor_round hsingle (hv.mono (by decide) (by decide) (by decide))
      next => exact hsingle

/-- A magnitude with a sign is an integer if it has the magnitude and the sign of it. -/
theorem signed_eq_intCast_iff {n : Bool} {v : ℤ} :
    signed n m e = v ↔
      (m * 2 ^ e : ℚ) = v.natAbs ∧ (if n then -(v.natAbs : ℤ) else v.natAbs) = v := by
  have hcast : ((if n then -(v.natAbs : ℤ) else v.natAbs : ℤ) : ℚ) =
      (if n then -1 else 1) * (v.natAbs : ℚ) := by cases n <;> simp
  constructor
  · intro h
    have hm : (m * 2 ^ e : ℚ) = v.natAbs := by rw [← abs_signed n, h, Nat.cast_natAbs, Int.cast_abs]
    rw [signed, hm, ← hcast] at h
    exact ⟨hm, Int.cast_injective h⟩
  · rintro ⟨hm, hv⟩
    rw [signed, hm, ← hcast, hv]

theorem standsFor_ofInt {v : ℤ} (hv : Format.double.Contains |(v : ℚ)|) :
    (ofInt v).StandsFor v := by
  refine Format.standsFor_round (signed_eq_intCast_iff.2 ⟨by simp, ?_⟩) hv
  simp only [decide_eq_true_eq]
  split <;> omega

theorem toWide_of_standsFor {v : ℤ} (hx : x.StandsFor v) (hv : Wide.Fits v) : x.toWide = v := by
  cases x with
  | nan | infinite n => cases hx
  | finite n m e =>
      obtain ⟨hmagnitude, hsign⟩ := signed_eq_intCast_iff.1 hx
      rw [toWide, integerPart_of_eq hmagnitude, hsign, Wide.clamp_of_fits hv]

end Binary64

end ProgramSafety
