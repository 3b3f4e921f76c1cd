import ProgramSafety.Proofs.Number.CastForms
import ProgramSafety.Proofs.Number.ExactRounding
import ProgramSafety.Proofs.Number.Exactness

/-!
# Casts that need no check

Whether the check of a cast may be left out is decided from the two types alone: by
comparing ranges between integer types, and by the width of the integer type on the way to a
float type. A cast of an integer is left unchecked exactly if every value of its type
survives it (`CastCheck.elision_exact`). The bounds on the width leave room: an integer type
has at most `2 ^ bits` as a magnitude and the float type has all integers up to
`2 ^ precision`. Still no other integer type could go unchecked, as the next wider one has
`2 ^ precision + 1`, which the float type lacks.
-/

namespace ProgramSafety

namespace IntType

variable {s t : IntType} {v : ℤ}

theorem covers_iff : t.Covers s ↔ ∀ v ∈ s, v ∈ t := by
  constructor
  · rintro ⟨hmin, hmax⟩ v ⟨hlo, hhi⟩
    exact ⟨hmin.trans hlo, hhi.trans hmax⟩
  · intro h
    exact ⟨(h s.min ⟨le_rfl, s.min_le_max⟩).1, (h s.max ⟨s.min_le_max, le_rfl⟩).2⟩

theorem abs_le_of_mem (hv : v ∈ t) : |v| ≤ 2 ^ t.bits := by
  have hpos : 0 < Nat.pow 2 t.bits := Nat.two_pow_pos t.bits
  have hdouble := t.two_pow_bits
  have hcast := t.cast_two_pow_bits
  obtain ⟨hlo, hhi⟩ := hv
  change |v| ≤ Int.pow 2 t.bits
  unfold min at hlo
  unfold max at hhi
  rw [abs_le]
  split at hlo <;> split at hhi <;> omega

end IntType

namespace FloatType

variable {f : FloatType}

theorem contains_double {v : ℚ} (hv : f.format.Contains v) : Format.double.Contains v := by
  cases f with
  | f32 => exact hv.mono (by decide) (by decide) (by decide)
  | f64 => exact hv

theorem contains_intCast {v : ℤ} (hv : |v| ≤ 2 ^ f.format.precision) :
    f.format.Contains |(v : ℚ)| := by
  rw [Int.abs_eq_natAbs] at hv
  rw [← Int.cast_abs, ← Nat.cast_natAbs]
  have hk : v.natAbs ≤ 2 ^ f.format.precision := by exact_mod_cast hv
  cases f with
  | f32 | f64 => exact Format.contains_natCast hk (by decide) (by decide) (by decide)

theorem standsFor_round {x : Binary64} {v : ℚ} (hx : x.StandsFor v) (hv : f.format.Contains |v|) :
    (f.round x).StandsFor v := by
  cases f with
  | f32 => exact Binary64.standsFor_toSingle hx hv
  | f64 => exact hx

end FloatType

/-- An integer that the float type has as a number survives the cast. -/
theorem Scalar.convert?_float_of_contains {f : FloatType} {v : ℤ}
    (hv : f.format.Contains |(v : ℚ)|) (hfits : Wide.Fits v) :
    ∃ x, (int v).convert? (.float f) = some (.float x) ∧ x.StandsFor v := by
  have hx : (f.round (Binary64.ofInt v)).StandsFor v :=
    FloatType.standsFor_round (Binary64.standsFor_ofInt (FloatType.contains_double hv)) hv
  exact ⟨_, if_pos (Binary64.toWide_of_standsFor hx hfits), hx⟩

namespace NumericType

variable {a : IntType} {f : FloatType}

theorem bits_le_of_embeds (h : (int a).Embeds (.float f)) : a.bits ≤ f.format.precision := by
  cases f with
  | f32 => exact h.trans (by decide)
  | f64 => exact h.trans (by decide)

/-- A wider integer type has the first integer that the float type lacks. -/
theorem exists_lost_of_not_embeds (h : ¬ (int a).Embeds (.float f)) :
    ∃ v ∈ a, (Scalar.int v).convert? (.float f) = none := by
  cases f with
  | f32 =>
      refine ⟨2 ^ 24 + 1, ?_, by decide⟩
      revert h
      cases a <;> decide
  | f64 =>
      refine ⟨2 ^ 53 + 1, ?_, by decide⟩
      revert h
      cases a <;> decide

end NumericType

namespace CastCheck

theorem between_eq_unchecked_iff {s t : NumericType} :
    between s t true = .unchecked ↔ s.Embeds t := by
  by_cases h : s.Embeds t
  · simp [between, h]
  · simp only [between, h, and_false, if_false, iff_false]
    split <;> simp

theorem between_int_eq_unchecked_iff {a b : IntType} :
    between (.int a) (.int b) true = .unchecked ↔
      ∀ v ∈ a, (Scalar.int v).convert? (.int b) = some (.int v) := by
  simp only [Scalar.convert?_int_eq_some_iff]
  exact between_eq_unchecked_iff.trans IntType.covers_iff

theorem between_float_eq_unchecked_iff {a : IntType} {f : FloatType} :
    between (.int a) (.float f) true = .unchecked ↔
      ∀ v ∈ a, ∃ x, (Scalar.int v).convert? (.float f) = some (.float x) ∧ x.StandsFor v := by
  rw [between_eq_unchecked_iff]
  constructor
  · intro hembeds v hv
    have hle : |v| ≤ 2 ^ f.format.precision :=
      calc |v|
        _ ≤ 2 ^ a.bits := IntType.abs_le_of_mem hv
        _ ≤ 2 ^ f.format.precision :=
          pow_le_pow_right₀ (by decide) (NumericType.bits_le_of_embeds hembeds)
    exact Scalar.convert?_float_of_contains (FloatType.contains_intCast hle)
      (IntType.fits_of_mem hv)
  · -- A type that is too wide has an integer of its own that is lost.
    intro hsurvive
    by_contra hembeds
    obtain ⟨v, hv, hlost⟩ := NumericType.exists_lost_of_not_embeds hembeds
    obtain ⟨x, hx, -⟩ := hsurvive v hv
    rw [hlost] at hx
    cases hx

/-- The check of a cast from an integer type is left out exactly if every value of the type
survives the cast with its value unchanged, whether it goes to an integer type or to a float
type. Between integer types the range is checked otherwise, and always if nothing is to be
left out. That integers of magnitude at most `2 ^ 53` become doubles unchanged, and those of
magnitude at most `2 ^ 24` pass through single precision, is what this rests on. -/
theorem elision_exact :
    (∀ a b : IntType,
      (between (.int a) (.int b) true = .unchecked ↔
        ∀ v ∈ a, (Scalar.int v).convert? (.int b) = some (.int v)) ∧
      (¬ (∀ v ∈ a, (Scalar.int v).convert? (.int b) = some (.int v)) →
        between (.int a) (.int b) true = .range) ∧
      between (.int a) (.int b) false = .range) ∧
    (∀ (a : IntType) (f : FloatType),
      between (.int a) (.float f) true = .unchecked ↔
        ∀ v ∈ a, ∃ x, (Scalar.int v).convert? (.float f) = some (.float x) ∧ x.StandsFor v) ∧
    (∀ v : ℤ, |v| ≤ 2 ^ 53 → (Binary64.ofInt v).StandsFor v) ∧
    (∀ (x : Binary64) (v : ℤ), |v| ≤ 2 ^ 24 → x.StandsFor v → x.toSingle.StandsFor v) := by
  refine ⟨fun a b => ⟨between_int_eq_unchecked_iff, fun hlost => ?_, by simp [between]⟩,
    fun a f => between_float_eq_unchecked_iff, fun v hv => ?_, fun x v hv hx => ?_⟩
  · rw [← between_int_eq_unchecked_iff, between_eq_unchecked_iff] at hlost
    simp [between, hlost]
  · exact Binary64.standsFor_ofInt (FloatType.contains_intCast (f := .f64) hv)
  · exact Binary64.standsFor_toSingle hx (FloatType.contains_intCast (f := .f32) hv)

/-- The greatest `u32` is an `i64` and a double, while a negative `i8` is no `u64`, however
wide. The last two integers are at the ends of what the two formats have without gaps. -/
theorem elision_exact_words :
    between (.int .u32) (.int .i64) true = .unchecked ∧
    (Scalar.int 4294967295).convert? (.int .i64) = some (.int 4294967295) ∧
    between (.int .i8) (.int .u64) true = .range ∧
    (∃ x, (Scalar.int 4294967295).convert? (.float .f64) = some (.float x) ∧
      x.StandsFor (4294967295 : ℤ)) ∧
    between (.int .u32) (.float .f32) true ≠ .unchecked ∧
    (Binary64.ofInt (-9007199254740992)).StandsFor (-9007199254740992 : ℤ) ∧
    (Binary64.ofInt 16777216).toSingle.StandsFor (16777216 : ℤ) := by
  obtain ⟨hint, hfloat, hdouble, hsingle⟩ := elision_exact
  have hlost : ¬ ∀ v ∈ IntType.i8, (Scalar.int v).convert? (.int .u64) = some (.int v) :=
    fun h => absurd (h (-1) (by decide)) (by decide)
  refine ⟨by decide, ((hint .u32 .i64).1.1 (by decide)) _ (by decide), (hint .i8 .u64).2.1 hlost,
    (hfloat .u32 .f64).1 (by decide) _ (by decide), by decide, hdouble _ (by decide),
    hsingle _ _ (by decide) (hdouble _ (by decide))⟩

end CastCheck

end ProgramSafety
