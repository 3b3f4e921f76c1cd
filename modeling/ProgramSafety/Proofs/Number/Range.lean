import Mathlib.Data.Nat.Notation
import ProgramSafety.Analysis.Constant

/-!
# Results in range

Whatever arithmetic and casts give as a number of an integer type lies in the
range of that type, and the wide word in which they work is wider than every
integer type.
-/

namespace ProgramSafety

namespace IntType

theorem two_pow_bits (t : IntType) : Int.pow 2 t.bits = 2 * Int.pow 2 (t.bits - 1) := by
  cases t <;> rfl

theorem cast_two_pow_bits (t : IntType) : (Nat.pow 2 t.bits : Int) = Int.pow 2 t.bits := by
  cases t <;> rfl

theorem wrap_mem (t : IntType) (v : Int) : t.wrap v ∈ t := by
  have hpos : 0 < Nat.pow 2 t.bits := Nat.two_pow_pos t.bits
  have hdouble := t.two_pow_bits
  have hcast := t.cast_two_pow_bits
  rw [mem_iff, wrap, min, max]
  cases t.signed with
  | true =>
      have hlo := Int.le_bmod (x := v) hpos
      have hhi := Int.bmod_lt (x := v) hpos
      rw [hcast] at hlo hhi
      simp only [if_true]
      omega
  | false =>
      have hpos' : 0 < Int.pow 2 t.bits := by omega
      have hlo := Int.emod_nonneg v (Int.ne_of_gt hpos')
      have hhi := Int.emod_lt_of_pos v hpos'
      simp only [Bool.false_eq_true, if_false]
      omega

theorem min_le_max (t : IntType) : t.min ≤ t.max := by
  cases t <;> decide

theorem clamp_mem (t : IntType) (v : Int) : t.clamp v ∈ t := by
  have hle := t.min_le_max
  rw [mem_iff, clamp]
  split
  · omega
  · split <;> omega

theorem mem_of_result? {t : IntType} {op : IntOp} {l r v : Int} (h : t.result? op l r = some v) :
    v ∈ t := by
  simp only [result?] at h
  split at h
  next q w hq hw =>
    split at h
    next hin =>
      obtain rfl := Option.some.inj h
      exact hin.2
    next => cases h
  next => cases h

/-- A number that the wide word had to cut off is in no integer type. -/
theorem wideClamp_eq_of_mem {t : IntType} {v : Int} (h : Wide.clamp v ∈ t) : Wide.clamp v = v := by
  have hmin : Wide.min < t.min := by cases t <;> decide
  have hmax : t.max < Wide.max := by cases t <;> decide
  obtain ⟨hlo, hhi⟩ := mem_iff.1 h
  unfold Wide.clamp at *
  split
  next hlt =>
    rw [if_pos hlt] at hlo
    omega
  next hlt =>
    rw [if_neg hlt] at hhi
    split
    next hgt =>
      rw [if_pos hgt] at hhi
      omega
    next => rfl

end IntType

theorem ArithMode.mem_of_apply {mode : ArithMode} {t : IntType} {op : IntOp} {l r v : Int}
    (h : mode.apply t op l r = .ok v) : v ∈ t := by
  cases mode with
  | checked =>
      simp only [apply, IntType.checked] at h
      split at h
      next => cases h
      next =>
        split at h
        next w hw =>
          obtain rfl := Except.ok.inj h
          exact IntType.mem_of_result? hw
        next => cases h
  | wrapping =>
      simp only [apply, IntType.wrapping] at h
      split at h
      next => cases h
      next =>
        obtain rfl := Except.ok.inj h
        exact t.wrap_mem _

def NumericType.Holds : NumericType → Scalar → Prop
  | .int t, .int v => v ∈ t
  | .float _, .float _ => True
  | _, _ => False

theorem NumericType.Holds.eq_int {t : NumericType} {v : Int} (h : t.Holds (.int v)) :
    ∃ i, t = .int i ∧ v ∈ i := by
  cases t with
  | int i => exact ⟨i, rfl, h⟩
  | float f => cases h

namespace Scalar

variable {s r : Scalar} {t : NumericType}

theorem holds_of_convert? (h : s.convert? t = some r) : t.Holds r := by
  cases s <;> cases t <;> simp only [convert?] at h <;> split at h <;> cases h
  · assumption
  · trivial
  next hx => exact hx.2
  · trivial

theorem holds_of_assertCast (h : s.assertCast t = .ok r) : t.Holds r := by
  rw [assertCast] at h
  split at h
  next r' hr =>
    obtain rfl := Except.ok.inj h
    exact holds_of_convert? hr
  next => cases h

theorem holds_truncate (s : Scalar) (t : NumericType) : t.Holds (s.truncate t) := by
  cases t with
  | int t => cases s <;> exact t.wrap_mem _
  | float t => cases s <;> trivial

theorem holds_saturate (s : Scalar) (t : NumericType) : t.Holds (s.saturate t) := by
  cases t with
  | int t => cases s <;> exact t.clamp_mem _
  | float t => cases s <;> trivial

end Scalar

theorem CastForm.holds_of_apply {form : CastForm} {s r : Scalar} {t : NumericType}
    (h : form.apply s t = .ok (some r)) : t.Holds r := by
  cases form with
  | fallible => exact Scalar.holds_of_convert? (Except.ok.inj h)
  | asserting =>
      cases hr : s.assertCast t with
      | error f => simp [apply, hr, Except.map] at h
      | ok r' =>
          obtain rfl : r' = r := by simpa [apply, hr, Except.map] using h
          exact Scalar.holds_of_assertCast hr
  | truncating =>
      obtain rfl := Option.some.inj (Except.ok.inj h)
      exact s.holds_truncate t
  | saturating =>
      obtain rfl := Option.some.inj (Except.ok.inj h)
      exact s.holds_saturate t

end ProgramSafety
