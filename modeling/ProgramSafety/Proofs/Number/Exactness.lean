import ProgramSafety.Proofs.Number.Modular

/-!
# Checked arithmetic is exact

A checked operation gives the mathematical result if the type has it and faults
otherwise. The result is formed in the wide word first, which can overflow by itself,
but a number that leaves the wide word is in no integer type, so this never shows.
A remainder comes with its quotient and overflows with it, although it would always fit.

Wrapping arithmetic gives the same result wherever there is one. Apart from remainders
it differs from the mathematical result exactly where checked arithmetic overflows.
-/

namespace ProgramSafety

namespace IntType

/-- The operation has the mathematical result `v`, and the type has what the operation
computes: the result and, for a remainder, the quotient as well. -/
structure Represents (t : IntType) (op : IntOp) (l r v : Int) : Prop where
  yields : op.Yields l r v
  mem : v ∈ t
  quotient : op = .rem → ∃ q, IntOp.Yields .div l r q ∧ q ∈ t

variable {t : IntType} {op : IntOp} {l r v : Int}

/-! ## Results in the wide word -/

theorem fits_of_mem (hv : v ∈ t) : Wide.Fits v := by
  have hmin : Wide.min ≤ t.min := by cases t <;> decide
  have hmax : t.max ≤ Wide.max := by cases t <;> decide
  obtain ⟨hlo, hhi⟩ := hv
  exact ⟨hmin.trans hlo, hhi.trans hmax⟩

theorem fit?_of_mem (hv : v ∈ t) : Wide.fit? v = some v :=
  Wide.fit?_eq_some_iff.2 ⟨fits_of_mem hv, rfl⟩

theorem result?_eq_some_iff :
    t.result? op l r = some v ↔
      v = op.exact l r ∧ v ∈ t ∧ (op = .rem → l.tdiv r ∈ t) := by
  constructor
  · intro hresult
    simp only [result?] at hresult
    split at hresult
    next q w hq hw =>
      obtain ⟨-, rfl⟩ := Wide.fit?_eq_some_iff.1 hw
      split at hresult
      next hin =>
        cases hresult
        refine ⟨rfl, hin.2, fun hrem => ?_⟩
        rw [if_pos hrem] at hq
        obtain ⟨-, rfl⟩ := Wide.fit?_eq_some_iff.1 hq
        exact hin.1 hrem
      next => cases hresult
    next => cases hresult
  · rintro ⟨rfl, hmem, hquotient⟩
    by_cases hrem : op = .rem
    · simp only [result?, if_pos hrem, fit?_of_mem (hquotient hrem), fit?_of_mem hmem,
        if_pos (And.intro (fun _ : op = .rem => hquotient hrem) hmem)]
    · simp only [result?, if_neg hrem, fit?_of_mem hmem]
      exact if_pos ⟨fun h => absurd h hrem, hmem⟩

theorem represents_iff (hr : op.dividesByZero r = false) :
    t.Represents op l r v ↔ t.result? op l r = some v := by
  have hquotient : op = .rem →
      ((∃ q, IntOp.Yields .div l r q ∧ q ∈ t) ↔ l.tdiv r ∈ t) := by
    rintro rfl
    have hr : IntOp.dividesByZero .div r = false := hr
    simp only [IntOp.yields_iff hr, exists_eq_left, IntOp.exact]
  rw [result?_eq_some_iff]
  constructor
  · rintro ⟨hyields, hmem, hq⟩
    exact ⟨(IntOp.yields_iff hr).1 hyields, hmem, fun hrem => (hquotient hrem).1 (hq hrem)⟩
  · rintro ⟨rfl, hmem, hq⟩
    exact ⟨(IntOp.yields_iff hr).2 rfl, hmem, fun hrem => (hquotient hrem).2 (hq hrem)⟩

/-- Nothing is divided by zero. -/
theorem not_represents (hr : op.dividesByZero r = true) : ¬ t.Represents op l r v := by
  obtain ⟨rfl | rfl, rfl⟩ := IntOp.dividesByZero_iff.1 hr
  · rintro ⟨⟨m, hdiv⟩, -, -⟩
    exact absurd hdiv.small (Nat.not_lt_zero _)
  · rintro ⟨⟨q, hdiv⟩, -, -⟩
    exact absurd hdiv.small (Nat.not_lt_zero _)

/-! ## Checked operations -/

theorem checked_of_dividesByZero (t : IntType) (l : Int) (hr : op.dividesByZero r = true) :
    t.checked op l r = .error (.divideByZero op t) := by
  rw [checked, if_pos hr]

theorem checked_eq_ok_iff : t.checked op l r = .ok v ↔ t.Represents op l r v := by
  cases hr : op.dividesByZero r with
  | true =>
      rw [checked_of_dividesByZero t l hr]
      exact iff_of_false (by simp) (not_represents hr)
  | false =>
      rw [represents_iff hr, checked, if_neg (by simp [hr])]
      cases t.result? op l r <;> simp

theorem checked_eq_divideByZero_iff :
    t.checked op l r = .error (.divideByZero op t) ↔ op.dividesByZero r = true := by
  cases hr : op.dividesByZero r with
  | true => simp [checked_of_dividesByZero t l hr]
  | false =>
      rw [checked, if_neg (by simp [hr])]
      cases t.result? op l r <;> simp

theorem checked_eq_overflow_iff :
    t.checked op l r = .error (.integerOverflow op t) ↔
      op.dividesByZero r = false ∧ ∀ v, ¬ t.Represents op l r v := by
  cases hr : op.dividesByZero r with
  | true => simp [checked_of_dividesByZero t l hr]
  | false =>
      simp only [represents_iff hr, checked, hr, Bool.false_eq_true, if_false, true_and]
      cases t.result? op l r <;> simp

/-! ## Checked and wrapping operations -/

theorem Represents.wrapping_eq (hv : t.Represents op l r v) : t.wrapping op l r = .ok v := by
  have hr : op.dividesByZero r = false := by
    rw [← Bool.not_eq_true]
    exact fun hzero => not_represents hzero hv
  rw [t.wrapping_eq_wrap l hr, ← (IntOp.yields_iff hr).1 hv.yields, wrap_eq_self_iff.2 hv.mem]

/-- For every operation but a remainder, only a result out of range overflows. -/
theorem checked_eq_overflow_iff_wrapping (hrem : op ≠ .rem) (hr : op.dividesByZero r = false) :
    t.checked op l r = .error (.integerOverflow op t) ↔
      ∃ w v, t.wrapping op l r = .ok w ∧ op.Yields l r v ∧ w ≠ v := by
  have hrepresents : ∀ v, t.Represents op l r v ↔ v = op.exact l r ∧ v ∈ t := by
    intro v
    rw [represents_iff hr, result?_eq_some_iff]
    simp [hrem]
  simp only [checked_eq_overflow_iff, hrepresents, t.wrapping_eq_wrap l hr, IntOp.yields_iff hr]
  simp [hr, wrap_eq_self_iff]

/-- Checked arithmetic, on operands of any size, is decided by the mathematical result:
a zero divisor and a result that the type lacks are the only faults. Where it succeeds
wrapping arithmetic gives the same, and remainders apart it overflows exactly where the
result of wrapping arithmetic is not the mathematical one. -/
theorem checked_exact (t : IntType) (op : IntOp) (l r : Int) :
    (t.checked op l r = .error (.divideByZero op t) ↔ (op = .div ∨ op = .rem) ∧ r = 0) ∧
    (∀ v, t.checked op l r = .ok v ↔ t.Represents op l r v) ∧
    (t.checked op l r = .error (.integerOverflow op t) ↔
      ¬ ((op = .div ∨ op = .rem) ∧ r = 0) ∧ ∀ v, ¬ t.Represents op l r v) ∧
    (¬ Wide.Fits (l * r) → t.checked .mul l r = .error (.integerOverflow .mul t)) ∧
    (∀ v, t.checked op l r = .ok v → t.wrapping op l r = .ok v) ∧
    (op ≠ .rem → ¬ (op = .div ∧ r = 0) →
      (t.checked op l r = .error (.integerOverflow op t) ↔
        ∃ w v, t.wrapping op l r = .ok w ∧ op.Yields l r v ∧ w ≠ v)) := by
  refine ⟨?_, fun v => checked_eq_ok_iff, ?_, fun hwide => ?_, fun v hv => ?_,
    fun hrem hdiv => ?_⟩
  · rw [checked_eq_divideByZero_iff, IntOp.dividesByZero_iff]
  · rw [checked_eq_overflow_iff, ← IntOp.dividesByZero_iff, Bool.not_eq_true]
  · refine checked_eq_overflow_iff.2 ⟨rfl, ?_⟩
    rintro v ⟨rfl, hmem, -⟩
    exact hwide (fits_of_mem hmem)
  · exact (checked_eq_ok_iff.1 hv).wrapping_eq
  · refine checked_eq_overflow_iff_wrapping hrem ?_
    rw [← Bool.not_eq_true, IntOp.dividesByZero_iff]
    rintro ⟨rfl | rfl, hr⟩
    · exact hdiv ⟨rfl, hr⟩
    · exact hrem rfl

/-- The least `i64` over -1 overflows, as the wrapped quotient is not the quotient; its
remainder is 0 and overflows all the same. -/
theorem checked_exact_least :
    i64.checked .rem i64.min (-1) = .error (.integerOverflow .rem i64) ∧
    i64.checked .div i64.min (-1) = .error (.integerOverflow .div i64) ∧
    (∃ w v, i64.wrapping .div i64.min (-1) = .ok w ∧ IntOp.Yields .div i64.min (-1) v ∧ w ≠ v) ∧
    u64.checked .mul u64.max u64.max = .error (.integerOverflow .mul u64) := by
  obtain ⟨-, -, -, -, -, hdiv⟩ := checked_exact i64 .div i64.min (-1)
  obtain ⟨-, -, -, hmul, -⟩ := checked_exact u64 .mul u64.max u64.max
  have hoverflow : i64.checked .div i64.min (-1) = .error (.integerOverflow .div i64) := by decide
  exact ⟨by decide, hoverflow, (hdiv (by decide) (by decide)).1 hoverflow, hmul (by decide)⟩

end IntType

end ProgramSafety
