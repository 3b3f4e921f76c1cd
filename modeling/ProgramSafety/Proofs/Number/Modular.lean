import Mathlib.Data.Int.ModEq
import ProgramSafety.Proofs.Number.Range

/-!
# Arithmetic modulo the width

`t.wrap v` is the one value of the type `t` that is congruent to `v` modulo
`2 ^ t.bits` (`IntType.eq_wrap_iff`), and it is what the low bits of a word stand for
when they are read with the sign of the type (`IntType.wrap_eq_ofLowBits`). As `2 ^ t.bits`
divides `2 ^ 128`, a result that was wrapped to the wide word before loses nothing
that `t.wrap` would have kept, so the two reductions of wrapping arithmetic are one.

What the result of an operation is meant to be is said by `IntOp.Yields`. Quotient and
remainder are those of a division toward zero and belong together.
-/

namespace ProgramSafety

/-! ## Results of operations -/

/-- Division toward zero: the remainder `m` is smaller than the divisor and not on the
other side of zero than the dividend. -/
structure DividesTo (l r q m : Int) : Prop where
  sum_eq : r * q + m = l
  small : m.natAbs < r.natAbs
  nonneg : 0 ≤ l → 0 ≤ m
  nonpos : l ≤ 0 → m ≤ 0

/-- The mathematical result of an operation is `v`; there is none for a zero divisor. -/
def IntOp.Yields : IntOp → Int → Int → Int → Prop
  | .add, l, r, v => v = l + r
  | .sub, l, r, v => v = l - r
  | .mul, l, r, v => v = l * r
  | .div, l, r, v => ∃ m, DividesTo l r v m
  | .rem, l, r, v => ∃ q, DividesTo l r q v
  | .neg, l, _, v => v = -l

theorem dividesTo_iff {l r q m : Int} (hr : r ≠ 0) :
    DividesTo l r q m ↔ l.tdiv r = q ∧ l.tmod r = m := by
  constructor
  · intro hdiv
    have hsum := hdiv.sum_eq
    have hsmall := hdiv.small
    rcases Int.le_total 0 l with hl | hl
    · have := hdiv.nonneg hl
      exact (Int.tdiv_tmod_unique hl hr).2 ⟨by omega, this, by omega⟩
    · have := hdiv.nonpos hl
      exact (Int.tdiv_tmod_unique' hl hr).2 ⟨by omega, by omega, this⟩
  · rintro ⟨rfl, rfl⟩
    refine ⟨Int.mul_tdiv_add_tmod l r, ?_, fun hl => Int.tmod_nonneg r hl, fun hl => ?_⟩
    · rw [Int.natAbs_tmod]
      exact Nat.mod_lt _ (Int.natAbs_pos.2 hr)
    · have hneg := Int.tmod_nonneg (a := -l) r (by omega)
      rw [Int.neg_tmod] at hneg
      omega

theorem IntOp.dividesByZero_iff {op : IntOp} {r : Int} :
    op.dividesByZero r = true ↔ (op = .div ∨ op = .rem) ∧ r = 0 := by
  cases op <;> simp [dividesByZero, divides]

theorem IntOp.yields_iff {op : IntOp} {l r v : Int} (hr : op.dividesByZero r = false) :
    op.Yields l r v ↔ v = op.exact l r := by
  cases op with
  | add | sub | mul | neg => exact Iff.rfl
  | div =>
      have hr : r ≠ 0 := by simpa [dividesByZero, divides] using hr
      simp only [Yields, exact, dividesTo_iff hr, exists_and_left, exists_eq', and_true]
      exact eq_comm
  | rem =>
      have hr : r ≠ 0 := by simpa [dividesByZero, divides] using hr
      simp only [Yields, exact, dividesTo_iff hr, exists_and_right, exists_eq', true_and]
      exact eq_comm

/-! ## Residues -/

theorem Wide.wrap_modEq (v : Int) : Wide.wrap v ≡ v [ZMOD 2 ^ 128] := Int.bmod_emod

namespace IntType

theorem max_sub_min (t : IntType) : t.max - t.min + 1 = 2 ^ t.bits := by
  cases t <;> rfl

theorem wrap_modEq (t : IntType) (v : Int) : t.wrap v ≡ v [ZMOD 2 ^ t.bits] := by
  rw [wrap]
  split
  · have hmod : v.bmod (Nat.pow 2 t.bits) % (Nat.pow 2 t.bits : Int) =
        v % (Nat.pow 2 t.bits : Int) := Int.bmod_emod
    rwa [cast_two_pow_bits] at hmod
  · exact Int.mod_modEq v _

/-- The range of a type has one value of each residue. -/
theorem eq_wrap_iff {t : IntType} {v w : Int} :
    w = t.wrap v ↔ w ∈ t ∧ w ≡ v [ZMOD 2 ^ t.bits] := by
  constructor
  · rintro rfl
    exact ⟨t.wrap_mem v, t.wrap_modEq v⟩
  · rintro ⟨hw, hmod⟩
    have hdvd : (2 : Int) ^ t.bits ∣ w - t.wrap v :=
      Int.modEq_iff_dvd.1 ((t.wrap_modEq v).trans hmod.symm)
    have hlt : |w - t.wrap v| < 2 ^ t.bits := by
      have hsize := t.max_sub_min
      obtain ⟨hlo, hhi⟩ := hw
      obtain ⟨hlo', hhi'⟩ := t.wrap_mem v
      rw [abs_lt]
      omega
    have hzero := Int.eq_zero_of_abs_lt_dvd hdvd hlt
    omega

theorem wrap_eq_self_iff {t : IntType} {v : Int} : t.wrap v = v ↔ v ∈ t := by
  rw [eq_comm, eq_wrap_iff]
  exact and_iff_left Int.ModEq.rfl

theorem two_pow_bits_dvd (t : IntType) : (2 : Int) ^ t.bits ∣ 2 ^ 128 := by
  cases t <;> decide

/-- Reducing to a type depends on the residue only. -/
theorem wrap_congr {t : IntType} {v w : Int} (h : v ≡ w [ZMOD 2 ^ t.bits]) :
    t.wrap v = t.wrap w :=
  eq_wrap_iff.2 ⟨t.wrap_mem v, (t.wrap_modEq v).trans h⟩

/-- Wrapping to the wide word first makes no difference. -/
theorem wrap_wideWrap (t : IntType) (v : Int) : t.wrap (Wide.wrap v) = t.wrap v :=
  wrap_congr ((Wide.wrap_modEq v).of_dvd t.two_pow_bits_dvd)

theorem wrapping_of_dividesByZero {op : IntOp} {r : Int} (t : IntType) (l : Int)
    (hr : op.dividesByZero r = true) : t.wrapping op l r = .error (.divideByZero op t) := by
  rw [wrapping, if_pos hr]

theorem wrapping_eq_wrap {op : IntOp} {r : Int} (t : IntType) (l : Int)
    (hr : op.dividesByZero r = false) : t.wrapping op l r = .ok (t.wrap (op.exact l r)) := by
  rw [wrapping, if_neg (by simp [hr]), wrap_wideWrap]

theorem wrapping_eq_error_iff {t : IntType} {op : IntOp} {l r : Int} {f : Fault} :
    t.wrapping op l r = .error f ↔ op.dividesByZero r = true ∧ f = .divideByZero op t := by
  cases hzero : op.dividesByZero r with
  | true =>
      rw [t.wrapping_of_dividesByZero l hzero, Except.error.injEq, eq_self, true_and]
      exact eq_comm
  | false => simp [t.wrapping_eq_wrap l hzero]

/-! ## Low bits -/

/-- The number that the low bits of a wide word stand for. They are picked out by a mask,
and the highest of them counts negative in a signed type. -/
def ofLowBits (t : IntType) (w : BitVec 128) : Int :=
  let low := w &&& ((1#128 <<< t.bits) - 1#128)
  if t.signed ∧ (low >>> (t.bits - 1)) &&& 1#128 = 1#128 then low.toNat - 2 ^ t.bits
  else low.toNat

theorem toNat_mask (t : IntType) : ((1#128 <<< t.bits) - 1#128).toNat = 2 ^ t.bits - 1 := by
  cases t <;> decide

theorem toNat_and_mask (t : IntType) (v : Int) :
    ((BitVec.ofInt 128 v &&& ((1#128 <<< t.bits) - 1#128)).toNat : Int) = v % 2 ^ t.bits := by
  have hword : ((BitVec.ofInt 128 v).toNat : Int) = v % 2 ^ 128 := by
    rw [BitVec.toNat_ofInt]
    exact Int.toNat_of_nonneg (Int.emod_nonneg v (by decide))
  rw [BitVec.toNat_and, toNat_mask, Nat.and_two_pow_sub_one_eq_mod, Int.natCast_mod, hword,
    Int.natCast_pow, Nat.cast_ofNat, Int.emod_emod_of_dvd v t.two_pow_bits_dvd]

/-- A number below `2 * p` has its top bit set if it is `p` at least. -/
theorem topBit_iff (t : IntType) {w : BitVec 128} (hw : w.toNat < 2 ^ t.bits) :
    (w >>> (t.bits - 1)) &&& 1#128 = 1#128 ↔ 2 ^ (t.bits - 1) ≤ w.toNat := by
  have hdouble : 2 ^ t.bits = 2 * 2 ^ (t.bits - 1) := by cases t <;> rfl
  have hpos : 0 < 2 ^ (t.bits - 1) := Nat.two_pow_pos _
  rw [← BitVec.toNat_inj, BitVec.toNat_and, BitVec.toNat_ushiftRight, Nat.shiftRight_eq_div_pow]
  change w.toNat / 2 ^ (t.bits - 1) &&& 1 = 1 ↔ _
  have hlt : w.toNat / 2 ^ (t.bits - 1) < 2 := Nat.div_lt_of_lt_mul (by omega)
  rw [Nat.and_one_is_mod, Nat.mod_eq_of_lt hlt, ← Nat.one_le_div_iff hpos]
  omega

theorem wrap_eq_ofLowBits (t : IntType) (v : Int) :
    t.wrap v = t.ofLowBits (BitVec.ofInt 128 v) := by
  have hlow := t.toNat_and_mask v
  rw [wrap, ofLowBits]
  generalize BitVec.ofInt 128 v &&& ((1#128 <<< t.bits) - 1#128) = low at hlow ⊢
  cases t.signed with
  | false => simpa using hlow.symm
  | true =>
      have hdouble : (2 : Int) ^ t.bits = 2 * 2 ^ (t.bits - 1) := t.two_pow_bits
      have hcast : ((Nat.pow 2 t.bits : ℕ) : Int) = 2 ^ t.bits := t.cast_two_pow_bits
      have hhalf : ((2 ^ (t.bits - 1) : ℕ) : Int) = 2 ^ (t.bits - 1) := Int.natCast_pow 2 _
      have hlt : low.toNat < 2 ^ t.bits := by
        have hmod : v % 2 ^ t.bits < 2 ^ t.bits := Int.emod_lt_of_pos v (Int.pow_pos (by decide))
        rw [← hlow] at hmod
        exact_mod_cast hmod
      simp only [if_true, true_and, topBit_iff t hlt]
      rw [Int.bmod_def, hcast, hlow]
      split <;> split <;> omega

/-! ## Wrapping arithmetic -/

/-- Reducing to a type keeps the low bits, which gives the one value of the type with the
same residue modulo the width. Wrapping arithmetic reduces the mathematical result, for
operands of any size; it faults for a zero divisor and for nothing else. -/
theorem wrapping_modular (t : IntType) :
    (∀ v, t.wrap v = t.ofLowBits (BitVec.ofInt 128 v)) ∧
    (∀ v w, w = t.wrap v ↔ w ∈ t ∧ w ≡ v [ZMOD 2 ^ t.bits]) ∧
    (∀ op l r, op ≠ .div → op ≠ .rem → ∃ v w, op.Yields l r v ∧ t.wrapping op l r = .ok w ∧
      w ∈ t ∧ w ≡ v [ZMOD 2 ^ t.bits]) ∧
    (∀ op l r, op = .div ∨ op = .rem → r ≠ 0 →
      ∃ v, op.Yields l r v ∧ t.wrapping op l r = .ok (t.wrap v)) ∧
    ∀ op l r f, t.wrapping op l r = .error f ↔
      ((op = .div ∨ op = .rem) ∧ r = 0) ∧ f = .divideByZero op t := by
  refine ⟨t.wrap_eq_ofLowBits, fun v w => eq_wrap_iff, fun op l r hdiv hrem => ?_,
    fun op l r _ hr => ?_, fun op l r f => ?_⟩
  · have hzero : op.dividesByZero r = false := by
      simp [← Bool.not_eq_true, IntOp.dividesByZero_iff, hdiv, hrem]
    exact ⟨_, _, (IntOp.yields_iff hzero).2 rfl, t.wrapping_eq_wrap l hzero, t.wrap_mem _,
      t.wrap_modEq _⟩
  · have hzero : op.dividesByZero r = false := by
      simp [← Bool.not_eq_true, IntOp.dividesByZero_iff, hr]
    exact ⟨_, (IntOp.yields_iff hzero).2 rfl, t.wrapping_eq_wrap l hzero⟩
  · rw [wrapping_eq_error_iff, IntOp.dividesByZero_iff]

/-- The square of the greatest `u64` leaves the wide word and is 1 modulo the width; the
quotient of the least `i64` and -1 is one more than the type has. -/
theorem wrapping_modular_extremes :
    ¬ Wide.Fits (u64.max * u64.max) ∧
    (∃ w, u64.wrapping .mul u64.max u64.max = .ok w ∧ w ∈ u64 ∧
      w ≡ u64.max * u64.max [ZMOD 2 ^ 64]) ∧
    ∃ v, IntOp.Yields .div i64.min (-1) v ∧ i64.wrapping .div i64.min (-1) = .ok (i64.wrap v) := by
  obtain ⟨-, -, hmul, -, -⟩ := wrapping_modular u64
  obtain ⟨-, -, -, hdiv, -⟩ := wrapping_modular i64
  obtain ⟨v, w, rfl, hw, hmem, hmod⟩ := hmul .mul u64.max u64.max (by decide) (by decide)
  exact ⟨by decide, ⟨w, hw, hmem, hmod⟩, hdiv .div i64.min (-1) (Or.inl rfl) (by decide)⟩

end IntType

end ProgramSafety
