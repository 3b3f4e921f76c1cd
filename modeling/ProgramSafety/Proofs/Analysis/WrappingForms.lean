import ProgramSafety.Proofs.Analysis.Folding
import ProgramSafety.Proofs.Number.Modular
import ProgramSafety.Session

/-!
# Wrapping forms and constant overflows

An operation in the wrapping mode has a result for all operands, a zero divisor apart, so
there is nothing to report about its constants otherwise. The search for constants keeps
to this, with one exception: a negated literal is taken as a single literal before the
mode is looked at, and is reported if the type does not have it, although the wrapping
negation of the literal is a value of the type (`Context.wrapping_rejected_iff`). The
program in `WrappedNegation` is rejected for this reason.
-/

namespace ProgramSafety

/-- The operation negates a literal whose negative its type does not have. -/
def IntOperation.NegatesMisfit (o : IntOperation) : Prop :=
  o.op = .neg ∧ ∃ v, o.left.form = .int v ∧ -v ∉ o.type

theorem IntOperation.negatesMisfit_iff {o : IntOperation} {v : Int} (hop : o.op = .neg)
    (hleft : o.left.form = .int v) : o.NegatesMisfit ↔ -v ∉ o.type := by
  simp [NegatesMisfit, hop, hleft]

/-- Where the type has the negative of a value it is the wrapping negation as well. -/
theorem IntType.wrapping_neg_of_mem {t : IntType} {v : Int} (hv : -v ∈ t) :
    t.wrapping .neg v 0 = .ok (-v) := by
  rw [t.wrapping_eq_wrap v rfl, IntOp.exact, wrap_eq_self_iff.2 hv]

/-- The negative of a value of an integer type is a wide integer. -/
theorem IntType.fits_neg_of_mem {t : IntType} {v : Int} (hv : v ∈ t) : Wide.Fits (-v) := by
  have hmin : Wide.min ≤ -t.max := by cases t <;> decide
  have hmax : -t.min ≤ Wide.max := by cases t <;> decide
  obtain ⟨hlo, hhi⟩ := hv
  exact ⟨by omega, by omega⟩

namespace Context

variable {c : Context} {e : Expr} {o : IntOperation} {known : Constants} {value : Option Int}
  {fs : List Finding}

/-- The values of the operands: the literal under a negation as it is written, all others
as they are known. -/
def operandValues? (c : Context) (known : Constants) (o : IntOperation) : Option (Int × Int) :=
  match o.op, o.left.form with
  | .neg, .int v => some (v, 0)
  | _, _ => c.operands? known o

/-! ## The two kinds of operations -/

theorem Arithmetic.left_ne_int (h : c.Arithmetic e o) (hop : o.op = .neg) (v : Int) :
    o.left.form ≠ .int v := by
  cases h with
  | @binary l r op op' mode t hform hop' ht =>
      obtain rfl : op' = .neg := hop
      cases op <;> cases hop'
  | neg hform hinner ht => exact hinner v

theorem Arithmetic.operandValues?_eq (h : c.Arithmetic e o) (known : Constants) :
    c.operandValues? known o = c.operands? known o := by
  unfold operandValues?
  split
  next hop hleft => exact absurd hleft (h.left_ne_int hop _)
  next => rfl

/-- An operation is arithmetic on what its operands turn out to be, or the negation of a
literal. -/
theorem arithmetic_or_negated (hop : c.operation? e = some o) :
    c.Arithmetic e o ∨ (o.op = .neg ∧ o.right = none ∧ ∃ v, o.left.form = .int v ∧
      c.literal? e = some (o.type, Wide.clamp (-v))) := by
  cases hlit : c.literal? e with
  | none => exact Or.inl (arithmetic_iff.2 ⟨hlit, hop⟩)
  | some tv =>
      right
      rw [literal?] at hlit
      split at hlit
      next ht hform => simp [operation?, ht, hform] at hop
      next ht hform =>
        simp only [operation?, ht, hform, Option.some.injEq] at hop
        subst hop
        exact ⟨rfl, rfl, _, rfl, hlit.symm⟩
      next => cases hlit

theorem form_ne_int_of_operation? (hop : c.operation? e = some o) (v : Int) :
    e.form ≠ .int v := by
  intro hform
  cases ht : (c.types.expr e).int? <;> simp [operation?, ht, hform] at hop

/-! ## Outcomes -/

theorem OperationOutcome.reports_iff_of_wrapping (hout : c.OperationOutcome known e o value fs)
    (hmode : o.mode = .wrapping) :
    (∃ text, .problem ⟨.constantOverflow text, e.span⟩ ∈ fs) ↔
      (o.op = .div ∨ o.op = .rem) ∧ ∃ l, c.operands? known o = some (l, 0) := by
  cases hout with
  | deferred hargs => simp [hargs]
  | @computed l r v hargs hv =>
      rw [hmode] at hv
      refine iff_of_false (by simp) ?_
      rintro ⟨hdiv, l', hl'⟩
      obtain ⟨rfl, rfl⟩ := Prod.mk.inj (Option.some.inj (hargs.symm.trans hl'))
      have hzero := IntOp.dividesByZero_iff.2 ⟨hdiv, rfl⟩
      exact absurd (hv.symm.trans (o.type.wrapping_of_dividesByZero l hzero)) (by simp)
  | @fails l r f hargs hf =>
      rw [hmode] at hf
      obtain ⟨hdiv, rfl⟩ := IntOp.dividesByZero_iff.1 (IntType.wrapping_eq_error_iff.1 hf).1
      exact iff_of_true ⟨_, List.mem_singleton.2 rfl⟩ ⟨hdiv, l, hargs⟩

theorem OperationOutcome.value_iff_of_wrapping (hout : c.OperationOutcome known e o value fs)
    (hmode : o.mode = .wrapping) (w : Int) :
    value = some w ↔
      ∃ l r, c.operands? known o = some (l, r) ∧ o.type.wrapping o.op l r = .ok w := by
  cases hout with
  | deferred hargs => simp [hargs]
  | computed hargs hv =>
      rw [hmode] at hv
      have hv : o.type.wrapping o.op _ _ = _ := hv
      simp [hargs, hv]
  | fails hargs hf =>
      rw [hmode] at hf
      have hf : o.type.wrapping o.op _ _ = _ := hf
      simp [hargs, hf]

/-! ## Negated literals -/

section Negated

variable {v : Int}

theorem operandValues?_of_negated (hop : o.op = .neg) (hleft : o.left.form = .int v)
    (known : Constants) : c.operandValues? known o = some (v, 0) := by
  rw [operandValues?, hop, hleft]

/-- The negative of a literal is entered or reported, whatever the mode. -/
theorem Outcome.of_negated (hout : c.Outcome known e value fs) (hv : v ∈ o.type)
    (hlit : c.literal? e = some (o.type, Wide.clamp (-v))) :
    (-v ∈ o.type ∧ value = some (-v) ∧ fs = []) ∨
      (-v ∉ o.type ∧ value = none ∧ fs = [.problem (.literalMisfit o.type (-v) e.span)]) := by
  rw [Wide.clamp_of_fits (IntType.fits_neg_of_mem hv)] at hlit
  exact hout.of_literal hlit

end Negated

/-! ## Wrapping forms -/

section Forms

variable (hop : c.operation? e = some o) (hmode : o.mode = .wrapping)
  (hlits : ∀ x ∈ o.operands, ∀ v, x.form = .int v → v ∈ o.type)
include hop hmode hlits

theorem Outcome.reports_iff_of_wrapping (hout : c.Outcome known e value fs) :
    (∃ text, .problem ⟨.constantOverflow text, e.span⟩ ∈ fs) ↔
      o.NegatesMisfit ∨
        (o.op = .div ∨ o.op = .rem) ∧ ∃ l, c.operandValues? known o = some (l, 0) := by
  rcases arithmetic_or_negated hop with harith | ⟨hneg, -, v, hleft, hlit⟩
  · have hno : ¬ o.NegatesMisfit := fun h => harith.left_ne_int h.1 _ h.2.choose_spec.1
    rw [(hout.of_arithmetic harith).reports_iff_of_wrapping hmode, harith.operandValues?_eq known,
      or_iff_right hno]
  · have hdiv : ¬ (o.op = .div ∨ o.op = .rem) := by simp [hneg]
    have hv := hlits o.left (by simp [IntOperation.operands]) v hleft
    rw [IntOperation.negatesMisfit_iff hneg hleft, or_iff_left fun h => hdiv h.1]
    obtain ⟨hmem, -, rfl⟩ | ⟨hmisfit, -, rfl⟩ := hout.of_negated hv hlit
    · exact iff_of_false (by simp) (not_not.2 hmem)
    · exact iff_of_true ⟨_, List.mem_singleton.2 rfl⟩ hmisfit

theorem Outcome.value_iff_of_wrapping (hout : c.Outcome known e value fs) (w : Int) :
    value = some w ↔ ¬ o.NegatesMisfit ∧
      ∃ l r, c.operandValues? known o = some (l, r) ∧ o.type.wrapping o.op l r = .ok w := by
  rcases arithmetic_or_negated hop with harith | ⟨hneg, -, v, hleft, hlit⟩
  · have hno : ¬ o.NegatesMisfit := fun h => harith.left_ne_int h.1 _ h.2.choose_spec.1
    rw [(hout.of_arithmetic harith).value_iff_of_wrapping hmode, harith.operandValues?_eq known,
      and_iff_right hno]
  · have hv := hlits o.left (by simp [IntOperation.operands]) v hleft
    rw [IntOperation.negatesMisfit_iff hneg hleft, operandValues?_of_negated hneg hleft, hneg]
    obtain ⟨hmem, rfl, -⟩ | ⟨hmisfit, rfl, -⟩ := hout.of_negated hv hlit
    · simp [hmem, IntType.wrapping_neg_of_mem hmem]
    · simp [hmisfit]

end Forms

theorem evaluate_of_form_eq_int {x : Expr} {v : Int} (hform : x.form = .int v) :
    c.evaluate x = .ok (.number (.int v)) := by
  obtain ⟨id, span, type, form⟩ := x
  subst hform
  rw [evaluate]

/-- In a body with distinct ids the values of the operands are what they evaluate to. -/
theorem StepAt.evaluate_of_operandValues? (hids : c.body.block.DistinctIds)
    (hvisited : e ∈ c.visited) (hop : c.operation? e = some o)
    (hstep : c.StepAt e known value fs) {l r : Int}
    (hvalues : c.operandValues? known o = some (l, r)) :
    c.evaluate o.left = .ok (.number (.int l)) ∧
      ∀ x ∈ o.right, c.evaluate x = .ok (.number (.int r)) := by
  rcases arithmetic_or_negated hop with harith | ⟨hneg, hright, v, hleft, -⟩
  · have hlit := (arithmetic_iff.1 harith).1
    have hsound : ∀ x ∈ o.operands, ∀ w, c.constant? known x = some w →
        c.evaluate x = .ok (.number (.int w)) := by
      intro x hx w hw
      have hknown := (constant?_eq_some_iff.1 hw).2
      rw [hstep.getElem?_of_mem_parts hids hlit (harith.mem_parts hx)] at hknown
      exact evaluate_of_constant hids (mem_visited_of_operand hvisited harith hx) hknown
    rw [harith.operandValues?_eq known] at hvalues
    obtain ⟨hl, hr, -⟩ := operands?_eq_some_iff.1 hvalues
    refine ⟨hsound o.left (by simp [IntOperation.operands]) l hl, fun x hx => ?_⟩
    exact hsound x (by simp [IntOperation.operands, Option.mem_def.1 hx]) r (hr x hx)
  · rw [operandValues?_of_negated hneg hleft] at hvalues
    obtain ⟨rfl, -⟩ := Prod.mk.inj (Option.some.inj hvalues)
    exact ⟨evaluate_of_form_eq_int hleft, by simp [hright]⟩

theorem constantFindings_isInfix (c : Context) (next : ℕ) :
    c.constantFindings <:+: (c.findings next).2 :=
  ⟨(c.lifetimeFindings next).2, c.coverageFindings ++ c.routingFindings,
    by simp [findings, List.append_assoc]⟩

/-- What is found at an operation in the wrapping mode whose literal operands fit its
type: a constant overflow for a constant zero divisor, and for the negation of a literal
if the type does not have the negative. Otherwise the operation has the value that
wrapping arithmetic gives for the values of its operands, as far as these are known; in a
body with distinct ids they are what the operands evaluate to. -/
theorem wrapping_rejected_iff (he : c.body.block.Contains e) (hop : c.operation? e = some o)
    (hmode : o.mode = .wrapping) (hlits : ∀ x ∈ o.operands, ∀ v, x.form = .int v → v ∈ o.type) :
    (∃ known value fs, c.StepAt e known value fs) ∧
    ∀ known value fs, c.StepAt e known value fs →
      (∀ next, fs <:+: (c.findings next).2) ∧
      ((∃ text, .problem ⟨.constantOverflow text, e.span⟩ ∈ fs) ↔
        o.NegatesMisfit ∨
          (o.op = .div ∨ o.op = .rem) ∧ ∃ l, c.operandValues? known o = some (l, 0)) ∧
      (∀ w, value = some w ↔ ¬ o.NegatesMisfit ∧
        ∃ l r, c.operandValues? known o = some (l, r) ∧ o.type.wrapping o.op l r = .ok w) ∧
      (c.body.block.DistinctIds → c.constants[e.id]? = value ∧
        ∀ l r, c.operandValues? known o = some (l, r) →
          c.evaluate o.left = .ok (.number (.int l)) ∧
          ∀ x ∈ o.right, c.evaluate x = .ok (.number (.int r))) := by
  have hvisited := mem_visited_of_contains he (form_ne_int_of_operation? hop)
  refine ⟨exists_stepAt hvisited, fun known value fs hstep => ⟨fun next => ?_, ?_, ?_, ?_⟩⟩
  · exact hstep.isInfix.trans (c.constantFindings_isInfix next)
  · exact hstep.outcome.reports_iff_of_wrapping hop hmode hlits
  · exact hstep.outcome.value_iff_of_wrapping hop hmode hlits
  · intro hids
    exact ⟨hstep.getElem?_constants hids,
      fun l r => hstep.evaluate_of_operandValues? hids hvisited hop⟩

end Context

namespace WrappedNegation

def byte (id : ℕ) (form : ExprForm) : Expr := ⟨id, .nowhere, .named "u8", form⟩

def one : Expr := byte 1 (.int 1)

def negated : Expr := byte 2 (.unary .neg .wrapping one)

def sum : Expr := byte 5 (.binary (byte 3 (.int 200)) .add .wrapping (byte 4 (.int 100)))

def body : Block := ⟨.nowhere, [.expr negated, .expr sum]⟩

def run : FunctionDecl := ⟨⟨"run", .nowhere⟩, [], [], none, false, some body⟩

def program : Program := ⟨[.function run]⟩

def session : Session := ((Session.start .default).register program).1.close.1

def context : Context :=
  session.context (TypeTable.ofBodies session.registry program.bodies) ⟨[], none, run, body⟩

theorem evaluated :
    context.types.expr negated = .int .u8 ∧ context.types.expr sum = .int .u8 ∧
      (context.findings 0).2.filterMap Finding.problem? = [.literalMisfit .u8 (-1) .nowhere] ∧
      ∀ fold elide, ((Session.start ⟨fold, elide, none⟩).check program).2.isOk = false := by
  decide +kernel

theorem exprs_eq :
    body.exprs = [one, negated, byte 3 (.int 200), byte 4 (.int 100), sum] := rfl

theorem contains_of_mem {e : Expr} (he : e ∈ body.exprs) : context.body.block.Contains e :=
  Block.mem_exprs_iff.1 he

theorem operation?_negated :
    context.operation? negated = some ⟨.u8, .neg, .wrapping, one, none⟩ := by
  rw [Context.operation?, evaluated.1]
  rfl

theorem operation?_sum : context.operation? sum =
    some ⟨.u8, .add, .wrapping, byte 3 (.int 200), some (byte 4 (.int 100))⟩ := by
  rw [Context.operation?, evaluated.2.1]
  rfl

theorem mem_of_literal {id : ℕ} {v : Int} (hv : v ∈ IntType.u8) (w : Int)
    (hform : (byte id (.int v)).form = .int w) : w ∈ IntType.u8 := by
  obtain rfl : v = w := ExprForm.int.inj hform
  exact hv

/-- Nothing is reported at the sum, and an overflow at the negation. -/
theorem wrapping_rejected_iff_bytes :
    (∃ known value fs, context.StepAt sum known value fs ∧
      ¬ ∃ text, .problem ⟨.constantOverflow text, sum.span⟩ ∈ fs) ∧
    ∃ known value fs, context.StepAt negated known value fs ∧
      ∃ text, .problem ⟨.constantOverflow text, negated.span⟩ ∈ fs := by
  constructor
  · obtain ⟨⟨known, value, fs, hstep⟩, hall⟩ := Context.wrapping_rejected_iff
      (contains_of_mem (by simp [exprs_eq])) operation?_sum rfl
      (List.forall_mem_cons.2 ⟨mem_of_literal (by decide),
        List.forall_mem_singleton.2 (mem_of_literal (by decide))⟩)
    obtain ⟨-, hreports, -⟩ := hall known value fs hstep
    refine ⟨known, value, fs, hstep, fun h => ?_⟩
    simpa [IntOperation.NegatesMisfit] using hreports.1 h
  · obtain ⟨⟨known, value, fs, hstep⟩, hall⟩ := Context.wrapping_rejected_iff
      (contains_of_mem (by simp [exprs_eq])) operation?_negated rfl
      (List.forall_mem_singleton.2 (mem_of_literal (by decide)))
    obtain ⟨-, hreports, -⟩ := hall known value fs hstep
    exact ⟨known, value, fs, hstep, hreports.2 (Or.inl ⟨rfl, 1, rfl, by decide⟩)⟩

/-- The wrapping negation of a literal of the type is a value of the type, and yet the
program is rejected for it under all options. -/
theorem wrapping_negation_rejected :
    (context.body.block.Contains negated ∧
      context.operation? negated = some ⟨.u8, .neg, .wrapping, one, none⟩ ∧
      one.form = .int 1 ∧ 1 ∈ IntType.u8 ∧ IntType.u8.wrapping .neg 1 0 = .ok 255) ∧
    (context.findings 0).2.filterMap Finding.problem? =
      [.literalMisfit .u8 (-1) negated.span] ∧
    ∀ fold elide, ((Session.start ⟨fold, elide, none⟩).check program).2.isOk = false := by
  obtain ⟨-, -, hproblems, hrejected⟩ := evaluated
  exact ⟨⟨contains_of_mem (by simp [exprs_eq]), operation?_negated, rfl, by decide, by decide⟩,
    hproblems, hrejected⟩

end WrappedNegation

end ProgramSafety
