import ProgramSafety.Analysis.Constant
import ProgramSafety.Proofs.Tree.Fragment

/-!
# A step in the search for constants

`Context.Outcome` lists everything that leaving an expression can do: which value
is entered for it and what is found. Statements about the search are proved by
going through this list. A step reads nothing but the values of the immediate
parts of its expression (`Context.Outcome.congr`).
-/

namespace ProgramSafety

def Constants.enter (known : Constants) (node : ℕ) : Option Int → Constants
  | none => known
  | some v => known.insert node v

theorem Constants.getElem?_enter (known : Constants) (node n : ℕ) (value : Option Int) :
    (known.enter node value)[n]? = if node = n then value.or known[n]? else known[n]? := by
  cases value with
  | none => simp [enter]
  | some v => simp [enter, Std.TreeMap.getElem?_insert]

def CastForm.constant? (form : CastForm) : Option Scalar → Option Int
  | some (.int v) => if form = .fallible then none else some v
  | _ => none

theorem CastForm.constant?_eq_some_iff {form : CastForm} {value : Option Scalar} {v : Int} :
    form.constant? value = some v ↔ form ≠ .fallible ∧ value = some (.int v) := by
  rcases value with _ | w | x
  · simp [constant?]
  · simp [constant?]
  · simp [constant?]

theorem Ty.int?_eq_some_iff {t : Ty} {i : IntType} : t.int? = some i ↔ t = .int i := by
  cases t <;> simp [int?]

def IntOperation.operands (o : IntOperation) : List Expr := o.left :: o.right.toList

namespace Context

variable {c : Context} {known known' : Constants} {e : Expr} {o : IntOperation}
  {value : Option Int} {fs : List Finding}

/-! ## Arithmetic -/

/-- The expression is integer arithmetic: one of the five operators, or a negation
of something else than a literal, at an integer type. -/
inductive Arithmetic (c : Context) (e : Expr) : IntOperation → Prop where
  | binary {l r : Expr} {op : BinaryOp} {op' : IntOp} {mode : ArithMode} {t : IntType}
      (hform : e.form = .binary l op mode r) (hop : op.intOp? = some op')
      (ht : c.types.expr e = .int t) : Arithmetic c e ⟨t, op', mode, l, some r⟩
  | neg {inner : Expr} {mode : ArithMode} {t : IntType}
      (hform : e.form = .unary .neg mode inner) (hinner : ∀ v, inner.form ≠ .int v)
      (ht : c.types.expr e = .int t) : Arithmetic c e ⟨t, .neg, mode, inner, none⟩

theorem arithmetic_iff : c.Arithmetic e o ↔ c.literal? e = none ∧ c.operation? e = some o := by
  constructor
  · intro h
    cases h with
    | binary hform hop ht => simp [literal?, operation?, hform, hop, ht, Ty.int?]
    | @neg inner mode t hform hinner ht =>
        obtain ⟨id, span, type, form⟩ := inner
        cases form with
        | int v => exact absurd rfl (hinner v)
        | _ => simp [literal?, operation?, hform, ht, Ty.int?]
  · rintro ⟨hlit, hop⟩
    cases ht : (c.types.expr e).int? with
    | none => simp [operation?, ht] at hop
    | some t =>
        rw [operation?, ht] at hop
        rw [literal?, ht] at hlit
        have ht := Ty.int?_eq_some_iff.1 ht
        cases hform : e.form with
        | binary l op mode r =>
            simp only [hform, Option.map_eq_some_iff] at hop
            obtain ⟨op', hop', rfl⟩ := hop
            exact .binary hform hop' ht
        | unary op mode inner =>
            cases op with
            | neg =>
                simp only [hform, Option.some.injEq] at hop
                subst hop
                refine .neg hform ?_ ht
                intro v hinner
                obtain ⟨id, span, type, form⟩ := inner
                subst hinner
                simp [hform] at hlit
            | not => simp [hform] at hop
        | _ => simp [hform] at hop

namespace Arithmetic

theorem form_ne_int (h : c.Arithmetic e o) (v : Int) : e.form ≠ .int v := by
  cases h with
  | binary hform hop ht => simp [hform]
  | neg hform hinner ht => simp [hform]

theorem type_eq (h : c.Arithmetic e o) : c.types.expr e = .int o.type := by
  cases h with
  | binary hform hop ht => exact ht
  | neg hform hinner ht => exact ht

theorem mem_parts (h : c.Arithmetic e o) {x : Expr} (hx : x ∈ o.operands) :
    .expr x ∈ e.form.parts := by
  cases h with
  | binary hform hop ht => simpa [hform, IntOperation.operands, ExprForm.parts] using hx
  | neg hform hinner ht => simpa [hform, IntOperation.operands, ExprForm.parts] using hx

theorem constantStep_eq (h : c.Arithmetic e o) (known : Constants) :
    c.constantStep known e = c.operationStep known e o := by
  obtain ⟨hlit, hop⟩ := arithmetic_iff.1 h
  rw [constantStep, hlit]
  simp only [hop]

end Arithmetic

theorem type_of_literal? {t : IntType} {v : Int} (h : c.literal? e = some (t, v)) :
    c.types.expr e = .int t := by
  rw [literal?] at h
  split at h
  next ht _ =>
    obtain ⟨rfl, -⟩ := Prod.mk.inj (Option.some.inj h)
    exact Ty.int?_eq_some_iff.1 ht
  next ht _ =>
    obtain ⟨rfl, -⟩ := Prod.mk.inj (Option.some.inj h)
    exact Ty.int?_eq_some_iff.1 ht
  next => cases h

/-! ## Operands -/

theorem constant?_eq_some_iff {v : Int} :
    c.constant? known e = some v ↔ c.options.foldConstants = true ∧ known[e.id]? = some v := by
  rw [constant?]
  split
  next hfold => simp [hfold]
  next hfold => simp [hfold]

theorem operands?_eq_some_iff {l r : Int} :
    c.operands? known o = some (l, r) ↔
      c.constant? known o.left = some l ∧ (∀ x ∈ o.right, c.constant? known x = some r) ∧
        (o.right = none → r = 0) := by
  rw [operands?]
  cases hl : c.constant? known o.left with
  | none => simp
  | some l' =>
      cases hright : o.right with
      | none => simp [eq_comm]
      | some x =>
          cases hr : c.constant? known x with
          | none => simp [hr]
          | some r' => simp [hr]

theorem constant?_congr (h : known[e.id]? = known'[e.id]?) :
    c.constant? known e = c.constant? known' e := by
  rw [constant?, constant?, h]

theorem operands?_congr (h : ∀ x ∈ o.operands, known[x.id]? = known'[x.id]?) :
    c.operands? known o = c.operands? known' o := by
  have hright : o.right.map (c.constant? known) = o.right.map (c.constant? known') := by
    apply Option.map_congr
    intro x hx
    exact constant?_congr (h x (by simp [IntOperation.operands, Option.mem_def.1 hx]))
  rw [operands?, operands?, constant?_congr (h o.left (by simp [IntOperation.operands])), hright]

/-! ## Outcomes -/

/-- The check between the types of a cast, unless one of them is unknown. -/
def castCheck? (c : Context) (e inner : Expr) (form : CastForm) :
    Option (Except String CastCheck) :=
  if (c.types.expr inner).isUnknown || (c.types.castTarget e).isUnknown then none
  else some (form.checkBetween (c.types.expr inner) (c.types.castTarget e) c.options.elideCasts)

/-- Between types of numbers there are all casts. -/
theorem exists_castCheck?_eq {inner : Expr} {a b : NumericType}
    (hsource : (c.types.expr inner).numeric? = some a)
    (htarget : (c.types.castTarget e).numeric? = some b) (form : CastForm) :
    ∃ check, c.castCheck? e inner form = some (.ok check) := by
  have hknown : ∀ {t : Ty} {n : NumericType}, t.numeric? = some n → t.isUnknown = false := by
    intro t n h
    cases t <;> simp [Ty.numeric?, Ty.isUnknown] at h ⊢
  rw [castCheck?, hknown hsource, hknown htarget]
  simp only [CastForm.checkBetween, hsource, htarget]
  cases form <;> exact ⟨_, rfl⟩

inductive OperationOutcome (c : Context) (known : Constants) (e : Expr) (o : IntOperation) :
    Option Int → List Finding → Prop where
  | deferred (hargs : c.operands? known o = none) :
      OperationOutcome c known e o none [.marker (checkMarker o e.id)]
  | computed {l r v : Int} (hargs : c.operands? known o = some (l, r))
      (hv : o.mode.apply o.type o.op l r = .ok v) :
      OperationOutcome c known e o (some v) [.marker (.folded e.id v)]
  | fails {l r : Int} {f : Fault} (hargs : c.operands? known o = some (l, r))
      (hf : o.mode.apply o.type o.op l r = .error f) :
      OperationOutcome c known e o none [.problem (.constantFault o.type f e.span)]

inductive CastOutcome (c : Context) (known : Constants) (e inner : Expr) (form : CastForm) :
    Option Int → List Finding → Prop where
  | untyped (hcheck : c.castCheck? e inner form = none) : CastOutcome c known e inner form none []
  | invalid {reason : String} (hcheck : c.castCheck? e inner form = some (.error reason)) :
      CastOutcome c known e inner form none
        [.problem (.invalidCastOf (c.types.expr inner) (c.types.castTarget e) form reason e.span)]
  | deferred {check : CastCheck} (hcheck : c.castCheck? e inner form = some (.ok check))
      (harg : c.constant? known inner = none ∨ (c.types.castTarget e).numeric? = none) :
      CastOutcome c known e inner form none
        [.marker (.cast e.id form (c.types.expr inner) (c.types.castTarget e) check)]
  | computed {check : CastCheck} {v : Int} {t : NumericType} {result : Option Scalar}
      (hcheck : c.castCheck? e inner form = some (.ok check))
      (harg : c.constant? known inner = some v) (ht : (c.types.castTarget e).numeric? = some t)
      (hresult : form.apply (.int v) t = .ok result) :
      CastOutcome c known e inner form (form.constant? result)
        [.marker (.foldedCast e.id form result)]
  | fails {check : CastCheck} {v : Int} {t : NumericType} {f : Fault}
      (hcheck : c.castCheck? e inner form = some (.ok check))
      (harg : c.constant? known inner = some v) (ht : (c.types.castTarget e).numeric? = some t)
      (hf : form.apply (.int v) t = .error f) :
      CastOutcome c known e inner form none [.problem ⟨.constantOverflow f.message, e.span⟩]

/-- What leaving an expression can amount to: the value entered for it and the
findings. -/
inductive Outcome (c : Context) (known : Constants) (e : Expr) :
    Option Int → List Finding → Prop where
  | literal {t : IntType} {v : Int} (hlit : c.literal? e = some (t, v)) (hv : v ∈ t) :
      Outcome c known e (some v) []
  | misfit {t : IntType} {v : Int} (hlit : c.literal? e = some (t, v)) (hv : v ∉ t) :
      Outcome c known e none [.problem (.literalMisfit t v e.span)]
  | operation {o : IntOperation} {value : Option Int} {fs : List Finding}
      (harith : c.Arithmetic e o) (hout : c.OperationOutcome known e o value fs) :
      Outcome c known e value fs
  | cast {inner : Expr} {form : CastForm} {target : TypeRef} {value : Option Int}
      {fs : List Finding} (hform : e.form = .cast inner form target)
      (hout : c.CastOutcome known e inner form value fs) : Outcome c known e value fs
  | access {base index : Expr} (hform : e.form = .index base index) :
      Outcome c known e none (c.indexFindings known e base index)
  | idle (hlit : c.literal? e = none) (hop : c.operation? e = none)
      (hcast : ∀ inner form target, e.form ≠ .cast inner form target)
      (hindex : ∀ base index, e.form ≠ .index base index) :
      Outcome c known e none []

section Forms

variable {inner base index : Expr} {form : CastForm} {target : TypeRef}

theorem literal?_eq_none_of_cast (hform : e.form = .cast inner form target) :
    c.literal? e = none := by
  rw [literal?, hform]
  cases (c.types.expr e).int? <;> rfl

theorem literal?_eq_none_of_index (hform : e.form = .index base index) :
    c.literal? e = none := by
  rw [literal?, hform]
  cases (c.types.expr e).int? <;> rfl

theorem constantStep_of_cast (hform : e.form = .cast inner form target) (known : Constants) :
    c.constantStep known e = c.castStep known e inner form := by
  have hop : c.operation? e = none := by
    rw [operation?, hform]
    cases (c.types.expr e).int? <;> rfl
  rw [constantStep, literal?_eq_none_of_cast hform]
  simp only [hop, hform]

theorem constantStep_of_index (hform : e.form = .index base index) (known : Constants) :
    c.constantStep known e = (known, c.indexFindings known e base index) := by
  have hop : c.operation? e = none := by
    rw [operation?, hform]
    cases (c.types.expr e).int? <;> rfl
  rw [constantStep, literal?_eq_none_of_index hform]
  simp only [hop, hform]

end Forms

theorem castConstant_eq (form : CastForm) (known : Constants) (node : ℕ)
    (result : Option Scalar) :
    castConstant form known node result = known.enter node (form.constant? result) := by
  rcases result with _ | _ | _
  · rfl
  · rw [castConstant, CastForm.constant?]
    split <;> rfl
  · rfl

theorem OperationOutcome.operationStep_eq (h : c.OperationOutcome known e o value fs) :
    c.operationStep known e o = (known.enter e.id value, fs) := by
  cases h with
  | deferred hargs =>
      rw [operationStep, hargs]
      rfl
  | computed hargs hv =>
      rw [operationStep, hargs]
      simp only [hv]
      rfl
  | fails hargs hf =>
      rw [operationStep, hargs]
      simp only [hf]
      rfl

theorem castStep_eq_match (inner : Expr) (form : CastForm) :
    c.castStep known e inner form =
      match c.castCheck? e inner form with
      | none => (known, [])
      | some (.error reason) =>
        (known,
          [.problem (.invalidCastOf (c.types.expr inner) (c.types.castTarget e) form reason e.span)])
      | some (.ok check) =>
        match c.constant? known inner, (c.types.castTarget e).numeric? with
        | some v, some t =>
          match form.apply (.int v) t with
          | .ok result =>
            (castConstant form known e.id result, [.marker (.foldedCast e.id form result)])
          | .error f => (known, [.problem ⟨.constantOverflow f.message, e.span⟩])
        | _, _ =>
          (known, [.marker (.cast e.id form (c.types.expr inner) (c.types.castTarget e) check)]) := by
  rw [castStep, castCheck?]
  split
  · rfl
  · cases form.checkBetween (c.types.expr inner) (c.types.castTarget e) c.options.elideCasts <;> rfl

theorem CastOutcome.castStep_eq {inner : Expr} {form : CastForm}
    (h : c.CastOutcome known e inner form value fs) :
    c.castStep known e inner form = (known.enter e.id value, fs) := by
  rw [castStep_eq_match]
  cases h with
  | untyped hcheck =>
      rw [hcheck]
      rfl
  | invalid hcheck =>
      rw [hcheck]
      rfl
  | deferred hcheck harg =>
      rw [hcheck]
      rcases harg with harg | ht
      · simp only [harg]
        rfl
      · simp only [ht]
        cases c.constant? known inner <;> rfl
  | computed hcheck harg ht hresult =>
      rw [hcheck]
      simp only [harg, ht, hresult, castConstant_eq]
  | fails hcheck harg ht hf =>
      rw [hcheck]
      simp only [harg, ht, hf]
      rfl

/-- An outcome is what the step does. -/
theorem Outcome.constantStep_eq (h : c.Outcome known e value fs) :
    c.constantStep known e = (known.enter e.id value, fs) := by
  cases h with
  | literal hlit hv =>
      rw [constantStep, hlit]
      simp only [literalStep, if_pos hv]
      rfl
  | misfit hlit hv =>
      rw [constantStep, hlit]
      simp only [literalStep, if_neg hv]
      rfl
  | operation harith hout => rw [harith.constantStep_eq, hout.operationStep_eq]
  | cast hform hout => rw [constantStep_of_cast hform, hout.castStep_eq]
  | access hform =>
      rw [constantStep_of_index hform]
      rfl
  | idle hlit hop hcast hindex =>
      rw [constantStep, hlit]
      simp only [hop]
      rfl

theorem exists_operationOutcome (c : Context) (known : Constants) (e : Expr) (o : IntOperation) :
    ∃ value fs, c.OperationOutcome known e o value fs := by
  cases hargs : c.operands? known o with
  | none => exact ⟨_, _, .deferred hargs⟩
  | some lr =>
      cases hv : o.mode.apply o.type o.op lr.1 lr.2 with
      | ok v => exact ⟨_, _, .computed hargs hv⟩
      | error f => exact ⟨_, _, .fails hargs hv⟩

theorem exists_castOutcome (c : Context) (known : Constants) (e inner : Expr) (form : CastForm) :
    ∃ value fs, c.CastOutcome known e inner form value fs := by
  rcases hcheck : c.castCheck? e inner form with _ | reason | check
  · exact ⟨_, _, .untyped hcheck⟩
  · exact ⟨_, _, .invalid hcheck⟩
  · cases harg : c.constant? known inner with
    | none => exact ⟨_, _, .deferred hcheck (Or.inl harg)⟩
    | some v =>
        cases ht : (c.types.castTarget e).numeric? with
        | none => exact ⟨_, _, .deferred hcheck (Or.inr ht)⟩
        | some t =>
            cases hresult : form.apply (.int v) t with
            | ok result => exact ⟨_, _, .computed hcheck harg ht hresult⟩
            | error f => exact ⟨_, _, .fails hcheck harg ht hresult⟩

theorem exists_outcome (c : Context) (known : Constants) (e : Expr) :
    ∃ value fs, c.Outcome known e value fs := by
  cases hlit : c.literal? e with
  | some tv =>
      by_cases hv : tv.2 ∈ tv.1
      · exact ⟨_, _, .literal hlit hv⟩
      · exact ⟨_, _, .misfit hlit hv⟩
  | none =>
      cases hop : c.operation? e with
      | some o =>
          obtain ⟨value, fs, hout⟩ := c.exists_operationOutcome known e o
          exact ⟨value, fs, .operation (arithmetic_iff.2 ⟨hlit, hop⟩) hout⟩
      | none =>
          by_cases hcast : ∃ inner form target, e.form = .cast inner form target
          · obtain ⟨inner, form, target, hform⟩ := hcast
            obtain ⟨value, fs, hout⟩ := c.exists_castOutcome known e inner form
            exact ⟨value, fs, .cast hform hout⟩
          · by_cases hindex : ∃ base index, e.form = .index base index
            · obtain ⟨base, index, hform⟩ := hindex
              exact ⟨_, _, .access hform⟩
            · exact ⟨_, _, .idle hlit hop (fun i f t h => hcast ⟨i, f, t, h⟩)
                (fun b i h => hindex ⟨b, i, h⟩)⟩

/-- A literal is entered or reported. -/
theorem Outcome.of_literal {t : IntType} {v : Int} (h : c.Outcome known e value fs)
    (hlit : c.literal? e = some (t, v)) :
    (v ∈ t ∧ value = some v ∧ fs = []) ∨
      (v ∉ t ∧ value = none ∧ fs = [.problem (.literalMisfit t v e.span)]) := by
  cases h with
  | literal hlit' hv =>
      obtain ⟨rfl, rfl⟩ := Prod.mk.inj (Option.some.inj (hlit'.symm.trans hlit))
      exact Or.inl ⟨hv, rfl, rfl⟩
  | misfit hlit' hv =>
      obtain ⟨rfl, rfl⟩ := Prod.mk.inj (Option.some.inj (hlit'.symm.trans hlit))
      exact Or.inr ⟨hv, rfl, rfl⟩
  | operation harith => simp [(arithmetic_iff.1 harith).1] at hlit
  | cast hform => simp [literal?_eq_none_of_cast hform] at hlit
  | access hform => simp [literal?_eq_none_of_index hform] at hlit
  | idle hnone => simp [hnone] at hlit

theorem Outcome.of_arithmetic (h : c.Outcome known e value fs) (harith : c.Arithmetic e o) :
    c.OperationOutcome known e o value fs := by
  obtain ⟨hlit, hop⟩ := arithmetic_iff.1 harith
  have hcast : ∀ inner form target, e.form ≠ .cast inner form target := by
    intro inner form target hform
    cases harith <;> simp_all
  have hindex : ∀ base index, e.form ≠ .index base index := by
    intro base index hform
    cases harith <;> simp_all
  cases h with
  | literal hlit' => simp [hlit] at hlit'
  | misfit hlit' => simp [hlit] at hlit'
  | operation harith' hout =>
      obtain rfl := Option.some.inj (hop.symm.trans (arithmetic_iff.1 harith').2)
      exact hout
  | cast hform => exact absurd hform (hcast _ _ _)
  | access hform => exact absurd hform (hindex _ _)
  | idle _ hnone => simp [hop] at hnone

/-! ## What a step reads -/

theorem OperationOutcome.congr (h : c.OperationOutcome known e o value fs)
    (hargs' : c.operands? known o = c.operands? known' o) :
    c.OperationOutcome known' e o value fs := by
  cases h with
  | deferred hargs => exact .deferred (hargs'.symm.trans hargs)
  | computed hargs hv => exact .computed (hargs'.symm.trans hargs) hv
  | fails hargs hf => exact .fails (hargs'.symm.trans hargs) hf

theorem CastOutcome.congr {inner : Expr} {form : CastForm}
    (h : c.CastOutcome known e inner form value fs)
    (harg' : c.constant? known inner = c.constant? known' inner) :
    c.CastOutcome known' e inner form value fs := by
  cases h with
  | untyped hcheck => exact .untyped hcheck
  | invalid hcheck => exact .invalid hcheck
  | deferred hcheck harg => exact .deferred hcheck (harg' ▸ harg)
  | computed hcheck harg ht hresult =>
      exact .computed hcheck (harg'.symm.trans harg) ht hresult
  | fails hcheck harg ht hf => exact .fails hcheck (harg'.symm.trans harg) ht hf

/-- A step reads the values of the immediate parts of the expression only, and of
a literal none. -/
theorem Outcome.congr (h : c.Outcome known e value fs)
    (hparts : c.literal? e = none → ∀ x, .expr x ∈ e.form.parts → known[x.id]? = known'[x.id]?) :
    c.Outcome known' e value fs := by
  cases h with
  | literal hlit hv => exact .literal hlit hv
  | misfit hlit hv => exact .misfit hlit hv
  | operation harith hout =>
      apply Outcome.operation harith
      apply hout.congr
      apply operands?_congr
      intro x hx
      exact hparts (arithmetic_iff.1 harith).1 x (harith.mem_parts hx)
  | @cast inner form target value fs hform hout =>
      apply Outcome.cast hform
      apply hout.congr
      apply constant?_congr
      exact hparts (literal?_eq_none_of_cast hform) inner (by simp [hform, ExprForm.parts])
  | @access base index hform =>
      have hindex : known[index.id]? = known'[index.id]? :=
        hparts (literal?_eq_none_of_index hform) index (by simp [hform, ExprForm.parts])
      have hfindings : c.indexFindings known e base index = c.indexFindings known' e base index := by
        rw [indexFindings, indexFindings, hindex]
      rw [hfindings]
      exact .access hform
  | idle hlit hop hcast hindex => exact .idle hlit hop hcast hindex

/-! ## What a step finds -/

/-- An access is a problem with the index, or it is checked if the base is an array. -/
theorem indexFindings_cases (c : Context) (known : Constants) (e base index : Expr) :
    (∃ p, p.kind = .invalidIndex ∧ c.indexFindings known e base index = [.problem p]) ∨
      c.indexFindings known e base index =
        match c.types.expr base with
        | .array _ => [.marker (.bounds e.id)]
        | _ => [] := by
  rw [indexFindings]
  by_cases hneg : (known[index.id]?).any (· < 0) = true
  · left
    rw [if_pos hneg]
    split
    · exact ⟨_, rfl, rfl⟩
    · exact ⟨_, rfl, rfl⟩
    · exact ⟨_, rfl, rfl⟩
  · rw [if_neg hneg]
    split
    · exact Or.inr rfl
    · exact Or.inr rfl
    · exact Or.inl ⟨_, rfl, rfl⟩

theorem eq_bounds_of_mem_indexFindings {base index : Expr} {m : Marker}
    (hm : .marker m ∈ c.indexFindings known e base index) : m = .bounds e.id := by
  rcases c.indexFindings_cases known e base index with ⟨p, -, hp⟩ | hchecked
  · simp [hp] at hm
  · rw [hchecked] at hm
    split at hm
    · simpa using hm
    · simp at hm

theorem node_checkMarker (o : IntOperation) (node : ℕ) : (checkMarker o node).node = node := by
  rw [checkMarker]
  cases o.mode <;> rfl

/-- The markers of a step are at its expression. -/
theorem Outcome.node_eq {m : Marker} (h : c.Outcome known e value fs) (hm : .marker m ∈ fs) :
    m.node = e.id := by
  cases h with
  | operation harith hout =>
      cases hout with
      | deferred hargs =>
          obtain rfl : m = checkMarker _ e.id := by simpa using hm
          exact node_checkMarker _ _
      | computed hargs hv =>
          obtain rfl : m = .folded e.id _ := by simpa using hm
          rfl
      | fails hargs hf => simp at hm
  | cast hform hout =>
      cases hout with
      | deferred hcheck harg =>
          obtain rfl : m = .cast e.id _ _ _ _ := by simpa using hm
          rfl
      | computed hcheck harg ht hresult =>
          obtain rfl : m = .foldedCast e.id _ _ := by simpa using hm
          rfl
      | _ => simp at hm
  | access hform =>
      rw [eq_bounds_of_mem_indexFindings hm]
      rfl
  | _ => simp at hm

/-- An operation is folded to its constant. -/
theorem Outcome.value_of_folded {node : ℕ} {v : Int} (h : c.Outcome known e value fs)
    (hm : .marker (.folded node v) ∈ fs) : value = some v := by
  cases h with
  | @operation o value fs harith hout =>
      cases hout with
      | deferred hargs =>
          have heq : Marker.folded node v = checkMarker o e.id := by simpa using hm
          rw [checkMarker] at heq
          split at heq <;> cases heq
      | computed hargs hv =>
          obtain ⟨-, rfl⟩ : node = e.id ∧ v = _ := by simpa using hm
          rfl
      | fails hargs hf => simp at hm
  | cast hform hout => cases hout <;> simp at hm
  | access hform => cases eq_bounds_of_mem_indexFindings hm
  | _ => simp at hm

/-- A cast is folded if its operand is constant and the target a number type. -/
theorem Outcome.apply_of_foldedCast {node : ℕ} {form : CastForm} {result : Option Scalar}
    (h : c.Outcome known e value fs) (hm : .marker (.foldedCast node form result) ∈ fs) :
    ∃ inner target v t, e.form = .cast inner form target ∧
      c.constant? known inner = some v ∧ (c.types.castTarget e).numeric? = some t ∧
      form.apply (.int v) t = .ok result := by
  cases h with
  | @operation o value fs harith hout =>
      cases hout with
      | deferred hargs =>
          have heq : Marker.foldedCast node form result = checkMarker o e.id := by simpa using hm
          rw [checkMarker] at heq
          split at heq <;> cases heq
      | computed hargs hv => simp at hm
      | fails hargs hf => simp at hm
  | cast hform hout =>
      cases hout with
      | computed hcheck harg ht hresult =>
          obtain ⟨-, rfl, rfl⟩ : node = e.id ∧ form = _ ∧ result = _ := by simpa using hm
          exact ⟨_, _, _, _, hform, harg, ht, hresult⟩
      | _ => simp at hm
  | access hform => cases eq_bounds_of_mem_indexFindings hm
  | _ => simp at hm

end Context

end ProgramSafety
