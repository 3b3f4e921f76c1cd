import ProgramSafety.Proofs.Analysis.Evaluation

/-!
# Folding agrees with evaluation

A constant of the body is the value that `Context.evaluate` gives, and a folded
marker carries that value. Where everything an operation or an asserting cast
needs is constant, a constant overflow is reported exactly if the evaluation
faults.
-/

namespace ProgramSafety

namespace Context

/-- Every cast has the type it casts to, unless its result is optional. -/
def CastsTyped (c : Context) : Prop :=
  ∀ e inner form target, c.body.block.Contains e → e.form = .cast inner form target →
    form ≠ .fallible → c.types.expr e = c.types.castTarget e

def ReportsOverflow (c : Context) (e : Expr) : Prop :=
  ∃ text, .problem ⟨.constantOverflow text, e.span⟩ ∈ c.findingsAt e

variable {c : Context} {known : Constants} {e : Expr} {o : IntOperation} {l r v : Int}

/-! ## Constants -/

/-- An operation evaluates to what it gives for the constants of its operands,
provided these are right. -/
theorem Arithmetic.evaluate_of_operands? (h : c.Arithmetic e o)
    (hsound : ∀ x ∈ o.operands, ∀ w, known[x.id]? = some w →
      c.evaluate x = .ok (.number (.int w)))
    (hargs : c.operands? known o = some (l, r)) :
    c.evaluate e =
      (Obstacle.orFault (o.mode.apply o.type o.op l r)).map (.number <| .int ·) := by
  obtain ⟨hl, hr, hnone⟩ := operands?_eq_some_iff.1 hargs
  refine h.evaluate_eq ?_ ?_ hnone
  · exact hsound o.left (by simp [IntOperation.operands]) l (constant?_eq_some_iff.1 hl).2
  · intro x hx
    refine hsound x ?_ r (constant?_eq_some_iff.1 (hr x hx)).2
    simp [IntOperation.operands, Option.mem_def.1 hx]

/-- A constant is the value of its expression. -/
theorem evaluate_of_constant (hids : c.body.block.DistinctIds) (he : e ∈ c.visited)
    (hv : c.constants[e.id]? = some v) : c.evaluate e = .ok (.number (.int v)) := by
  induction e using Fragment.induction_expr generalizing v with
  | step e ih =>
      have hout := outcome_of_mem hids he
      generalize c.constants[e.id]? = value, c.findingsAt e = fs at hout hv
      cases hout with
      | literal hlit hmem =>
          obtain rfl := Option.some.inj hv
          exact evaluate_of_literal hlit hmem
      | @operation o value fs harith hout =>
          have hsound : ∀ x ∈ o.operands, ∀ w, c.constants[x.id]? = some w →
              c.evaluate x = .ok (.number (.int w)) := by
            intro x hx w hw
            exact ih x (harith.mem_parts hx) (mem_visited_of_operand he harith hx) hw
          cases hout with
          | computed hargs hresult =>
              obtain rfl := Option.some.inj hv
              rw [harith.evaluate_of_operands? hsound hargs, hresult]
              rfl
          | _ => cases hv
      | @cast inner form target value fs hform hout =>
          cases hout with
          | computed hcheck harg ht hresult =>
              have hinner := ih inner (by simp [hform, ExprForm.parts])
                (mem_visited_of_cast he hform) (constant?_eq_some_iff.1 harg).2
              rw [evaluate_of_cast hform ht hinner, hresult, ← Evaluated.ofCast_of_constant? hv]
              rfl
          | _ => cases hv
      | _ => cases hv

theorem numeric?_eq_some_int_iff {t : Ty} {i : IntType} :
    t.numeric? = some (.int i) ↔ t = .int i := by
  cases t <;> simp [Ty.numeric?]

/-- A constant lies in the integer type of its expression. -/
theorem type_of_constant (hids : c.body.block.DistinctIds) (hcasts : c.CastsTyped)
    (he : e ∈ c.visited) (hv : c.constants[e.id]? = some v) :
    ∃ t, c.types.expr e = .int t ∧ v ∈ t := by
  have hout := outcome_of_mem hids he
  generalize c.constants[e.id]? = value, c.findingsAt e = fs at hout hv
  cases hout with
  | literal hlit hmem =>
      obtain rfl := Option.some.inj hv
      exact ⟨_, type_of_literal? hlit, hmem⟩
  | operation harith hout =>
      cases hout with
      | computed hargs hresult =>
          obtain rfl := Option.some.inj hv
          exact ⟨_, harith.type_eq, ArithMode.mem_of_apply hresult⟩
      | _ => cases hv
  | @cast inner form target value fs hform hout =>
      cases hout with
      | computed hcheck harg ht hresult =>
          obtain ⟨hne, rfl⟩ := CastForm.constant?_eq_some_iff.1 hv
          obtain ⟨i, rfl, hmem⟩ := (CastForm.holds_of_apply hresult).eq_int
          have htarget : c.types.castTarget e = .int i := numeric?_eq_some_int_iff.1 ht
          rw [hcasts e inner form target (contains_of_mem_visited he) hform hne]
          exact ⟨i, htarget, hmem⟩
      | _ => cases hv
  | _ => cases hv

/-! ## Markers -/

theorem exists_mem_visited_of_mem_findings (hids : c.body.block.DistinctIds) {f : Finding}
    (hf : f ∈ c.constantFindings) : ∃ e ∈ c.visited, f ∈ c.findingsAt e := by
  rw [constantFindings_eq hids] at hf
  exact List.mem_flatMap.1 hf

theorem evaluate_of_folded (hids : c.body.block.DistinctIds) {node : ℕ}
    (hm : .marker (.folded node v) ∈ c.constantFindings) :
    ∃ e, c.body.block.Contains e ∧ e.id = node ∧ c.evaluate e = .ok (.number (.int v)) := by
  obtain ⟨e, he, hm⟩ := exists_mem_visited_of_mem_findings hids hm
  have hout := outcome_of_mem hids he
  have hnode := hout.node_eq hm
  exact ⟨e, contains_of_mem_visited he, hnode.symm,
    evaluate_of_constant hids he (hout.value_of_folded hm)⟩

theorem evaluate_of_foldedCast (hids : c.body.block.DistinctIds) {node : ℕ} {form : CastForm}
    {value : Option Scalar} (hm : .marker (.foldedCast node form value) ∈ c.constantFindings) :
    ∃ e inner target, c.body.block.Contains e ∧ e.id = node ∧ e.form = .cast inner form target ∧
      c.evaluate e = .ok (.ofCast form value) := by
  obtain ⟨e, he, hm⟩ := exists_mem_visited_of_mem_findings hids hm
  have hout := outcome_of_mem hids he
  have hnode := hout.node_eq hm
  obtain ⟨inner, target, v, t, hform, harg, ht, hvalue⟩ := hout.apply_of_foldedCast hm
  refine ⟨e, inner, target, contains_of_mem_visited he, hnode.symm, hform, ?_⟩
  have hinner := evaluate_of_constant hids (mem_visited_of_cast he hform)
    (constant?_eq_some_iff.1 harg).2
  rw [evaluate_of_cast hform ht hinner, hvalue]
  rfl

/-! ## Faults -/

theorem exists_operands? (hfold : c.options.foldConstants = true)
    (hconst : ∀ x ∈ o.operands, ∃ v, known[x.id]? = some v) :
    ∃ l r, c.operands? known o = some (l, r) := by
  obtain ⟨l, hl⟩ := hconst o.left (by simp [IntOperation.operands])
  have hleft := constant?_eq_some_iff.2 ⟨hfold, hl⟩
  cases hright : o.right with
  | none => exact ⟨l, 0, operands?_eq_some_iff.2 ⟨hleft, by simp [hright], fun _ => rfl⟩⟩
  | some x =>
      obtain ⟨r, hr⟩ := hconst x (by simp [IntOperation.operands, hright])
      have hx := constant?_eq_some_iff.2 ⟨hfold, hr⟩
      exact ⟨l, r, operands?_eq_some_iff.2 ⟨hleft, by simpa [hright] using hx, by simp [hright]⟩⟩

theorem reportsOverflow_iff_of_arithmetic (hids : c.body.block.DistinctIds)
    (hfold : c.options.foldConstants = true) (he : c.body.block.Contains e)
    (harith : c.Arithmetic e o) (hconst : ∀ x ∈ o.operands, ∃ v, c.constants[x.id]? = some v) :
    c.ReportsOverflow e ↔ ∃ f, c.evaluate e = .error (.fault f) := by
  have hvisited := mem_visited_of_contains he harith.form_ne_int
  have hsound : ∀ x ∈ o.operands, ∀ w, c.constants[x.id]? = some w →
      c.evaluate x = .ok (.number (.int w)) := by
    intro x hx w hw
    exact evaluate_of_constant hids (mem_visited_of_operand hvisited harith hx) hw
  obtain ⟨l, r, hargs⟩ := exists_operands? hfold hconst
  obtain ⟨value, hout⟩ := c.exists_operationOutcome_findingsAt harith
  rw [ReportsOverflow, harith.evaluate_of_operands? hsound hargs]
  generalize c.findingsAt e = fs at hout
  cases hout with
  | deferred hnone => simp [hargs] at hnone
  | computed hargs' hresult =>
      obtain ⟨rfl, rfl⟩ := Prod.mk.inj (Option.some.inj (hargs.symm.trans hargs'))
      simp [hresult, Obstacle.orFault, Except.map]
  | fails hargs' hf =>
      obtain ⟨rfl, rfl⟩ := Prod.mk.inj (Option.some.inj (hargs.symm.trans hargs'))
      simp [hf, Obstacle.orFault, Except.map, Problem.constantFault]

theorem reportsOverflow_iff_of_asserting (hids : c.body.block.DistinctIds)
    (hcasts : c.CastsTyped) (hfold : c.options.foldConstants = true)
    (he : c.body.block.Contains e) {inner : Expr} {target : TypeRef}
    (hform : e.form = .cast inner .asserting target) (hv : c.constants[inner.id]? = some v) :
    c.ReportsOverflow e ↔ ∃ f, c.evaluate e = .error (.fault f) := by
  have hvisited := mem_visited_of_contains he (by simp [hform])
  have hinner := mem_visited_of_cast hvisited hform
  obtain ⟨i, hi, -⟩ := type_of_constant hids hcasts hinner hv
  have harg := constant?_eq_some_iff.2 ⟨hfold, hv⟩
  obtain ⟨value, hout⟩ := c.exists_castOutcome_findingsAt hform
  rw [ReportsOverflow]
  generalize c.findingsAt e = fs at hout
  cases ht : (c.types.castTarget e).numeric? with
  | none =>
      -- Nothing is evaluated, and what may be reported is an invalid cast.
      rw [evaluate_of_cast_eq_input hform ht]
      cases hout with
      | invalid hcheck => simp [Problem.invalidCastOf]
      | fails hcheck harg ht' hf => simp [ht] at ht'
      | _ => simp
  | some t =>
      obtain ⟨check, hok⟩ := exists_castCheck?_eq (by rw [hi]; rfl) ht .asserting
      rw [evaluate_of_cast hform ht (evaluate_of_constant hids hinner hv)]
      cases hout with
      | untyped hcheck => simp [hcheck] at hok
      | invalid hcheck => simp [hcheck] at hok
      | deferred hcheck harg' => simp [harg, ht] at harg'
      | computed hcheck harg' ht' hresult =>
          obtain rfl := Option.some.inj (harg.symm.trans harg')
          obtain rfl := Option.some.inj (ht.symm.trans ht')
          simp [hresult, Obstacle.orFault, Except.map]
      | fails hcheck harg' ht' hf =>
          obtain rfl := Option.some.inj (harg.symm.trans harg')
          obtain rfl := Option.some.inj (ht.symm.trans ht')
          simp [hf, Obstacle.orFault, Except.map]

/-- Folding agrees with evaluation: on the constants, which also lie in their types,
on the markers of folded operations and casts, and on the constant overflows, for which
every operation and asserting cast of constants is visited. -/
theorem folding_agrees_evaluate (hids : c.body.block.DistinctIds) (hcasts : c.CastsTyped)
    (hfold : c.options.foldConstants = true) :
    (∀ e v, c.body.block.Contains e → c.constants[e.id]? = some v →
      c.evaluate e = .ok (.number (.int v)) ∧ ∃ t, c.types.expr e = .int t ∧ v ∈ t) ∧
    (∀ node v, .marker (.folded node v) ∈ c.constantFindings →
      ∃ e, c.body.block.Contains e ∧ e.id = node ∧ c.evaluate e = .ok (.number (.int v))) ∧
    (∀ node form value, .marker (.foldedCast node form value) ∈ c.constantFindings →
      ∃ e inner target, c.body.block.Contains e ∧ e.id = node ∧
        e.form = .cast inner form target ∧ c.evaluate e = .ok (.ofCast form value)) ∧
    c.constantFindings = c.visited.flatMap c.findingsAt ∧
    (∀ e o, c.body.block.Contains e → c.Arithmetic e o →
      (∀ x ∈ o.operands, ∃ v, c.constants[x.id]? = some v) →
        e ∈ c.visited ∧ (c.ReportsOverflow e ↔ ∃ f, c.evaluate e = .error (.fault f))) ∧
    (∀ e inner target v, c.body.block.Contains e → e.form = .cast inner .asserting target →
      c.constants[inner.id]? = some v →
        e ∈ c.visited ∧ (c.ReportsOverflow e ↔ ∃ f, c.evaluate e = .error (.fault f))) := by
  refine ⟨?_, fun node v hm => evaluate_of_folded hids hm,
    fun node form value hm => evaluate_of_foldedCast hids hm, constantFindings_eq hids, ?_, ?_⟩
  · intro e v he hv
    have hvisited := mem_visited_of_constant hids he hv
    exact ⟨evaluate_of_constant hids hvisited hv, type_of_constant hids hcasts hvisited hv⟩
  · intro e o he harith hconst
    exact ⟨mem_visited_of_contains he harith.form_ne_int,
      reportsOverflow_iff_of_arithmetic hids hfold he harith hconst⟩
  · intro e inner target v he hform hv
    exact ⟨mem_visited_of_contains he (by simp [hform]),
      reportsOverflow_iff_of_asserting hids hcasts hfold he hform hv⟩

end Context

namespace MixedConstants

def node (id : ℕ) (form : ExprForm) : Expr := ⟨id, ⟨0, 0⟩, .named "i16", form⟩

/-- A hundred and minus the literal minus twenty-eight, wrapping in eight bits. -/
def wrapped : Expr :=
  node 3 (.binary (node 0 (.int 100)) .sub .wrapping
    (node 1 (.unary .neg .checked (node 2 (.int 28)))))

def sum : Expr :=
  node 5 (.binary (node 4 (.cast wrapped .asserting (.named "i16"))) .add .checked
    (node 6 (.int 1000)))

def narrowed : Expr := node 7 (.cast (node 8 (.int 300)) .asserting (.named "u8"))

def context : Context where
  options := .default
  registry := .empty
  signatures := .empty
  types :=
    ⟨.ofList [(0, Ty.int .i8), (1, Ty.int .i8), (2, Ty.int .i8), (3, Ty.int .i8),
      (4, Ty.int .i16), (5, Ty.int .i16), (6, Ty.int .i16), (7, Ty.int .u8), (8, Ty.int .i16)],
      ∅, .ofList [(4, Ty.int .i16), (7, Ty.int .u8)]⟩
  body := ⟨[], none, ⟨⟨"f", ⟨0, 0⟩⟩, [], [], none, false, none⟩,
    ⟨⟨0, 0⟩, [.expr sum, .expr narrowed]⟩⟩

theorem distinctIds : context.body.block.DistinctIds :=
  (by decide : (context.body.block.exprs.map Expr.id).Nodup)

theorem exprs_eq : context.body.block.exprs = [node 0 (.int 100), node 2 (.int 28),
    node 1 (.unary .neg .checked (node 2 (.int 28))), wrapped,
    node 4 (.cast wrapped .asserting (.named "i16")), node 6 (.int 1000), sum,
    node 8 (.int 300), narrowed] := rfl

theorem castsTyped : context.CastsTyped := by
  intro e inner form target he hform hne
  rw [← Block.mem_exprs_iff, exprs_eq] at he
  simp only [List.mem_cons, List.not_mem_nil, or_false] at he
  rcases he with rfl | rfl | rfl | rfl | rfl | rfl | rfl | rfl | rfl
  all_goals cases hform
  all_goals decide

/-- A sum of constants is computed through a wrapping operation and a cast; the
other cast of a constant is reported. -/
theorem folding_agrees_evaluate_mixed :
    (context.constants[5]? = some 872 ∧ context.evaluate sum = .ok (.number (.int 872)) ∧
      ∃ t, context.types.expr sum = .int t ∧ 872 ∈ t) ∧
    (context.constants[8]? = some 300 ∧ narrowed ∈ context.visited ∧
      (context.ReportsOverflow narrowed ↔
        ∃ f, context.evaluate narrowed = .error (.fault f))) := by
  obtain ⟨hconst, -, -, -, -, hcast⟩ :=
    Context.folding_agrees_evaluate distinctIds castsTyped (c := context) rfl
  have hsum : context.constants[5]? = some 872 := by decide
  have hoperand : context.constants[8]? = some 300 := by decide
  refine ⟨⟨hsum, hconst sum 872 ?_ hsum⟩, hoperand,
    hcast narrowed (node 8 (.int 300)) (.named "u8") 300 ?_ rfl hoperand⟩
  · exact Block.mem_exprs_iff.1 (by simp [exprs_eq])
  · exact Block.mem_exprs_iff.1 (by simp [exprs_eq])

end MixedConstants

end ProgramSafety
