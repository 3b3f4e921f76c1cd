import ProgramSafety.Proofs.Analysis.ConstantRun
import ProgramSafety.Proofs.Ownership.Uses
import ProgramSafety.Session

/-!
# What an analysis looks at

The analyses of a body look up the types of the expressions of the body and of no
others, and they never look at the limit for problems. A context with another limit
and another table of types, `Context.revise`, therefore has the same findings as long
as the tables agree on the body (`Context.findings_revise`). Each analysis is followed
from the fragment it visits to the expressions that the fragment is about. All analyses but
that of constants are indifferent to the other options too, and they look at the signatures
of the functions that are called only (`Context.amend`).
-/

namespace ProgramSafety

theorem transduce_congr {σ α β : Type} {step step' : σ → α → σ × List β} {as : List α}
    (h : ∀ a ∈ as, ∀ s, step s a = step' s a) (s : σ) :
    transduce step s as = transduce step' s as := by
  induction as generalizing s with
  | nil => rfl
  | cons a as ih =>
      have hrest := ih fun b hb => h b (List.mem_cons_of_mem _ hb)
      rw [transduce_cons, transduce_cons, h a List.mem_cons_self s, hrest]

structure TypeTable.AgreeAt (t t' : TypeTable) (e : Expr) : Prop where
  expr : t.expr e = t'.expr e
  binding : t.binding e = t'.binding e
  castTarget : t.castTarget e = t'.castTarget e

theorem TypeTable.AgreeAt.refl (t : TypeTable) (e : Expr) : t.AgreeAt t e := ⟨rfl, rfl, rfl⟩

namespace Context

variable {c : Context} {limit : Option ℕ} {types : TypeTable} {e : Expr} {n : Fragment}

def revise (c : Context) (limit : Option ℕ) (types : TypeTable) : Context :=
  { c with options := { c.options with limit := limit }, types := types }

/-! ## Ownership -/

theorem callee?_revise (h : ∀ x ∈ (Fragment.expr e).subjects, types.AgreeAt c.types x) :
    (c.revise limit types).callee? e = c.callee? e := by
  unfold callee?
  split
  · rfl
  next receiver method args hform =>
    have hreceiver : types.expr receiver = c.types.expr receiver :=
      (h receiver (Fragment.mem_subjects_of_mem_parts (by simp [hform, ExprForm.parts]))).expr
    exact congrArg (fun t => c.registry.methodSignature? t method) hreceiver
  · rfl

theorem argTransfers_revise {args : List Expr} (h : ∀ x ∈ args, types.AgreeAt c.types x)
    (params : List Ty) :
    (c.revise limit types).argTransfers args params = c.argTransfers args params := by
  induction args generalizing params with
  | nil => rfl
  | cons a args ih =>
      have hrest := ih fun x hx => h x (List.mem_cons_of_mem _ hx)
      have ha : types.expr a = c.types.expr a := (h a List.mem_cons_self).expr
      cases params with
      | nil =>
          rw [argTransfers, argTransfers, hrest, ← ha]
          rfl
      | cons t params => rw [argTransfers, argTransfers, hrest]

theorem fieldTransfers_revise {fields : List (String × Expr)}
    (h : ∀ f ∈ fields, types.AgreeAt c.types f.2) (t : Ty) :
    (c.revise limit types).fieldTransfers t fields = c.fieldTransfers t fields := by
  have happlied : (c.revise limit types).applied? t = c.applied? t := rfl
  rw [fieldTransfers, fieldTransfers, happlied]
  split
  · rfl
  · apply List.map_congr_left
    intro f hf
    exact congrArg (fun u => Transfer.mk f.2 (Option.getD _ u)) (h f hf).expr

theorem exprTransfers_revise (h : ∀ x ∈ (Fragment.expr e).subjects, types.AgreeAt c.types x) :
    (c.revise limit types).exprTransfers e = c.exprTransfers e := by
  have he : types.expr e = c.types.expr e := (h e (Fragment.mem_subjects_self e)).expr
  have hparts : ∀ x, .expr x ∈ e.form.parts → types.AgreeAt c.types x := fun x hx =>
    h x (Fragment.mem_subjects_of_mem_parts hx)
  have htypes : (c.revise limit types).types = types := rfl
  unfold exprTransfers
  rw [callee?_revise h, htypes, he]
  cases hform : e.form with
  | call path callee args =>
      exact argTransfers_revise (fun x hx => hparts x (by simp [hform, ExprForm.parts, hx])) _
  | methodCall receiver method args =>
      exact argTransfers_revise (fun x hx => hparts x (by simp [hform, ExprForm.parts, hx])) _
  | construct type fields =>
      refine fieldTransfers_revise (fun f hf => hparts f.2 ?_) _
      rw [hform]
      exact List.mem_map.2 ⟨f, hf, rfl⟩
  | _ => rfl

theorem uses_revise (h : ∀ x ∈ n.subjects, types.AgreeAt c.types x) :
    (c.revise limit types).uses n = c.uses n := by
  cases n with
  | expr e => rw [uses, uses, exprTransfers_revise h]
  | stmt s =>
      have hpart : ∀ x, .expr x ∈ (Fragment.stmt s).inside → types.AgreeAt c.types x := fun x hx =>
        h x (Fragment.mem_subjects_of_mem_inside hx)
      cases s with
      | bind name isMutable type init =>
          have hinit := (hpart init List.mem_cons_self).binding
          exact congrArg (fun t => [Use.transfer ⟨init, t⟩]) hinit
      | assign target value =>
          have htarget := (hpart target List.mem_cons_self).expr
          exact congrArg (fun t => [Use.overwrite target value, .transfer ⟨value, t⟩]) htarget
      | raise span value =>
          have hvalue := (hpart value List.mem_cons_self).expr
          exact congrArg (fun t => [Use.transfer ⟨value, t⟩]) hvalue
      | ret value => cases value <;> rfl
      | _ => rfl
  | block role b => rfl

theorem useFindings_revise {u : Use} (h : types.AgreeAt c.types u.expr) :
    (c.revise limit types).useFindings u = c.useFindings u := by
  cases u with
  | transfer x =>
      have hvalue : types.expr x.value = c.types.expr x.value := h.expr
      simp only [useFindings, transferFindings, revise, hvalue]
  | reach base =>
      have hbase : types.expr base = c.types.expr base := h.expr
      simp only [useFindings, readThrough, revise, hbase]
  | overwrite target value =>
      have htarget : types.expr target = c.types.expr target := h.expr
      simp only [useFindings, overwritten, revise, htarget]

theorem rawProblems_revise (h : ∀ x ∈ n.subjects, types.AgreeAt c.types x) (here : Setting) :
    (c.revise limit types).rawProblems here n = c.rawProblems here n := by
  cases n with
  | expr e =>
      have hraw : (c.revise limit types).rawUse? e = c.rawUse? e := by
        unfold rawUse?
        split
        · rfl
        next inner hform =>
          have hinner : types.expr inner = c.types.expr inner :=
            (h inner (Fragment.mem_subjects_of_mem_parts (by simp [hform, ExprForm.parts]))).expr
          simp only [revise, hinner]
        · rfl
      rw [rawProblems, rawProblems, hraw]
  | stmt s => rfl
  | block role b => rfl

theorem ownershipFindings_revise {v : Visit} (hv : v.event = n.enter ∨ v.event = n.leave)
    (h : ∀ x ∈ n.subjects, types.AgreeAt c.types x) :
    (c.revise limit types).ownershipFindings v = c.ownershipFindings v := by
  obtain ⟨here, event⟩ := v
  obtain rfl | rfl := hv
  · cases n with
    | stmt s =>
        cases s with
        | bind name isMutable type init =>
            have hinit : types.binding init = c.types.binding init :=
              (h init (Fragment.mem_subjects_of_mem_inside List.mem_cons_self)).binding
            simp only [ownershipFindings, Fragment.enter, revise, hinit]
        | _ => rfl
    | expr e => rfl
    | block role b => rfl
  · have huses : ∀ u ∈ c.uses n, (c.revise limit types).useFindings u = c.useFindings u := by
      intro u hu
      have hchild : u.expr ∈ n.children :=
        (c.map_expr_uses_sublist n).subset (List.mem_map.2 ⟨u, hu, rfl⟩)
      have hsubject := Fragment.mem_subjects_of_mem_inside
        (Fragment.mem_inside_of_mem_children hchild)
      exact useFindings_revise (h u.expr hsubject)
    rw [ownershipFindings_leave, ownershipFindings_leave, rawProblems_revise h, uses_revise h,
      List.flatMap_congr huses]

theorem binders_revise {role : Role} {b : Block}
    (h : ∀ x ∈ (Fragment.block role b).subjects, types.AgreeAt c.types x) :
    (c.revise limit types).binders role = c.binders role := by
  cases role with
  | arm scrutinee pattern =>
      have hscrutinee : types.expr scrutinee = c.types.expr scrutinee :=
        (h scrutinee (List.mem_singleton.2 rfl)).expr
      have htypes : (c.revise limit types).types.expr scrutinee = c.types.expr scrutinee :=
        hscrutinee
      rw [binders, binders, htypes]
      rfl
  | _ => rfl

theorem scopeStep_revise {event : Event} (hevent : event = n.enter ∨ event = n.leave)
    (h : ∀ x ∈ n.subjects, types.AgreeAt c.types x) (s : Lifetimes) :
    (c.revise limit types).scopeStep s event = c.scopeStep s event := by
  obtain rfl | rfl := hevent
  · cases n with
    | block role b => exact congrArg s.openScope (binders_revise h)
    | expr e => rfl
    | stmt s => rfl
  · cases n with
    | stmt stmt =>
        cases stmt with
        | bind name isMutable type init =>
            have hinit : types.binding init = c.types.binding init :=
              (h init (Fragment.mem_subjects_of_mem_inside List.mem_cons_self)).binding
            simp only [scopeStep, Fragment.leave, revise, hinit]
        | _ => rfl
    | expr e => rfl
    | block role b => rfl

def Agrees (c : Context) (types : TypeTable) : Prop :=
  ∀ e, c.body.block.Contains e → types.AgreeAt c.types e

theorem Agrees.of_mem_subjects (h : c.Agrees types) (hn : c.body.block.Has n) :
    ∀ x ∈ n.subjects, types.AgreeAt c.types x :=
  fun x hx => h x (hn.contains_of_mem_subjects hx)

theorem lifetimeFindings_revise (h : c.Agrees types) (limit : Option ℕ) (next : ℕ) :
    (c.revise limit types).lifetimeFindings next = c.lifetimeFindings next := by
  have hstep : ∀ v ∈ c.body.block.tour, ∀ s,
      (c.revise limit types).lifetimeStep s v = c.lifetimeStep s v := by
    intro v hv s
    obtain ⟨n, hn, hevent⟩ := Block.has_of_mem_tour hv
    have hsubjects := h.of_mem_subjects hn
    rw [lifetimeStep, lifetimeStep, scopeStep_revise hevent hsubjects,
      ownershipFindings_revise hevent hsubjects]
  have hrun := transduce_congr hstep (.start next)
  rw [lifetimeFindings, lifetimeFindings, ← hrun]
  rfl

/-! ## Constants -/

theorem literal?_revise (h : types.AgreeAt c.types e) :
    (c.revise limit types).literal? e = c.literal? e := by
  simp only [literal?, revise, h.expr]

theorem operation?_revise (h : types.AgreeAt c.types e) :
    (c.revise limit types).operation? e = c.operation? e := by
  simp only [operation?, revise, h.expr]

theorem constantStep_revise (h : ∀ x ∈ (Fragment.expr e).subjects, types.AgreeAt c.types x)
    (known : Constants) :
    (c.revise limit types).constantStep known e = c.constantStep known e := by
  have he := h e (Fragment.mem_subjects_self e)
  have hparts : ∀ x, .expr x ∈ e.form.parts → types.expr x = c.types.expr x := fun x hx =>
    (h x (Fragment.mem_subjects_of_mem_parts hx)).expr
  rw [constantStep, constantStep, literal?_revise he, operation?_revise he]
  split
  · rfl
  · split
    · rfl
    · cases hform : e.form with
      | cast inner form target =>
          have hinner := hparts inner (by simp [hform, ExprForm.parts])
          simp only [castStep, revise, hinner, he.castTarget]
          rfl
      | index base index =>
          have hbase := hparts base (by simp [hform, ExprForm.parts])
          have hindex := hparts index (by simp [hform, ExprForm.parts])
          simp only [indexFindings, revise, hbase, hindex]
      | _ => rfl

theorem visited_revise (h : c.Agrees types) (limit : Option ℕ) :
    (c.revise limit types).visited = c.visited := by
  have hvisits : Fragment.visits (fun e => ((c.revise limit types).literal? e).isNone) .outermost
      (.block .body c.body.block) = Fragment.visits (fun e => (c.literal? e).isNone) .outermost
      (.block .body c.body.block) := by
    refine Fragment.visits_congr (fun e he => ?_) _
    rw [literal?_revise (h e he)]
  exact congrArg (List.filterMap (·.event.left?)) hvisits

theorem constantFindings_revise (h : c.Agrees types) (limit : Option ℕ) :
    (c.revise limit types).constantFindings = c.constantFindings := by
  have hstep : ∀ e ∈ c.visited, ∀ known,
      (c.revise limit types).constantStep known e = c.constantStep known e := by
    intro e he known
    have hhas : c.body.block.Has (.expr e) := Block.has_expr_iff.2 (contains_of_mem_visited he)
    exact constantStep_revise (h.of_mem_subjects hhas) known
  rw [constantFindings_eq_transduce, constantFindings_eq_transduce, visited_revise h,
    transduce_congr hstep]

/-! ## Matches and failures -/

theorem matchFindings_revise {scrutinee : Expr} (h : types.AgreeAt c.types scrutinee) (node : ℕ)
    (span : Span) (patterns : List Pattern) :
    (c.revise limit types).matchFindings node span scrutinee patterns =
      c.matchFindings node span scrutinee patterns := by
  have htypes : (c.revise limit types).types.expr scrutinee = c.types.expr scrutinee := h.expr
  rw [matchFindings, matchFindings, htypes]
  rfl

theorem coverageVisit_revise {v : Visit} (hv : v.event = n.enter ∨ v.event = n.leave)
    (h : ∀ x ∈ n.subjects, types.AgreeAt c.types x) :
    (c.revise limit types).coverageVisit v = c.coverageVisit v := by
  obtain ⟨here, event⟩ := v
  obtain rfl | rfl := hv
  · cases n <;> rfl
  · cases n with
    | expr e =>
        cases hform : e.form with
        | matchOn span scrutinee arms =>
            have hscrutinee : types.AgreeAt c.types scrutinee :=
              h scrutinee (Fragment.mem_subjects_of_mem_parts (by simp [hform, ExprForm.parts]))
            simp only [coverageVisit, Fragment.leave, hform]
            exact matchFindings_revise hscrutinee _ _ _
        | _ => simp only [coverageVisit, Fragment.leave, hform]
    | stmt s => rfl
    | block role b => rfl

theorem routingVisit_revise {v : Visit} (hv : v.event = n.enter ∨ v.event = n.leave)
    (h : ∀ x ∈ n.subjects, types.AgreeAt c.types x) :
    (c.revise limit types).routingVisit v = c.routingVisit v := by
  have hpoint : (c.revise limit types).failurePoint? v.event = c.failurePoint? v.event := by
    obtain ⟨here, event⟩ := v
    obtain rfl | rfl := hv
    · cases n <;> rfl
    · cases n with
      | expr e => simp only [failurePoint?, Fragment.leave, callee?_revise h]
      | stmt s => cases s <;> rfl
      | block role b => rfl
  rw [routingVisit, routingVisit, hpoint]
  rfl

/-- The findings of a body depend on the types of its expressions only, and on no limit. -/
theorem findings_revise (h : c.Agrees types) (limit : Option ℕ) (next : ℕ) :
    (c.revise limit types).findings next = c.findings next := by
  have hcoverage : (c.revise limit types).coverageFindings = c.coverageFindings := by
    apply List.flatMap_congr
    intro v hv
    obtain ⟨n, hn, hevent⟩ := Block.has_of_mem_tour hv
    exact coverageVisit_revise hevent (h.of_mem_subjects hn)
  have hrouting : (c.revise limit types).routingFindings = c.routingFindings := by
    apply List.flatMap_congr
    intro v hv
    obtain ⟨n, hn, hevent⟩ := Block.has_of_mem_tour hv
    exact routingVisit_revise hevent (h.of_mem_subjects hn)
  rw [findings, findings, lifetimeFindings_revise h, constantFindings_revise h, hcoverage, hrouting]

/-! ## Options and signatures -/

variable {o : Options} {g : Signatures}

def amend (c : Context) (o : Options) (g : Signatures) : Context :=
  { c with options := o, signatures := g }

/-- The calls of the body are made against the same functions. -/
def CalleesAgree (c : Context) (o : Options) (g : Signatures) : Prop :=
  ∀ e, c.body.block.Contains e → (c.amend o g).callee? e = c.callee? e

theorem argTransfers_amend (args : List Expr) (params : List Ty) :
    (c.amend o g).argTransfers args params = c.argTransfers args params := by
  induction args generalizing params with
  | nil => rfl
  | cons a args ih =>
      cases params with
      | nil =>
          rw [argTransfers, argTransfers, ih]
          rfl
      | cons t params => rw [argTransfers, argTransfers, ih]

theorem exprTransfers_amend (h : (c.amend o g).callee? e = c.callee? e) :
    (c.amend o g).exprTransfers e = c.exprTransfers e := by
  unfold exprTransfers
  rw [h]
  cases e.form with
  | call path callee args => exact argTransfers_amend args _
  | methodCall receiver method args => exact argTransfers_amend args _
  | _ => rfl

theorem ownershipFindings_amend (h : c.CalleesAgree o g) (hn : c.body.block.Has n)
    {v : Visit} (hv : v.event = n.enter ∨ v.event = n.leave) :
    (c.amend o g).ownershipFindings v = c.ownershipFindings v := by
  obtain ⟨here, event⟩ := v
  obtain rfl | rfl := hv
  · cases n with
    | stmt s => cases s <;> rfl
    | expr e => rfl
    | block role b => rfl
  · have huses : (c.amend o g).uses n = c.uses n := by
      cases n with
      | expr e => rw [uses, uses, exprTransfers_amend (h e (Block.has_expr_iff.1 hn))]
      | stmt s =>
          cases s with
          | ret value => cases value <;> rfl
          | _ => rfl
      | block role b => rfl
    rw [ownershipFindings_leave, ownershipFindings_leave, huses]
    rfl

/-- Ownership depends on the functions that are called, and not on options. -/
theorem lifetimeFindings_amend (h : c.CalleesAgree o g) (next : ℕ) :
    (c.amend o g).lifetimeFindings next = c.lifetimeFindings next := by
  have hstep : ∀ v ∈ c.body.block.tour, ∀ s,
      (c.amend o g).lifetimeStep s v = c.lifetimeStep s v := by
    intro v hv s
    obtain ⟨n, hn, hevent⟩ := Block.has_of_mem_tour hv
    rw [lifetimeStep, lifetimeStep, ownershipFindings_amend h hn hevent]
    rfl
  have hrun := transduce_congr hstep (.start next)
  rw [lifetimeFindings, lifetimeFindings, ← hrun]
  rfl

theorem coverageFindings_amend : (c.amend o g).coverageFindings = c.coverageFindings := rfl

theorem routingVisit_amend (h : c.CalleesAgree o g) (hn : c.body.block.Has n)
    {v : Visit} (hv : v.event = n.enter ∨ v.event = n.leave) :
    (c.amend o g).routingVisit v = c.routingVisit v := by
  have hpoint : (c.amend o g).failurePoint? v.event = c.failurePoint? v.event := by
    obtain ⟨here, event⟩ := v
    obtain rfl | rfl := hv
    · cases n <;> rfl
    · cases n with
      | expr e => simp only [failurePoint?, Fragment.leave, h e (Block.has_expr_iff.1 hn)]
      | stmt s => cases s <;> rfl
      | block role b => rfl
  rw [routingVisit, routingVisit, hpoint]
  rfl

/-- The routes of failures depend on the functions that are called, and not on options. -/
theorem routingFindings_amend (h : c.CalleesAgree o g) :
    (c.amend o g).routingFindings = c.routingFindings := by
  apply List.flatMap_congr
  intro v hv
  obtain ⟨n, hn, hevent⟩ := Block.has_of_mem_tour hv
  exact routingVisit_amend h hn hevent

end Context

end ProgramSafety
