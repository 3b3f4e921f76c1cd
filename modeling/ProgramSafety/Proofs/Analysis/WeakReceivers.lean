import ProgramSafety.Proofs.Analysis.FailureRoutes
import ProgramSafety.Proofs.Ownership.TransferObligations

/-!
# Throwing methods of weak receivers

A method can be called on an object or on a weak reference to it. The analysis of ownership
takes the second as a call on the object that the reference observes, and has it checked that
the object is there. The analysis of failures looks the method up on the type of the receiver
as it is, and a weak reference has no methods. So the call of a throwing method is routed
exactly if its receiver is not weak, and what is called through weak receivers may fail
anywhere in an accepted body (`Context.throwing_calls_routed`). The program in `FailingLink`
does so.
-/

namespace ProgramSafety

namespace Ty

variable {t u : Ty}

/-- What a weak reference observes, in an optional or not. -/
def observed? : Ty → Option Ty
  | weak t | optional (weak t) => some t
  | _ => none

def object (t : Ty) : Ty := t.observed?.getD t

theorem eq_of_observed? (ht : t.observed? = some u) : t = weak u ∨ t = optional (weak u) := by
  unfold observed? at ht
  split at ht
  next => exact Or.inl (congrArg weak (Option.some.inj ht))
  next => exact Or.inr (congrArg (fun x => optional (weak x)) (Option.some.inj ht))
  next => cases ht

end Ty

namespace Registry

variable {r : Registry} {t u : Ty}

theorem kindOf_of_observed? (ht : t.observed? = some u) : r.kindOf t = .weakRef := by
  obtain rfl | rfl := Ty.eq_of_observed? ht
  · rfl
  · rfl

theorem methodSignature?_of_observed? (ht : t.observed? = some u) (method : String) :
    r.methodSignature? t method = none := by
  obtain rfl | rfl := Ty.eq_of_observed? ht
  · rfl
  · rfl

end Registry

namespace Context

variable {c : Context} {e receiver : Expr} {s : Signature} {u : Ty} {f : FailurePoint}

/-- The expression calls a throwing method of the object that its receiver stands for. -/
def ThrowsOn (c : Context) (e receiver : Expr) (s : Signature) : Prop :=
  ∃ method args, e.form = .methodCall receiver method args ∧
    c.registry.methodSignature? (c.types.expr receiver).object method = some s ∧ s.throws = true

def callFailure (e : Expr) (s : Signature) : FailurePoint := ⟨e.id, s.name, e.span⟩

namespace ThrowsOn

theorem failsAt (h : c.ThrowsOn e receiver s) (hstrong : (c.types.expr receiver).observed? = none) :
    c.FailsAt (.expr e) (callFailure e s) := by
  obtain ⟨method, args, hform, hcallee, hthrows⟩ := h
  rw [Ty.object, hstrong, Option.getD_none] at hcallee
  exact .methodCall hform hcallee hthrows

theorem not_failsAt (h : c.ThrowsOn e receiver s)
    (hweak : (c.types.expr receiver).observed? = some u) : ¬ c.FailsAt (.expr e) f := by
  obtain ⟨method, args, hform, -, -⟩ := h
  intro hf
  cases hf with
  | call hcall => cases hform.symm.trans hcall
  | methodCall hcall hcallee =>
      cases hform.symm.trans hcall
      rw [Registry.methodSignature?_of_observed? hweak] at hcallee
      cases hcallee

theorem routingVisit_eq_nil (h : c.ThrowsOn e receiver s)
    (hweak : (c.types.expr receiver).observed? = some u) (here : Setting) :
    c.routingVisit ⟨here, .leaveExpr e⟩ = [] := by
  have hpoint : c.failurePoint? (.leaveExpr e) = none := by
    rw [Option.eq_none_iff_forall_ne_some]
    intro f hf
    exact h.not_failsAt hweak (failurePoint?_leave_iff.1 hf)
  rw [routingVisit_eq, hpoint]
  rfl

/-- With the object in place of the reference to it, the call is routed. -/
theorem routingVisit_retyped (h : c.ThrowsOn e receiver s) (here : Setting) {types : TypeTable}
    (htype : types.expr receiver = (c.types.expr receiver).object) :
    { c with types }.routingVisit ⟨here, .leaveExpr e⟩ =
      [c.failureFinding here (callFailure e s)] := by
  obtain ⟨method, args, hform, hcallee, hthrows⟩ := h
  rw [← htype] at hcallee
  have hf : { c with types }.FailsAt (.expr e) (callFailure e s) :=
    .methodCall hform hcallee hthrows
  have hpoint : { c with types }.failurePoint? (.leaveExpr e) = some (callFailure e s) :=
    failurePoint?_leave_iff.2 hf
  rw [routingVisit_eq, hpoint]
  rfl

/-- The object of a weak receiver is checked to be there. -/
theorem weakRead_mem (h : c.ThrowsOn e receiver s) (he : c.body.block.Has (.expr e))
    (hweak : (c.types.expr receiver).observed? = some u) (next : ℕ) :
    .weakRead receiver.id ∈ c.obligationsAt next receiver.id := by
  obtain ⟨method, args, hform, -, -⟩ := h
  refine mem_obligationsAt_iff.2 ⟨.reach receiver, ?_, rfl, ?_⟩
  · refine List.mem_flatMap.2 ⟨_, Block.mem_fragments_iff.2 he, ?_⟩
    simp [uses, reached, hform]
  · simp [useObligations, useFindings, readThrough, Registry.kindOf_of_observed? hweak,
      Finding.obligation?]

/-- A call on a weak receiver has no route, unless it is itself thrown. -/
theorem routes_eq_none (h : c.ThrowsOn e receiver s) (hids : c.body.block.DistinctIds)
    (he : c.body.block.Has (.expr e)) (hweak : (c.types.expr receiver).observed? = some u)
    (hraise : ∀ span, ¬ c.body.block.Has (.stmt (.raise span e))) : c.routes[e.id]? = none := by
  have hsame : ∀ {x : Expr}, c.body.block.Has (.expr x) → x.id = e.id → x = e := fun hx hid =>
    hids.eq_of_id_eq (Block.has_expr_iff.1 hx) (Block.has_expr_iff.1 he) hid
  apply Context.routes_eq_none
  intro n f hn hf hnode
  cases hf with
  | call hform hcallee hthrows =>
      obtain rfl := hsame hn hnode
      exact h.not_failsAt hweak (.call hform hcallee hthrows)
  | methodCall hform hcallee hthrows =>
      obtain rfl := hsame hn hnode
      exact h.not_failsAt hweak (.methodCall hform hcallee hthrows)
  | @raise span value =>
      have hinside : Fragment.expr value ∈ (Fragment.stmt (.raise span value)).inside := by
        simp [Fragment.inside, Fragment.parts, Stmt.parts]
      obtain rfl := hsame (Fragment.Within.trans (.inside hinside .here) hn) hnode
      exact hraise span hn

end ThrowsOn

/-! ## Acceptance -/

variable {n : Fragment}

theorem FailsAt.escape_mem (hf : c.FailsAt n f) (hids : c.body.block.DistinctIds)
    (hn : c.body.block.Has n) (hguard : ¬ c.Guards n) (hthrows : c.body.func.throws = false) :
    .problem (c.escapeProblem f) ∈ c.routingFindings := by
  obtain ⟨here, hv⟩ := Block.mem_tour_iff_has.2 hn
  rw [← hf.guarded_iff hids hv, Bool.not_eq_true] at hguard
  refine mem_routingFindings_iff.2 ⟨here, n, f, hv, hf, ?_⟩
  rw [failureFinding, route?_eq_none_iff.2 ⟨hguard, hthrows⟩]

theorem FailsAt.routes_iff (hf : c.FailsAt n f) (hids : c.body.block.DistinctIds)
    (hn : c.body.block.Has n) :
    (c.routes[f.node]? = some .caught ↔ c.Guards n) ∧
      (c.routes[f.node]? = some .propagate ↔ ¬ c.Guards n ∧ c.body.func.throws = true) := by
  obtain ⟨here, hv⟩ := Block.mem_tour_iff_has.2 hn
  rw [routes_of_failsAt hids hf hv, ← hf.guarded_iff hids hv, route?]
  cases here.guarded <;> cases c.body.func.throws <;> simp

/-- The call of a throwing method is caught, propagates or is a problem if its receiver is the
object itself. If the receiver is a weak reference, the object is checked to be there, but the
call is passed over, where with the object as receiver it would be routed. So if nothing is
reported about the failures of a function that does not throw, its calls of throwing methods
all stand in the bodies of `try` statements exactly if those on weak receivers do. -/
theorem throwing_calls_routed (hids : c.body.block.DistinctIds) (next : ℕ) :
    (∀ e receiver s, c.body.block.Has (.expr e) → c.ThrowsOn e receiver s →
      (c.types.expr receiver).observed? ≠ none →
      .weakRead receiver.id ∈ c.obligationsAt next receiver.id ∧
      (∀ here, c.routingVisit ⟨here, .leaveExpr e⟩ = []) ∧
      (∀ here types, types.expr receiver = (c.types.expr receiver).object →
        { c with types }.routingVisit ⟨here, .leaveExpr e⟩ =
          [c.failureFinding here (callFailure e s)]) ∧
      ((∀ span, ¬ c.body.block.Has (.stmt (.raise span e))) → c.routes[e.id]? = none)) ∧
    (∀ e receiver s, c.body.block.Has (.expr e) → c.ThrowsOn e receiver s →
      (c.types.expr receiver).observed? = none →
      (c.routes[e.id]? = some .caught ↔ c.Guards (.expr e)) ∧
      (c.routes[e.id]? = some .propagate ↔
        ¬ c.Guards (.expr e) ∧ c.body.func.throws = true) ∧
      (¬ c.Guards (.expr e) → c.body.func.throws = false →
        .problem ⟨.propagation s.name c.body.name, e.span⟩ ∈ c.routingFindings)) ∧
    (c.body.func.throws = false → (∀ p, .problem p ∉ c.routingFindings) →
      ((∀ e receiver s, c.body.block.Has (.expr e) → c.ThrowsOn e receiver s →
          c.Guards (.expr e)) ↔
        ∀ e receiver s, c.body.block.Has (.expr e) → c.ThrowsOn e receiver s →
          (c.types.expr receiver).observed? ≠ none → c.Guards (.expr e))) := by
  refine ⟨?_, ?_, ?_⟩
  · intro e receiver s he hcall hreceiver
    obtain ⟨u, hweak⟩ := Option.ne_none_iff_exists'.1 hreceiver
    exact ⟨hcall.weakRead_mem he hweak next, hcall.routingVisit_eq_nil hweak,
      fun here types htype => hcall.routingVisit_retyped here htype,
      hcall.routes_eq_none hids he hweak⟩
  · intro e receiver s he hcall hstrong
    have hf := hcall.failsAt hstrong
    obtain ⟨hcaught, hpropagate⟩ := hf.routes_iff hids he
    exact ⟨hcaught, hpropagate, hf.escape_mem hids he⟩
  · intro hthrows hnone
    constructor
    · intro hall e receiver s he hcall _
      exact hall e receiver s he hcall
    · intro hall e receiver s he hcall
      by_cases hstrong : (c.types.expr receiver).observed? = none
      · by_contra hguard
        exact hnone _ ((hcall.failsAt hstrong).escape_mem hids he hguard hthrows)
      · exact hall e receiver s he hcall hstrong

end Context

namespace FailingLink

def nodeType : TypeRef := .named "Node"

def linkType : TypeRef := .applied "Optional" [.applied "Weak" [nodeType]]

def link : Expr := ⟨1, .nowhere, linkType, .var "link"⟩

def node : Expr := ⟨3, .nowhere, nodeType, .var "node"⟩

def fail (id : ℕ) (receiver : Expr) : Expr :=
  ⟨id, .nowhere, .named "void", .methodCall receiver "fail" []⟩

def block (stmts : List Stmt) : Block := ⟨.nowhere, stmts⟩

def guarded : Block := block [.expr (fail 4 node)]

/-- The method is called on a link and, in a `try` statement, on a node. -/
def body : Block := block [.expr (fail 2 link), .attempt guarded none (block [])]

def run : FunctionDecl :=
  ⟨⟨"run", .nowhere⟩, [], [⟨⟨"link", .nowhere⟩, linkType⟩, ⟨⟨"node", .nowhere⟩, nodeType⟩],
    none, false, some body⟩

def program : Program where
  decls :=
    [.type (.classType
        ⟨⟨"Node", .nowhere⟩, [], [], [⟨⟨"fail", .nowhere⟩, [], [], none, true, none⟩]⟩),
      .function run]

def session : Session := ((Session.start .default).register program).1.close.1

def context : Context :=
  session.context (TypeTable.ofBodies session.registry program.bodies) ⟨[], none, run, body⟩

def signature : Signature := ⟨"Node.fail", [], .void, true, .nowhere⟩

theorem types_of_receivers :
    context.types.expr link = .optional (.weak (.adt 0 "Node" [])) ∧
      context.types.expr node = .adt 0 "Node" [] ∧
      context.registry.methodSignature? (.adt 0 "Node" []) "fail" = some signature := by
  decide +kernel

theorem distinctIds : context.body.block.DistinctIds :=
  (by decide : (body.exprs.map Expr.id).Nodup)

theorem throwsOn_link : context.ThrowsOn (fail 2 link) link signature := by
  refine ⟨"fail", [], rfl, ?_, rfl⟩
  rw [types_of_receivers.1]
  exact types_of_receivers.2.2

theorem throwsOn_node : context.ThrowsOn (fail 4 node) node signature := by
  refine ⟨"fail", [], rfl, ?_, rfl⟩
  rw [types_of_receivers.2.1]
  exact types_of_receivers.2.2

theorem has_link : context.body.block.Has (.expr (fail 2 link)) :=
  Block.has_of_getElem? (i := 1) rfl

theorem throwing_calls_routed_link :
    .weakRead 1 ∈ context.obligationsAt 0 1 ∧
      (∀ here, context.routingVisit ⟨here, .leaveExpr (fail 2 link)⟩ = []) ∧
      context.routes[4]? = some .caught := by
  obtain ⟨hweak, hstrong, -⟩ := Context.throwing_calls_routed distinctIds 0
  have hlink := hweak _ _ _ has_link throwsOn_link (by rw [types_of_receivers.1]; decide)
  have hnode := hstrong _ _ _ (Block.has_of_getElem? (i := 4) rfl) throwsOn_node
    (by rw [types_of_receivers.2.1]; rfl)
  have hguard : context.Guards (.expr (fail 4 node)) := by
    refine ⟨guarded, none, block [], Block.has_of_getElem? (i := 8) rfl, ?_⟩
    have hinner : ((Fragment.block .plain guarded).nested .outermost)[1]? =
        some (.expr (fail 4 node)) := rfl
    exact Fragment.mem_nested_iff.1 (List.mem_of_getElem? hinner)
  exact ⟨hlink.1, hlink.2.1, hnode.1.2 hguard⟩

/-- The program is accepted although its function, which does not throw, calls the throwing
method on the link outside of its `try` statement. -/
theorem failing_link_accepted :
    ((Session.start .default).check program).2.isOk = true ∧ program.bodies = [context.body] ∧
      context.body.func.throws = false ∧ context.body.block.Has (.expr (fail 2 link)) ∧
      context.types.expr link = .optional (.weak (.adt 0 "Node" [])) ∧
      context.ThrowsOn (fail 2 link) link signature ∧ ¬ context.Guards (.expr (fail 2 link)) ∧
      context.routes[2]? = none := by
  have hcheck : ((Session.start .default).check program).2.isOk = true ∧
      context.routes[2]? = none := by
    decide +kernel
  have hvisit : ⟨.outermost, (Fragment.expr (fail 2 link)).leave⟩ ∈ context.body.block.tour := by
    have htour : body.tour[5]? = some ⟨.outermost, (Fragment.expr (fail 2 link)).leave⟩ := rfl
    exact List.mem_of_getElem? htour
  have houtside : ¬ context.Guards (.expr (fail 2 link)) := by
    rw [Context.guards_iff_encloses,
      ← distinctIds.mark_iff .guarded (Or.inl (by simp [Fragment.own])) hvisit]
    exact Bool.false_ne_true
  exact ⟨hcheck.1, rfl, rfl, has_link, types_of_receivers.1, throwsOn_link, houtside, hcheck.2⟩

end FailingLink

end ProgramSafety
