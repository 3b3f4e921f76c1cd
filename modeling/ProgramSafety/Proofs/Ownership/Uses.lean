import ProgramSafety.Ownership.Lifetime
import ProgramSafety.Proofs.Analysis.Obligations
import ProgramSafety.Proofs.Tree.Nesting

/-!
# Uses of expressions

The ownership analysis speaks about an expression when it leaves the fragment
around it: the expression is moved somewhere, reached through, or overwritten.
`Context.uses` lists what a fragment does with its immediate parts. No part is
used twice, and no expression is part of two fragments, so in a body with distinct
ids the obligations at an expression are those of its one use
(`Context.recordedAt_of_mem_bodyUses`).
-/

namespace ProgramSafety

/-- What the fragment around it does with an expression. -/
inductive Use where
  | transfer (x : Transfer)
  | reach (base : Expr)
  | overwrite (target value : Expr)

def Use.expr : Use → Expr
  | transfer x => x.value
  | reach base => base
  | overwrite target _ => target

namespace Context

variable {c : Context}

def useFindings (c : Context) : Use → List Finding
  | .transfer x => c.transferFindings x
  | .reach base => c.readThrough base
  | .overwrite target value => c.overwritten (.assign target value)

def useObligations (c : Context) (u : Use) : List Obligation :=
  (c.useFindings u).filterMap Finding.obligation?

def uses (c : Context) : Fragment → List Use
  | .stmt (.assign target value) =>
    .overwrite target value :: (c.stmtTransfers (.assign target value)).map .transfer
  | .stmt s => (c.stmtTransfers s).map .transfer
  | .expr e => (reached e).map .reach ++ (c.exprTransfers e).map .transfer
  | .block .. => []

def rawProblems (c : Context) (here : Setting) : Fragment → List Problem
  | .expr e =>
    if here.rawAllowed then []
    else (c.rawUse? e).toList.map fun what => ⟨.unsafeContext what, e.span⟩
  | _ => []

/-! ## The findings of a visit -/

theorem ownershipFindings_leave (c : Context) (here : Setting) (n : Fragment) :
    c.ownershipFindings ⟨here, n.leave⟩ =
      (c.rawProblems here n).map .problem ++ (c.uses n).flatMap c.useFindings := by
  cases n with
  | expr e =>
      simp only [ownershipFindings, Fragment.leave, rawProblems, uses, List.flatMap_append,
        List.flatMap_map, useFindings]
      cases here.rawAllowed <;> simp
  | stmt s =>
      cases s <;>
        simp [ownershipFindings, Fragment.leave, rawProblems, uses, List.flatMap_map, useFindings,
          overwritten, stmtTransfers]
  | block role b => rfl

theorem ownershipFindings_enter (c : Context) (here : Setting) (n : Fragment) :
    ∃ ps : List Problem, c.ownershipFindings ⟨here, n.enter⟩ = ps.map .problem := by
  cases n with
  | expr e => exact ⟨[], rfl⟩
  | stmt s =>
      cases s with
      | bind name isMutable type init => exact ⟨_, rfl⟩
      | _ => exact ⟨[], rfl⟩
  | block role b => exact ⟨[], rfl⟩

theorem transferFindings_cases (c : Context) (x : Transfer) :
    c.transferFindings x = [] ∨ (∃ p, c.transferFindings x = [.problem p]) ∨
      ∃ o, c.transferFindings x = [.obligation o] ∧ o.anchor = .node x.value.id := by
  unfold transferFindings
  dsimp only
  split
  · exact Or.inl rfl
  · split
    · split
      · exact Or.inl rfl
      · split
        · split
          · exact Or.inr (Or.inr ⟨_, rfl, rfl⟩)
          · exact Or.inl rfl
        · split
          · exact Or.inr (Or.inr ⟨_, rfl, rfl⟩)
          · exact Or.inl rfl
        · exact Or.inr (Or.inl ⟨_, rfl⟩)
    · split
      · exact Or.inr (Or.inr ⟨_, rfl, rfl⟩)
      · split
        · exact Or.inr (Or.inr ⟨_, rfl, rfl⟩)
        · exact Or.inl rfl
    · split
      · exact Or.inr (Or.inr ⟨_, rfl, rfl⟩)
      · exact Or.inl rfl
    · exact Or.inl rfl

/-- A use requires at most one thing, and an obligation is one at the expression
used. -/
theorem useFindings_cases (c : Context) (u : Use) :
    c.useFindings u = [] ∨ (∃ p, c.useFindings u = [.problem p]) ∨
      ∃ o, c.useFindings u = [.obligation o] ∧ o.anchor = .node u.expr.id := by
  cases u with
  | transfer x => exact c.transferFindings_cases x
  | reach base =>
      rw [useFindings, readThrough]
      split
      · exact Or.inr (Or.inr ⟨_, rfl, rfl⟩)
      · exact Or.inl rfl
  | overwrite target value =>
      rw [useFindings, overwritten]
      split
      · exact Or.inr (Or.inr ⟨_, rfl, rfl⟩)
      · exact Or.inl rfl

theorem useObligations_cases (c : Context) (u : Use) :
    c.useObligations u = [] ∨ ∃ o, c.useObligations u = [o] ∧ o.anchor = .node u.expr.id := by
  rw [useObligations]
  obtain h | ⟨p, h⟩ | ⟨o, h, ho⟩ := c.useFindings_cases u
  · exact Or.inl (by rw [h]; rfl)
  · exact Or.inl (by rw [h]; rfl)
  · exact Or.inr ⟨o, by rw [h]; rfl, ho⟩

/-- The obligations of a visit, scopes apart, are those of the uses in the fragment
that it leaves. -/
theorem filterMap_ownershipFindings (c : Context) (v : Visit) :
    (c.ownershipFindings v).filterMap Finding.obligation? =
      (v.event.leftFragment?.toList.flatMap c.uses).flatMap c.useObligations := by
  have hproblems : ∀ ps : List Problem,
      (ps.map Finding.problem).filterMap Finding.obligation? = [] := by
    intro ps
    simp [List.filterMap_eq_nil_iff, Finding.obligation?]
  obtain ⟨here, event⟩ := v
  obtain ⟨n, rfl⟩ | ⟨n, rfl⟩ := event.enter_or_leave
  · obtain ⟨ps, hps⟩ := c.ownershipFindings_enter here n
    rw [hps, hproblems]
    simp
  · rw [ownershipFindings_leave, List.filterMap_append, hproblems, List.nil_append,
      List.filterMap_flatMap]
    simp only [Event.leftFragment?_leave, Option.toList_some, List.flatMap_singleton]
    rfl

/-! ## No part is used twice -/

theorem map_value_argTransfers (c : Context) (args : List Expr) (params : List Ty) :
    (c.argTransfers args params).map Transfer.value = args := by
  fun_induction argTransfers c args params <;> simp_all

theorem map_expr_transfer (xs : List Transfer) :
    (xs.map Use.transfer).map Use.expr = xs.map Transfer.value := by
  simp [Function.comp_def, Use.expr]

theorem map_value_fieldTransfers (c : Context) (t : Ty) (fields : List (String × Expr)) :
    ((c.fieldTransfers t fields).map Transfer.value).Sublist (fields.map (·.2)) := by
  rw [fieldTransfers]
  split
  · exact List.nil_sublist _
  · simp [Function.comp_def]

theorem map_value_payloadTransfers (c : Context) (t : Ty) (type : TypeRef) (name : String)
    (args : Arguments) :
    ((c.payloadTransfers t name args).map Transfer.value).Sublist
      ((ExprForm.variant type name args).parts.flatMap Fragment.own) := by
  rw [payloadTransfers]
  split
  · exact List.nil_sublist _
  · split
    · simp [ExprForm.parts, Function.comp_def]
    · simp [ExprForm.parts, Function.comp_def]
    · exact List.nil_sublist _

theorem map_expr_uses_sublist (c : Context) (n : Fragment) :
    ((c.uses n).map Use.expr).Sublist n.children := by
  cases n with
  | expr e =>
      obtain ⟨id, span, type, form⟩ := e
      rw [uses, List.map_append, map_expr_transfer, Fragment.children_expr]
      cases form with
      | call path callee args =>
          simp [reached, exprTransfers, ExprForm.parts, map_value_argTransfers]
      | methodCall receiver method args =>
          simp [reached, exprTransfers, ExprForm.parts, map_value_argTransfers, Use.expr,
            Fragment.own]
      | construct t fields =>
          simpa [reached, exprTransfers, ExprForm.parts] using c.map_value_fieldTransfers _ fields
      | variant t name args => exact c.map_value_payloadTransfers _ t name args
      | array items => simp [reached, exprTransfers, ExprForm.parts, Function.comp_def]
      | present | field => exact List.Sublist.refl _
      | _ => exact List.nil_sublist _
  | stmt s =>
      cases s with
      | ret value =>
          cases value with
          | none => exact List.Sublist.refl _
          | some e => exact List.Sublist.refl _
      | bind | assign | raise => exact List.Sublist.refl _
      | _ => exact List.nil_sublist _
  | block role b => exact List.nil_sublist _

/-! ## The obligations of a body -/

theorem exists_of_mem_transduce {σ α β : Type} {step : σ → α → σ × List β} {s : σ} {as : List α}
    {b : β} (hb : b ∈ (transduce step s as).2) : ∃ s', ∃ a ∈ as, b ∈ (step s' a).2 := by
  induction as generalizing s with
  | nil => simp at hb
  | cons a as ih =>
      rw [transduce_cons, List.mem_append] at hb
      rcases hb with hb | hb
      · exact ⟨s, a, List.mem_cons_self, hb⟩
      · obtain ⟨s', a', ha', hb⟩ := ih hb
        exact ⟨s', a', List.mem_cons_of_mem _ ha', hb⟩

theorem mem_transduce {σ α β : Type} {step : σ → α → σ × List β} {p : β → Prop}
    (hstep : ∀ s a, ∀ b ∈ (step s a).2, p b) {s : σ} {as : List α} {b : β}
    (hb : b ∈ (transduce step s as).2) : p b := by
  obtain ⟨s', a, -, hb⟩ := exists_of_mem_transduce hb
  exact hstep s' a b hb

def bodyUses (c : Context) : List Use := c.body.block.fragments.flatMap c.uses

theorem nodup_bodyUses (hids : c.body.block.DistinctIds) :
    (c.bodyUses.map fun u => u.expr.id).Nodup := by
  have hsub : (c.bodyUses.map Use.expr).Sublist
      (c.body.block.fragments.flatMap Fragment.children) := by
    rw [bodyUses, List.map_flatMap]
    exact List.Sublist.flatMap_right _ fun n _ => c.map_expr_uses_sublist n
  have hnodup := (hsub.map Expr.id).nodup hids.nodup_children
  rwa [List.map_map] at hnodup

theorem anchor_of_mem_declare {s : Lifetimes} {b : Binder} {o : Obligation}
    (ho : .obligation o ∈ (s.declare b).2) : o.anchor.isBinding = true := by
  unfold Lifetimes.declare at ho
  dsimp only at ho
  split at ho
  · obtain rfl : o = .retainBinder s.next b.paths := by simpa using ho
    rfl
  · simp at ho

/-- What happens to scopes is recorded at bindings. -/
theorem anchor_of_mem_scopeStep {s : Lifetimes} {event : Event} {o : Obligation}
    (ho : .obligation o ∈ (c.scopeStep s event).2) : o.anchor.isBinding = true := by
  cases event with
  | openBlock role b =>
      refine mem_transduce (p := fun f => ∀ o, f = .obligation o → o.anchor.isBinding = true)
        (fun s b f hf o hfo => ?_) ho o rfl
      exact anchor_of_mem_declare (hfo ▸ hf)
  | closeBlock role b =>
      change _ ∈ (s.closeScope _).2 at ho
      unfold Lifetimes.closeScope at ho
      split at ho
      · simp at ho
      · obtain ⟨l, -, ho⟩ := List.mem_flatMap.1 ho
        obtain ⟨path, -, ho⟩ := List.mem_map.1 ho
        obtain rfl := by simpa using ho
        rfl
  | leaveStmt stmt =>
      cases stmt with
      | bind name isMutable type init => exact anchor_of_mem_declare ho
      | _ => simp [scopeStep] at ho
  | enterStmt | enterExpr | leaveExpr => simp [scopeStep] at ho

theorem filterMap_transduce_lifetimeStep (c : Context) (s : Lifetimes) (vs : List Visit) :
    ((transduce c.lifetimeStep s vs).2.filterMap Finding.obligation?).filter
        (!·.anchor.isBinding) =
      ((vs.filterMap (·.event.leftFragment?)).flatMap c.uses).flatMap c.useObligations := by
  induction vs generalizing s with
  | nil => rfl
  | cons v vs ih =>
      have huses : ((c.ownershipFindings v).filterMap Finding.obligation?).filter
          (!·.anchor.isBinding) = (c.ownershipFindings v).filterMap Finding.obligation? := by
        rw [filterMap_ownershipFindings, List.filter_eq_self]
        intro o ho
        obtain ⟨u, -, ho⟩ := List.mem_flatMap.1 ho
        obtain hnone | ⟨o', hone, hanchor⟩ := c.useObligations_cases u
        · simp [hnone] at ho
        · obtain rfl : o = o' := by simpa [hone] using ho
          simp [hanchor, Anchor.isBinding]
      have hscopes : ((c.scopeStep s v.event).2.filterMap Finding.obligation?).filter
          (!·.anchor.isBinding) = [] := by
        rw [List.filter_eq_nil_iff]
        intro o ho
        obtain ⟨f, hf, hfo⟩ := List.mem_filterMap.1 ho
        cases f with
        | obligation o' =>
            obtain rfl : o' = o := by simpa [Finding.obligation?] using hfo
            simp [anchor_of_mem_scopeStep hf]
        | _ => simp [Finding.obligation?] at hfo
      have hstep : (c.lifetimeStep s v).2 =
          c.ownershipFindings v ++ (c.scopeStep s v.event).2 := rfl
      rw [transduce_cons, List.filterMap_append, List.filter_append, ih, hstep,
        List.filterMap_append, List.filter_append, huses, hscopes, List.append_nil,
        filterMap_ownershipFindings, ← List.flatMap_append, ← List.flatMap_append,
        List.filterMap_cons]
      cases v.event.leftFragment? <;> rfl

theorem filterMap_lifetimeFindings (c : Context) (next : ℕ) :
    ((c.lifetimeFindings next).2.filterMap Finding.obligation?).filter (!·.anchor.isBinding) =
      c.bodyUses.flatMap c.useObligations :=
  c.filterMap_transduce_lifetimeStep (.start next) c.body.block.tour

theorem eraseDups_useObligations (c : Context) (u : Use) :
    (c.useObligations u).eraseDups = c.useObligations u := by
  obtain h | ⟨o, h, -⟩ := c.useObligations_cases u
  · rw [h]
    rfl
  · rw [h]
    rfl

theorem anchor_of_mem_useObligations {u : Use} {o : Obligation} (ho : o ∈ c.useObligations u) :
    o.anchor = .node u.expr.id := by
  obtain h | ⟨o', h, hanchor⟩ := c.useObligations_cases u
  · simp [h] at ho
  · obtain rfl : o = o' := by simpa [h] using ho
    exact hanchor

/-- At nodes the ownership analysis records what the uses make. -/
theorem obligationsAt_lifetimeFindings (c : Context) (next node : ℕ) :
    (Annotations.ofFindings (c.lifetimeFindings next).2).obligationsAt node =
      ((c.bodyUses.flatMap c.useObligations).filter (·.anchor = .node node)).eraseDups := by
  have hfilter : ∀ os : List Obligation, os.filter (·.anchor = .node node) =
      (os.filter (!·.anchor.isBinding)).filter (·.anchor = .node node) := by
    intro os
    rw [List.filter_filter]
    apply List.filter_congr
    intro o _
    by_cases hanchor : o.anchor = .node node
    · simp [hanchor, Anchor.isBinding]
    · simp [hanchor]
  rw [Annotations.obligationsAt_ofFindings, hfilter, filterMap_lifetimeFindings]

/-- The ownership obligations recorded at an expression of the body, when its
bindings are numbered from `next` on. -/
def recordedAt (c : Context) (next : ℕ) (e : Expr) : List Obligation :=
  (Annotations.ofFindings (c.lifetimeFindings next).2).obligationsAt e.id

/-- In a body with distinct ids the obligations at an expression are those of its
use. -/
theorem recordedAt_of_mem_bodyUses (hids : c.body.block.DistinctIds) {u : Use}
    (hu : u ∈ c.bodyUses) (next : ℕ) : c.recordedAt next u.expr = c.useObligations u := by
  have hnodup : (c.bodyUses.map fun u => Anchor.node u.expr.id).Nodup := by
    have hinj : Function.Injective Anchor.node := fun _ _ h => Anchor.node.inj h
    have hmap := (nodup_bodyUses hids).map hinj
    rwa [List.map_map] at hmap
  have hone : (c.bodyUses.flatMap c.useObligations).filter (·.anchor = .node u.expr.id) =
      c.useObligations u :=
    filter_flatMap_key (fun u o ho => anchor_of_mem_useObligations ho) hnodup hu
  rw [recordedAt, obligationsAt_lifetimeFindings, hone, eraseDups_useObligations]

/-! ## What a use requires is found in one piece -/

theorem ownershipFindings_isInfix {s : Lifetimes} {vs : List Visit} {v : Visit} (hv : v ∈ vs) :
    c.ownershipFindings v <:+: (transduce c.lifetimeStep s vs).2 := by
  induction vs generalizing s with
  | nil => simp at hv
  | cons w vs ih =>
      have hstep : (c.lifetimeStep s w).2 =
          c.ownershipFindings w ++ (c.scopeStep s w.event).2 := rfl
      rw [transduce_cons, hstep]
      rcases List.mem_cons.1 hv with rfl | hv
      · exact (List.prefix_append _ _).isInfix.trans (List.prefix_append _ _).isInfix
      · exact (ih hv).trans (List.suffix_append _ _).isInfix

theorem useFindings_isInfix {u : Use} (hu : u ∈ c.bodyUses) (next : ℕ) :
    c.useFindings u <:+: (c.lifetimeFindings next).2 := by
  obtain ⟨n, hn, hu⟩ := List.mem_flatMap.1 hu
  obtain ⟨⟨here, event⟩, hv, hleft⟩ := List.mem_filterMap.1 hn
  obtain rfl := Event.eq_leave_of_leftFragment? hleft
  have hfindings : c.useFindings u <:+: c.ownershipFindings ⟨here, n.leave⟩ := by
    obtain ⟨pre, post, hsplit⟩ := List.append_of_mem hu
    rw [ownershipFindings_leave, hsplit, List.flatMap_append, List.flatMap_cons]
    exact ⟨(c.rawProblems here n).map .problem ++ pre.flatMap c.useFindings,
      post.flatMap c.useFindings, by simp⟩
  exact hfindings.trans (ownershipFindings_isInfix hv)

/-- An expression that is used stands in the body. -/
theorem has_of_mem_bodyUses {u : Use} (hu : u ∈ c.bodyUses) : c.body.block.Has (.expr u.expr) := by
  obtain ⟨n, hn, hu⟩ := List.mem_flatMap.1 hu
  have hchild : u.expr ∈ n.children :=
    (c.map_expr_uses_sublist n).subset (List.mem_map.2 ⟨u, hu, rfl⟩)
  obtain ⟨k, hk, hown⟩ := List.mem_flatMap.1 hchild
  obtain rfl := Fragment.mem_own_iff.1 hown
  exact Fragment.Within.trans (.inside hk .here) (Block.mem_fragments_iff.1 hn)

/-! ## Transfers -/

/-- The value of an expression of the body is moved or copied into a destination:
one of the bindings, assignments, results, failures, arguments, fields, payloads,
items and optionals of the body. -/
inductive TransferAt (c : Context) : Expr → Ty → Prop where
  | initialiser {name : Ident} {isMutable : Bool} {type : TypeRef} {init : Expr}
      (h : c.body.block.Has (.stmt (.bind name isMutable type init))) :
      TransferAt c init (c.types.binding init)
  | assigned {target value : Expr} (h : c.body.block.Has (.stmt (.assign target value))) :
      TransferAt c value (c.types.expr target)
  | returned {value : Expr} (h : c.body.block.Has (.stmt (.ret (some value)))) :
      TransferAt c value c.returnType
  | thrown {span : Span} {value : Expr} (h : c.body.block.Has (.stmt (.raise span value))) :
      TransferAt c value (c.types.expr value)
  | argument {e : Expr} {path : List String} {callee : String} {args : List Expr} {i : ℕ}
      {arg : Expr} (h : c.body.block.Has (.expr e)) (hform : e.form = .call path callee args)
      (harg : args[i]? = some arg) :
      TransferAt c arg
        ((((c.callee? e).map (·.params)).getD [])[i]?.getD (c.types.expr arg))
  | methodArgument {e receiver : Expr} {method : String} {args : List Expr} {i : ℕ} {arg : Expr}
      (h : c.body.block.Has (.expr e)) (hform : e.form = .methodCall receiver method args)
      (harg : args[i]? = some arg) :
      TransferAt c arg
        ((((c.callee? e).map (·.params)).getD [])[i]?.getD (c.types.expr arg))
  | fieldValue {e : Expr} {type : TypeRef} {fields : List (String × Expr)} {d : TypeDef}
      {s : Subst} {name : String} {value : Expr} (h : c.body.block.Has (.expr e))
      (hform : e.form = .construct type fields) (hd : c.applied? (c.types.expr e) = some (d, s))
      (hvalue : (name, value) ∈ fields) :
      TransferAt c value ((Field.typeIn? d.shape.fields s name).getD (c.types.expr value))
  | payload {e : Expr} {type : TypeRef} {name : String} {args : List Expr} {d : TypeDef}
      {s : Subst} {t : Ty} {value : Expr} (h : c.body.block.Has (.expr e))
      (hform : e.form = .variant type name (.positional args))
      (hd : c.applied? (c.types.expr e) = some (d, s))
      (ht : (d.shape.variant? name).map Variant.payload = some (.single t))
      (hvalue : value ∈ args) : TransferAt c value (t.substitute s)
  | payloadField {e : Expr} {type : TypeRef} {name field : String} {args : List (String × Expr)}
      {d : TypeDef} {s : Subst} {fs : List Field} {value : Expr} (h : c.body.block.Has (.expr e))
      (hform : e.form = .variant type name (.named args))
      (hd : c.applied? (c.types.expr e) = some (d, s))
      (ht : (d.shape.variant? name).map Variant.payload = some (.fields fs))
      (hvalue : (field, value) ∈ args) :
      TransferAt c value ((Field.typeIn? fs s field).getD .unknown)
  | item {e : Expr} {items : List Expr} {value : Expr} (h : c.body.block.Has (.expr e))
      (hform : e.form = .array items) (hvalue : value ∈ items) :
      TransferAt c value (elementType (c.types.expr e))
  | operand {e value : Expr} (h : c.body.block.Has (.expr e)) (hform : e.form = .present value) :
      TransferAt c value (presentType (c.types.expr e))

theorem mem_argTransfers {args : List Expr} {i : ℕ} {arg : Expr} (params : List Ty)
    (harg : args[i]? = some arg) :
    ⟨arg, params[i]?.getD (c.types.expr arg)⟩ ∈ c.argTransfers args params := by
  induction args generalizing i params with
  | nil => simp at harg
  | cons a args ih =>
      cases i with
      | zero =>
          obtain rfl : a = arg := by simpa using harg
          cases params <;> simp [argTransfers]
      | succ i =>
          have hrest : args[i]? = some arg := by simpa using harg
          cases params with
          | nil => exact List.mem_cons_of_mem _ (by simpa using ih [] hrest)
          | cons p params => exact List.mem_cons_of_mem _ (by simpa using ih params hrest)

theorem mem_bodyUses {n : Fragment} {u : Use} (hn : c.body.block.Has n) (hu : u ∈ c.uses n) :
    u ∈ c.bodyUses :=
  List.mem_flatMap.2 ⟨n, Block.mem_fragments_iff.2 hn, hu⟩

theorem mem_uses_expr {e : Expr} {x : Transfer} (hx : x ∈ c.exprTransfers e) :
    .transfer x ∈ c.uses (.expr e) :=
  List.mem_append_right _ (List.mem_map.2 ⟨x, hx, rfl⟩)

theorem mem_bodyUses_of_transferAt {e : Expr} {dest : Ty} (hx : c.TransferAt e dest) :
    .transfer ⟨e, dest⟩ ∈ c.bodyUses := by
  cases hx with
  | initialiser h | returned h | thrown h => exact mem_bodyUses h (List.mem_singleton.2 rfl)
  | assigned h => exact mem_bodyUses h (List.mem_cons_of_mem _ (List.mem_singleton.2 rfl))
  | argument h hform harg | methodArgument h hform harg =>
      refine mem_bodyUses h (mem_uses_expr ?_)
      rw [exprTransfers, hform]
      exact mem_argTransfers _ harg
  | fieldValue h hform hd hvalue =>
      refine mem_bodyUses h (mem_uses_expr ?_)
      simp only [exprTransfers, hform, fieldTransfers, hd]
      exact List.mem_map.2 ⟨_, hvalue, rfl⟩
  | payload h hform hd ht hvalue =>
      refine mem_bodyUses h (mem_uses_expr ?_)
      simp only [exprTransfers, hform, payloadTransfers, hd, ht]
      exact List.mem_map.2 ⟨_, hvalue, rfl⟩
  | payloadField h hform hd ht hvalue =>
      refine mem_bodyUses h (mem_uses_expr ?_)
      simp only [exprTransfers, hform, payloadTransfers, hd, ht]
      exact List.mem_map.2 ⟨_, hvalue, rfl⟩
  | item h hform hvalue =>
      refine mem_bodyUses h (mem_uses_expr ?_)
      simp only [exprTransfers, hform]
      exact List.mem_map.2 ⟨_, hvalue, rfl⟩
  | operand h hform =>
      refine mem_bodyUses h (mem_uses_expr ?_)
      simp only [exprTransfers, hform]
      exact List.mem_singleton.2 rfl

end Context

end ProgramSafety
