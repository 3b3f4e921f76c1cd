import ProgramSafety.Proofs.Analysis.Tables
import ProgramSafety.Proofs.Tree.Regions
import ProgramSafety.Session

/-!
# Routes of all failures

A failure can arise at a call of a function or method that throws and at a `throw`
statement (`Context.FailsAt`). It is caught if it stands in the body of some `try`
statement, propagates if it does not and the function throws, and is a problem
otherwise. The analysis goes by the setting of a visit; counting the open `try`
statements along the tour gives the same (`Context.countsTries`), and
`Context.failures_routed` says what is recorded by the syntax of the body alone.
-/

namespace ProgramSafety

namespace Context

variable {c : Context} {n n' : Fragment} {f f' : FailurePoint} {here here' : Setting}

/-- A failure can arise at a fragment. The failure of a `throw` statement belongs to
the node of the value thrown. -/
inductive FailsAt (c : Context) : Fragment → FailurePoint → Prop where
  | call {e : Expr} {path : List String} {callee : String} {args : List Expr} {s : Signature}
      (hform : e.form = .call path callee args)
      (hcallee : c.signatures.lookupCall? path callee c.body.space = some s)
      (hthrows : s.throws = true) : FailsAt c (.expr e) ⟨e.id, s.name, e.span⟩
  | methodCall {e receiver : Expr} {method : String} {args : List Expr} {s : Signature}
      (hform : e.form = .methodCall receiver method args)
      (hcallee : c.registry.methodSignature? (c.types.expr receiver) method = some s)
      (hthrows : s.throws = true) : FailsAt c (.expr e) ⟨e.id, s.name, e.span⟩
  | raise {span : Span} {value : Expr} :
      FailsAt c (.stmt (.raise span value)) ⟨value.id, "throw", span⟩

theorem FailsAt.holds (hf : c.FailsAt n f) : n.Holds := by
  cases hf with
  | call | methodCall => exact Or.inl (by simp [Fragment.own])
  | raise => exact Or.inr (by simp [Fragment.children, Fragment.inside, Fragment.parts,
      Stmt.parts, Fragment.own])

theorem failurePoint?_enter (c : Context) (n : Fragment) : c.failurePoint? n.enter = none := by
  cases n <;> rfl

theorem failurePoint?_leave_iff : c.failurePoint? n.leave = some f ↔ c.FailsAt n f := by
  constructor
  · intro h
    cases n with
    | block role b => simp [Fragment.leave, failurePoint?] at h
    | stmt s =>
        cases s with
        | raise span value =>
            obtain rfl : ⟨value.id, "throw", span⟩ = f := by
              simpa [Fragment.leave, failurePoint?] using h
            exact .raise
        | _ => simp [Fragment.leave, failurePoint?] at h
    | expr e =>
        simp only [Fragment.leave, failurePoint?] at h
        split at h
        next s hcallee =>
          split at h
          next hthrows =>
            obtain rfl := by simpa using h
            unfold callee? at hcallee
            split at hcallee
            next hform => exact .call hform hcallee hthrows
            next hform => exact .methodCall hform hcallee hthrows
            next => simp at hcallee
          next => simp at h
        next => simp at h
  · intro hf
    cases hf with
    | call hform hcallee hthrows | methodCall hform hcallee hthrows =>
        simp [Fragment.leave, failurePoint?, callee?, hform, hcallee, hthrows]
    | raise => rfl

/-! ## Where findings come from -/

def escapeProblem (c : Context) (f : FailurePoint) : Problem :=
  ⟨.propagation f.source c.body.name, f.span⟩

def failureFinding (c : Context) (here : Setting) (f : FailurePoint) : Finding :=
  match c.route? here with
  | some route => .routed f.node route
  | none => .problem (c.escapeProblem f)

theorem routingVisit_eq (c : Context) (v : Visit) :
    c.routingVisit v = (c.failurePoint? v.event).toList.map (c.failureFinding v.setting) := by
  rw [routingVisit]
  cases c.failurePoint? v.event with
  | none => rfl
  | some f =>
      simp only [Option.toList_some, List.map_singleton, failureFinding]
      cases c.route? v.setting <;> rfl

theorem mem_routingFindings_iff {found : Finding} :
    found ∈ c.routingFindings ↔
      ∃ here n f, ⟨here, Fragment.leave n⟩ ∈ c.body.block.tour ∧ c.FailsAt n f ∧
        found = c.failureFinding here f := by
  constructor
  · intro h
    obtain ⟨⟨here, event⟩, hv, hfound⟩ := List.mem_flatMap.1 h
    rw [routingVisit_eq] at hfound
    obtain ⟨f, hf, rfl⟩ := List.mem_map.1 hfound
    have hpoint : c.failurePoint? event = some f := by simpa using hf
    obtain ⟨n, rfl⟩ | ⟨n, rfl⟩ := event.enter_or_leave
    · simp [failurePoint?_enter] at hpoint
    · exact ⟨here, n, f, hv, failurePoint?_leave_iff.1 hpoint, rfl⟩
  · rintro ⟨here, n, f, hv, hf, rfl⟩
    refine List.mem_flatMap.2 ⟨_, hv, ?_⟩
    rw [routingVisit_eq, failurePoint?_leave_iff.2 hf]
    simp

/-- The node of a failure is visited in the setting of the failure. -/
theorem FailsAt.exists_expr (hf : c.FailsAt n f) (hv : ⟨here, n.leave⟩ ∈ c.body.block.tour) :
    ∃ e, e.id = f.node ∧ ⟨here, (Fragment.expr e).leave⟩ ∈ c.body.block.tour := by
  cases hf with
  | call | methodCall => exact ⟨_, rfl, hv⟩
  | @raise span value =>
      have hpart : (here, .expr value) ∈ (Fragment.stmt (.raise span value)).parts here :=
        List.mem_singleton.2 rfl
      exact ⟨value, rfl, Block.mem_tour_of_mem_parts hv hpart⟩

/-- Failures at one node, such as those of a `throw` and of the call that it throws,
arise in one setting. -/
theorem FailsAt.setting_eq (hids : c.body.block.DistinctIds) (hf : c.FailsAt n f)
    (hf' : c.FailsAt n' f') (hnode : f.node = f'.node)
    (hv : ⟨here, n.leave⟩ ∈ c.body.block.tour) (hv' : ⟨here', n'.leave⟩ ∈ c.body.block.tour) :
    here = here' := by
  obtain ⟨e, hid, he⟩ := hf.exists_expr hv
  obtain ⟨e', hid', he'⟩ := hf'.exists_expr hv'
  have hcontains : ∀ {x : Expr} {s : Setting}, ⟨s, (Fragment.expr x).leave⟩ ∈ c.body.block.tour →
      c.body.block.Contains x := by
    intro x s hx
    exact Block.mem_exprs_iff.1 (List.mem_filterMap.2 ⟨_, hx, rfl⟩)
  obtain rfl := hids.eq_of_id_eq (hcontains he) (hcontains he') (by rw [hid, hid', hnode])
  exact hids.setting_eq (Or.inl (by simp [Fragment.own])) he he'

/-! ## The routes of a body -/

def routes (c : Context) : Std.TreeMap ℕ Route :=
  (Annotations.ofFindings c.routingFindings).routes

/-- The fragment stands in the body of some `try` statement; what stands in a handler
only does so if an outer `try` statement has the inner one in its body. -/
def Guards (c : Context) (n : Fragment) : Prop :=
  ∃ body binder handler, c.body.block.Has (.stmt (.attempt body binder handler)) ∧
    n.Within (.block .plain body)

theorem guards_iff_encloses : c.Guards n ↔ c.body.block.Encloses .guarded n := by
  constructor
  · rintro ⟨body, binder, handler, hstmt, hn⟩
    exact ⟨_, body, rfl, hstmt, hn⟩
  · rintro ⟨s, body, hopen, hstmt, hn⟩
    cases s with
    | attempt body' binder handler =>
        obtain rfl : body' = body := by simpa [Region.guarded] using hopen
        exact ⟨body', binder, handler, hstmt, hn⟩
    | _ => simp [Region.guarded] at hopen

theorem entry?_failureFinding {node : ℕ} {route : Route} :
    Table.routes.entry? (c.failureFinding here f) = some (node, route) ↔
      f.node = node ∧ c.route? here = some route := by
  rw [failureFinding]
  cases c.route? here <;> simp [Table.routes]

theorem routes_of_failsAt (hids : c.body.block.DistinctIds) (hf : c.FailsAt n f)
    (hv : ⟨here, n.leave⟩ ∈ c.body.block.tour) : c.routes[f.node]? = c.route? here := by
  have hsame : ∀ found ∈ c.routingFindings, ∀ route,
      Table.routes.entry? found = some (f.node, route) → c.route? here = some route := by
    intro found hfound route hentry
    obtain ⟨here', n', f', hv', hf', rfl⟩ := mem_routingFindings_iff.1 hfound
    obtain ⟨hnode, hroute⟩ := entry?_failureFinding.1 hentry
    rwa [hf.setting_eq hids hf' hnode.symm hv hv']
  cases hroute : c.route? here with
  | none =>
      apply Table.routes.getElem?_eq_none
      intro found hfound route hentry
      exact absurd (hsame found hfound route hentry) (by simp [hroute])
  | some route =>
      apply Table.routes.getElem?_eq_some (mem_routingFindings_iff.2 ⟨here, n, f, hv, hf, rfl⟩)
        (entry?_failureFinding.2 ⟨rfl, hroute⟩)
      intro found hfound route' hentry
      have hroute' := hsame found hfound route' hentry
      exact Option.some.inj (hroute'.symm.trans hroute)

theorem routes_eq_none {node : ℕ}
    (hnode : ∀ n f, c.body.block.Has n → c.FailsAt n f → f.node ≠ node) :
    c.routes[node]? = none := by
  apply Table.routes.getElem?_eq_none
  intro found hfound route hentry
  obtain ⟨here, n, f, hv, hf, rfl⟩ := mem_routingFindings_iff.1 hfound
  exact hnode n f (Block.mem_tour_iff_has.1 ⟨here, hv⟩) hf (entry?_failureFinding.1 hentry).1

theorem FailsAt.guarded_iff (hids : c.body.block.DistinctIds) (hf : c.FailsAt n f)
    (hv : ⟨here, n.leave⟩ ∈ c.body.block.tour) : here.guarded = true ↔ c.Guards n :=
  (hids.mark_iff .guarded hf.holds hv).trans guards_iff_encloses.symm

theorem route?_eq_none_iff : c.route? here = none ↔
    here.guarded = false ∧ c.body.func.throws = false := by
  rw [route?]
  cases here.guarded <;> cases c.body.func.throws <;> simp

/-! ## The problems of a body -/

/-- The failure that a visit reports as a problem, with the fragment it arises at. -/
def escaping? (c : Context) (v : Visit) : Option (Fragment × FailurePoint) :=
  if c.route? v.setting = none then
    v.event.leftFragment?.bind fun n => (c.failurePoint? v.event).map (n, ·)
  else none

def escaping (c : Context) : List (Fragment × FailurePoint) :=
  c.body.block.tour.filterMap c.escaping?

theorem escaping?_eq_some_iff {v : Visit} : c.escaping? v = some (n, f) ↔
    v.event = n.leave ∧ c.FailsAt n f ∧ c.route? v.setting = none := by
  rw [escaping?]
  constructor
  · intro h
    split at h
    next hroute =>
      obtain ⟨m, hm, hmap⟩ := Option.bind_eq_some_iff.1 h
      obtain ⟨f', hf', hpair⟩ := Option.map_eq_some_iff.1 hmap
      obtain ⟨rfl, rfl⟩ := Prod.mk.inj hpair
      have hevent := Event.eq_leave_of_leftFragment? hm
      exact ⟨hevent, failurePoint?_leave_iff.1 (hevent ▸ hf'), hroute⟩
    next => simp at h
  · rintro ⟨hevent, hf, hroute⟩
    simp [hroute, hevent, failurePoint?_leave_iff.2 hf]

theorem problems_routingVisit (c : Context) (v : Visit) :
    (c.routingVisit v).filterMap Finding.problem? =
      (c.escaping? v).toList.map fun x => c.escapeProblem x.2 := by
  obtain ⟨here, event⟩ := v
  rw [routingVisit_eq]
  obtain ⟨n, rfl⟩ | ⟨n, rfl⟩ := event.enter_or_leave
  · simp [escaping?, failurePoint?_enter]
  · cases hf : c.failurePoint? n.leave with
    | none => simp [escaping?, hf]
    | some f =>
        cases hroute : c.route? here <;>
          simp [escaping?, hf, hroute, failureFinding, Finding.problem?]

theorem problems_routingFindings (c : Context) :
    c.routingFindings.filterMap Finding.problem? =
      c.escaping.map fun x => c.escapeProblem x.2 := by
  rw [routingFindings, List.filterMap_flatMap, escaping, List.filterMap_eq_flatMap_toList,
    List.map_flatMap]
  exact List.flatMap_congr fun v _ => c.problems_routingVisit v

theorem nodup_escaping (hids : c.body.block.DistinctIds) : c.escaping.Nodup := by
  refine List.pairwise_filterMap.2 (hids.pairwise_tour.imp ?_)
  rintro v w hvw ⟨n, f⟩ hv ⟨n', f'⟩ hw heq
  obtain ⟨rfl, rfl⟩ := Prod.mk.inj heq
  obtain ⟨hv, hf, -⟩ := escaping?_eq_some_iff.1 hv
  obtain ⟨hw, -, -⟩ := escaping?_eq_some_iff.1 hw
  exact hvw n hv hf.holds hw

theorem mem_escaping_iff (hids : c.body.block.DistinctIds) : (n, f) ∈ c.escaping ↔
    c.body.block.Has n ∧ c.FailsAt n f ∧ ¬ c.Guards n ∧ c.body.func.throws = false := by
  constructor
  · intro h
    obtain ⟨⟨here, event⟩, hv, hescape⟩ := List.mem_filterMap.1 h
    obtain ⟨rfl, hf, hroute⟩ := escaping?_eq_some_iff.1 hescape
    obtain ⟨hguard, hthrows⟩ := route?_eq_none_iff.1 hroute
    refine ⟨Block.mem_tour_iff_has.1 ⟨here, hv⟩, hf, ?_, hthrows⟩
    rw [← hf.guarded_iff hids hv, hguard]
    exact Bool.false_ne_true
  · rintro ⟨hn, hf, hguard, hthrows⟩
    obtain ⟨here, hv⟩ := Block.mem_tour_iff_has.2 hn
    rw [← hf.guarded_iff hids hv, Bool.not_eq_true] at hguard
    exact List.mem_filterMap.2 ⟨_, hv,
      escaping?_eq_some_iff.2 ⟨rfl, hf, route?_eq_none_iff.2 ⟨hguard, hthrows⟩⟩⟩

/-! ## Counting open `try` statements -/

def countedFinding (c : Context) (depth : ℕ) (f : FailurePoint) : Finding :=
  if 0 < depth then .routed f.node .caught
  else if c.body.func.throws then .routed f.node .propagate
  else .problem (c.escapeProblem f)

/-- One event, counting the `try` statements whose body is open. The count goes down before
the handler. -/
def tryStep (c : Context) (depth : ℕ) : Event → ℕ × List Finding
  | .enterStmt (.attempt ..) => (depth + 1, [])
  | .openBlock (.handler _) _ => (depth - 1, [])
  | event => (depth, (c.failurePoint? event).toList.map (c.countedFinding depth))

/-- The count as a fragment is reached that is left at `depth`. -/
def triesBefore (depth : ℕ) : Fragment → ℕ
  | .block (.handler _) _ => depth + 1
  | _ => depth

def triesInside (depth : ℕ) : Fragment → ℕ
  | .stmt (.attempt ..) => depth + 1
  | _ => depth

theorem tryStep_enter (c : Context) (depth : ℕ) (n : Fragment) :
    c.tryStep (triesBefore depth n) n.enter = (triesInside depth n, []) := by
  cases n with
  | expr e => rfl
  | stmt s => cases s <;> rfl
  | block role b => cases role <;> rfl

theorem countedFinding_eq {depth : ℕ} (hdepth : here.guarded = true ↔ 0 < depth)
    (f : FailurePoint) : c.countedFinding depth f = c.failureFinding here f := by
  rw [countedFinding, failureFinding, route?]
  simp only [← hdepth]
  cases here.guarded <;> cases c.body.func.throws <;> rfl

theorem tryStep_leave {depth : ℕ} (hdepth : here.guarded = true ↔ 0 < depth) (n : Fragment) :
    c.tryStep depth n.leave = (depth, c.routingVisit ⟨here, n.leave⟩) := by
  have hfound : c.tryStep depth n.leave =
      (depth, (c.failurePoint? n.leave).toList.map (c.countedFinding depth)) := by
    cases n with
    | stmt s => cases s <;> rfl
    | _ => rfl
  have hsame : c.countedFinding depth = c.failureFinding here := funext (countedFinding_eq hdepth)
  rw [hfound, routingVisit_eq, hsame]

/-- A handler is part of a `try` statement only. -/
theorem exists_attempt_of_handler_mem {setting : Setting} {binder : Option Ident} {b : Block}
    (h : (setting, .block (.handler binder) b) ∈ n.parts here) :
    ∃ body, n = .stmt (.attempt body binder b) := by
  cases n with
  | block role b' => simp [Fragment.parts] at h
  | expr e =>
      obtain ⟨m, hm, heq⟩ := List.mem_map.1 h
      obtain ⟨-, rfl⟩ := Prod.mk.inj heq
      cases hform : e.form with
      | variant type name args => cases args <;> simp [hform, ExprForm.parts] at hm
      | _ => simp [hform, ExprForm.parts] at hm
  | stmt s =>
      cases s with
      | attempt body binder' handler =>
          obtain ⟨-, rfl, rfl⟩ : setting = here ∧ binder = binder' ∧ b = handler := by
            simpa [Fragment.parts, Stmt.parts] using h
          exact ⟨body, rfl⟩
      | ret value => cases value <;> simp [Fragment.parts, Stmt.parts] at h
      | branch cond t e => cases e <;> simp [Fragment.parts, Stmt.parts] at h
      | _ => simp [Fragment.parts, Stmt.parts] at h

theorem triesBefore_of_mem_parts {depth : ℕ} {p : Setting × Fragment} (hp : p ∈ n.parts here)
    (hn : ∀ body binder handler, n ≠ .stmt (.attempt body binder handler)) :
    triesBefore depth p.2 = depth := by
  obtain ⟨setting, m⟩ := p
  unfold triesBefore
  split
  next binder handler hm =>
    obtain rfl : m = _ := hm
    obtain ⟨body, hbody⟩ := exists_attempt_of_handler_mem hp
    exact absurd hbody (hn body binder handler)
  next => rfl

/-- Counting through a fragment finds what the settings say. The count ends where it began,
one lower if the fragment is a handler. -/
def CountsTries (c : Context) (n : Fragment) : Prop :=
  ∀ (here : Setting) (depth : ℕ), (here.guarded = true ↔ 0 < depth) →
    transduce c.tryStep (triesBefore depth n) ((n.visits (fun _ => true) here).map Visit.event) =
      (depth, (n.visits (fun _ => true) here).flatMap c.routingVisit)

/-- The parts of a `try` statement: the body one deeper, then the handler. -/
theorem transduce_tryStep_attempt {body handler : Block} {binder : Option Ident} {depth : ℕ}
    (hbody : c.CountsTries (.block .plain body))
    (hhandler : c.CountsTries (.block (.handler binder) handler))
    (hdepth : here.guarded = true ↔ 0 < depth) :
    transduce c.tryStep (depth + 1) (((Fragment.stmt (.attempt body binder handler)).parts
        here).flatMap fun p => (p.2.visits (fun _ => true) p.1).map Visit.event) =
      (depth, ((Fragment.stmt (.attempt body binder handler)).parts here).flatMap fun p =>
        (p.2.visits (fun _ => true) p.1).flatMap c.routingVisit) := by
  have hinside := hbody { here with guarded := true } (depth + 1) (by simp)
  have houtside := hhandler here depth hdepth
  simp only [triesBefore] at hinside houtside
  simp only [Fragment.parts, Stmt.parts, List.flatMap_cons, List.flatMap_nil, List.append_nil,
    transduce_append, hinside, houtside]

/-- The parts of anything else, all at the same count. -/
theorem transduce_tryStep_other {depth : ℕ} (hcounts : ∀ p ∈ n.parts here, c.CountsTries p.2)
    (hn : ∀ body binder handler, n ≠ .stmt (.attempt body binder handler))
    (hdepth : here.guarded = true ↔ 0 < depth) :
    transduce c.tryStep (triesInside depth n) ((n.parts here).flatMap fun p =>
        (p.2.visits (fun _ => true) p.1).map Visit.event) =
      (depth, (n.parts here).flatMap fun p =>
        (p.2.visits (fun _ => true) p.1).flatMap c.routingVisit) := by
  have hplain : triesInside depth n = depth := by
    unfold triesInside
    split
    next body binder handler => exact absurd rfl (hn body binder handler)
    next => rfl
  rw [hplain]
  refine transduce_flatMap_of_fixed fun p hp => ?_
  have hhere : p.1.guarded = here.guarded := by
    obtain ⟨body, binder, handler, rfl, -⟩ | ⟨body, -, rfl⟩ | ⟨hsame, -⟩ :=
      Fragment.setting_of_mem_parts hp
    · exact absurd rfl (hn body binder handler)
    · rfl
    · rw [hsame]
  have hpart := hcounts p hp p.1 depth (hhere ▸ hdepth)
  rwa [triesBefore_of_mem_parts hp hn] at hpart

theorem countsTries (c : Context) (n : Fragment) : c.CountsTries n := by
  induction n using Fragment.induction with
  | step n ih =>
      intro here depth hdepth
      have hparts : transduce c.tryStep (triesInside depth n) ((n.parts here).flatMap fun p =>
          (p.2.visits (fun _ => true) p.1).map Visit.event) =
            (depth, (n.parts here).flatMap fun p =>
              (p.2.visits (fun _ => true) p.1).flatMap c.routingVisit) := by
        -- Only the parts of a `try` statement are not all at the same count.
        by_cases hn : ∃ body binder handler, n = .stmt (.attempt body binder handler)
        · obtain ⟨body, binder, handler, rfl⟩ := hn
          exact transduce_tryStep_attempt (ih here _ List.mem_cons_self)
            (ih here _ (List.mem_cons_of_mem _ List.mem_cons_self)) hdepth
        · exact transduce_tryStep_other (ih here)
            (fun body binder handler h => hn ⟨body, binder, handler, h⟩) hdepth
      have henter : c.routingVisit ⟨here, n.enter⟩ = [] := by
        rw [routingVisit_eq, failurePoint?_enter]
        rfl
      rw [Fragment.visits_eq, Fragment.toured_all, List.map_append, List.map_cons,
        List.map_flatMap, List.map_singleton, transduce_around, tryStep_enter, hparts,
        tryStep_leave hdepth, List.flatMap_append, List.flatMap_cons, henter, List.flatMap_assoc,
        List.flatMap_singleton]

/-- The failure at a call or `throw` is caught if it stands in the body of a `try`
statement, propagates if it does not and the function throws, and has no route
otherwise. No other node has a route. The problems are one for every failure that has
no route, so where a function that does not throw has no such problem, everything that
fails stands in the body of a `try` statement. Counting the open `try` statements along the
tour finds the same, and the count is zero at the end. -/
theorem failures_routed (hids : c.body.block.DistinctIds) :
    (∀ n f, c.body.block.Has n → c.FailsAt n f →
      (c.routes[f.node]? = some .caught ↔ c.Guards n) ∧
      (c.routes[f.node]? = some .propagate ↔ ¬ c.Guards n ∧ c.body.func.throws = true) ∧
      (c.routes[f.node]? = none ↔ ¬ c.Guards n ∧ c.body.func.throws = false)) ∧
    (∀ node, (∀ n f, c.body.block.Has n → c.FailsAt n f → f.node ≠ node) →
      c.routes[node]? = none) ∧
    (∃ escaping : List (Fragment × FailurePoint), escaping.Nodup ∧
      (∀ n f, (n, f) ∈ escaping ↔
        c.body.block.Has n ∧ c.FailsAt n f ∧ ¬ c.Guards n ∧ c.body.func.throws = false) ∧
      c.routingFindings.filterMap Finding.problem? =
        escaping.map fun x => ⟨.propagation x.2.source c.body.name, x.2.span⟩) ∧
    (c.body.func.throws = false → (∀ p, .problem p ∈ c.routingFindings → p.kind ≠ .propagation) →
      ∀ n f, c.body.block.Has n → c.FailsAt n f → c.Guards n) ∧
    transduce c.tryStep 0 (c.body.block.tour.map Visit.event) = (0, c.routingFindings) := by
  refine ⟨?_, fun node => routes_eq_none, ⟨c.escaping, nodup_escaping hids,
    fun n f => mem_escaping_iff hids, c.problems_routingFindings⟩, ?_,
    c.countsTries (.block .body c.body.block) .outermost 0 (by simp [Setting.outermost])⟩
  · intro n f hn hf
    obtain ⟨here, hv⟩ := Block.mem_tour_iff_has.2 hn
    rw [routes_of_failsAt hids hf hv, ← hf.guarded_iff hids hv, route?]
    cases here.guarded <;> cases c.body.func.throws <;> simp
  · intro hthrows hnone n f hn hf
    by_contra hguard
    have hescape := (mem_escaping_iff hids).2 ⟨hn, hf, hguard, hthrows⟩
    have hproblem : c.escapeProblem f ∈ c.routingFindings.filterMap Finding.problem? := by
      rw [problems_routingFindings]
      exact List.mem_map.2 ⟨_, hescape, rfl⟩
    obtain ⟨found, hfound, hproblem⟩ := List.mem_filterMap.1 hproblem
    cases found with
    | problem p =>
        obtain rfl : p = c.escapeProblem f := by simpa [Finding.problem?] using hproblem
        exact hnone _ hfound rfl
    | _ => simp [Finding.problem?] at hproblem

end Context

namespace NestedTries

def fails (id : ℕ) : Expr := ⟨id, .nowhere, .named "void", .call [] "fails" []⟩

def block (stmts : List Stmt) : Block := ⟨.nowhere, stmts⟩

def inner : Stmt := .attempt (block [.expr (fails 2)]) none (block [.expr (fails 3)])

def guarded : Block := block [.expr (fails 1), inner]

/-- The outer handler throws what a failing call returns. -/
def outer : Stmt := .attempt guarded none (block [.raise .nowhere (fails 4)])

def run : FunctionDecl := ⟨⟨"run", .nowhere⟩, [], [], none, false, some (block [outer])⟩

def program : Program where
  decls := [.function ⟨⟨"fails", .nowhere⟩, [], [], none, true, none⟩, .function run]

def session : Session := ((Session.start .default).register program).1.close.1

def context : Context :=
  session.context (TypeTable.ofBodies session.registry program.bodies)
    ⟨[], none, run, block [outer]⟩

theorem failsAt_call (id : ℕ) : context.FailsAt (.expr (fails id)) ⟨id, "fails", .nowhere⟩ :=
  .call rfl (by decide : context.signatures.lookupCall? [] "fails" [] =
    some ⟨"fails", [], .void, true, .nowhere⟩) rfl

/-- A failure in the inner handler is caught by the outer statement. One in the outer
handler is not, and neither is the one thrown there; each is a problem of its own. -/
theorem failures_routed_nested :
    context.routes[3]? = some .caught ∧ ¬ context.Guards (.expr (fails 4)) ∧
      ∃ escaping : List (Fragment × FailurePoint), escaping.Nodup ∧
        (.expr (fails 4), ⟨4, "fails", .nowhere⟩) ∈ escaping ∧
        (.stmt (.raise .nowhere (fails 4)), ⟨4, "throw", .nowhere⟩) ∈ escaping ∧
        context.routingFindings.filterMap Finding.problem? =
          escaping.map fun x => ⟨.propagation x.2.source "run", x.2.span⟩ := by
  have hids : context.body.block.DistinctIds :=
    (by decide : ((block [outer]).exprs.map Expr.id).Nodup)
  obtain ⟨hroutes, -, ⟨escaping, hnodup, hmem, hproblems⟩, -⟩ := Context.failures_routed hids
  have hthree : context.body.block.Has (.expr (fails 3)) := Block.has_of_getElem? (i := 5) rfl
  have hfour : context.body.block.Has (.expr (fails 4)) := Block.has_of_getElem? (i := 10) rfl
  have hraise : context.body.block.Has (.stmt (.raise .nowhere (fails 4))) :=
    Block.has_of_getElem? (i := 11) rfl
  have hcaught : context.Guards (.expr (fails 3)) := by
    refine ⟨guarded, none, block [.raise .nowhere (fails 4)],
      Block.has_of_getElem? (i := 13) rfl, ?_⟩
    have hinner : ((Fragment.block .plain guarded).nested .outermost)[5]? =
        some (.expr (fails 3)) := rfl
    exact Fragment.mem_nested_iff.1 (List.mem_of_getElem? hinner)
  -- That nothing guards the outer handler is read off the routes.
  have hnone : context.routes[4]? = none := by decide
  have hcall := ((hroutes _ _ hfour (failsAt_call 4)).2.2.1 hnone).1
  have hthrow := ((hroutes _ _ hraise .raise).2.2.1 hnone).1
  exact ⟨(hroutes _ _ hthree (failsAt_call 3)).1.2 hcaught, hcall, escaping, hnodup,
    (hmem _ _).2 ⟨hfour, failsAt_call 4, hcall, rfl⟩, (hmem _ _).2 ⟨hraise, .raise, hthrow, rfl⟩,
    hproblems⟩

end NestedTries

end ProgramSafety
