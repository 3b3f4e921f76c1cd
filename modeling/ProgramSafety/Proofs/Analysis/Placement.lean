import Mathlib.Order.Interval.Set.Basic
import ProgramSafety.Proofs.Analysis.Locality

/-!
# Where findings belong

A finding that is recorded stands at an expression or at a binding. The analyses of a
body find something at expressions of the body only, and at the bindings that the body
declares (`Context.belongs_findings`). Bindings are numbered through, so those of a body
are the numbers that its analysis takes up. That a release is one of them is an invariant
of the open scopes (`Lifetimes.Bounded`): whatever waits there for its release was
declared since the analysis of the body began.
-/

namespace ProgramSafety

def Block.ids (b : Block) : Set ℕ := {i | ∃ e, b.Contains e ∧ e.id = i}

theorem Block.id_mem_ids {b : Block} {e : Expr} (he : b.Contains e) : e.id ∈ b.ids := ⟨e, he, rfl⟩

def Anchor.Belongs (nodes decls : Set ℕ) : Anchor → Prop
  | node id => id ∈ nodes
  | binding decl => decl ∈ decls

/-- The finding is recorded at one of the nodes or at one of the bindings, if it is
recorded at all. A name is recorded for a binding. -/
def Finding.Belongs (nodes decls : Set ℕ) : Finding → Prop
  | problem _ => True
  | bound _ => decls.Nonempty
  | instantiated node _ | plan node _ | routed node _ => node ∈ nodes
  | marker m => m.node ∈ nodes
  | obligation o => o.anchor.Belongs nodes decls

/-- The finding is a problem, or it is recorded at one of the nodes and demands nothing
there. -/
def Finding.AtNode (nodes : Set ℕ) : Finding → Prop
  | problem _ => True
  | instantiated node _ | plan node _ | routed node _ => node ∈ nodes
  | marker m => m.node ∈ nodes
  | bound _ | obligation _ => False

section Belongs

variable {nodes nodes' decls decls' : Set ℕ} {f : Finding}

theorem Anchor.Belongs.mono {a : Anchor} (h : a.Belongs nodes decls) (hnodes : nodes ⊆ nodes')
    (hdecls : decls ⊆ decls') : a.Belongs nodes' decls' := by
  cases a with
  | node id => exact hnodes h
  | binding decl => exact hdecls h

theorem Finding.Belongs.mono (h : f.Belongs nodes decls) (hnodes : nodes ⊆ nodes')
    (hdecls : decls ⊆ decls') : f.Belongs nodes' decls' := by
  cases f with
  | problem => trivial
  | bound => exact Set.Nonempty.mono hdecls h
  | instantiated | plan | routed | marker => exact hnodes h
  | obligation o => exact Anchor.Belongs.mono h hnodes hdecls

theorem Finding.AtNode.belongs (h : f.AtNode nodes) : f.Belongs nodes decls := by
  cases f with
  | problem => trivial
  | instantiated | plan | routed | marker => exact h
  | bound | obligation => exact h.elim

theorem Finding.AtNode.obligation?_eq_none (h : f.AtNode nodes) : f.obligation? = none := by
  cases f with
  | obligation o => exact h.elim
  | _ => rfl

theorem Finding.eq_problem_of_mem {ps : List Problem} (hf : f ∈ ps.map Finding.problem) :
    ∃ p, f = .problem p := by
  obtain ⟨p, -, rfl⟩ := List.mem_map.1 hf
  exact ⟨p, rfl⟩

theorem Finding.atNode_of_mem_problems {ps : List Problem} (hf : f ∈ ps.map Finding.problem) :
    f.AtNode nodes := by
  obtain ⟨p, rfl⟩ := Finding.eq_problem_of_mem hf
  trivial

end Belongs

/-! ## Findings at expressions -/

theorem Registry.atNode_bodyTypeFindings {r : Registry} {b : Body} {f : Finding}
    (hf : f ∈ r.bodyTypeFindings b) : f.AtNode b.block.ids := by
  obtain ⟨v, hv, hf⟩ := List.mem_flatMap.1 hf
  unfold typeFindings at hf
  split at hf
  · exact Finding.atNode_of_mem_problems hf
  next e henter =>
    rcases List.mem_append.1 hf with hf | hf
    · obtain ⟨i, -, rfl⟩ := List.mem_map.1 hf
      exact Block.id_mem_ids (Block.contains_of_mem_tour hv (Or.inl henter))
    · exact Finding.atNode_of_mem_problems hf
  · simp at hf

namespace Context

variable {c : Context} {e : Expr} {f : Finding}

theorem belongs_useFindings {u : Use} (hu : c.body.block.Contains u.expr)
    (hf : f ∈ c.useFindings u) : f.Belongs c.body.block.ids ∅ := by
  obtain h | ⟨p, h⟩ | ⟨o, h, ho⟩ := c.useFindings_cases u
  · simp [h] at hf
  · obtain rfl : f = .problem p := by simpa [h] using hf
    trivial
  · obtain rfl : f = .obligation o := by simpa [h] using hf
    rw [Finding.Belongs, ho]
    exact Block.id_mem_ids hu

theorem belongs_ownershipFindings {v : Visit} (hv : v ∈ c.body.block.tour)
    (hf : f ∈ c.ownershipFindings v) : f.Belongs c.body.block.ids ∅ := by
  obtain ⟨n, hn, hevent⟩ := Block.has_of_mem_tour hv
  obtain ⟨here, event⟩ := v
  obtain rfl | rfl := hevent
  · obtain ⟨ps, hps⟩ := c.ownershipFindings_enter here n
    exact (Finding.atNode_of_mem_problems (hps ▸ hf)).belongs
  · rw [ownershipFindings_leave, List.mem_append, List.mem_flatMap] at hf
    rcases hf with hf | ⟨u, hu, hf⟩
    · exact (Finding.atNode_of_mem_problems hf).belongs
    · have hchild : u.expr ∈ n.children :=
        (c.map_expr_uses_sublist n).subset (List.mem_map.2 ⟨u, hu, rfl⟩)
      have hinside := Fragment.mem_inside_of_mem_children hchild
      have hhas : c.body.block.Has (.expr u.expr) := Fragment.Within.trans (.inside hinside .here) hn
      exact belongs_useFindings (Block.has_expr_iff.1 hhas) hf

theorem ownershipFindings_cases {v : Visit} (hv : v ∈ c.body.block.tour)
    (hf : f ∈ c.ownershipFindings v) : (∃ p, f = .problem p) ∨ ∃ o, f = .obligation o := by
  obtain ⟨n, -, hevent⟩ := Block.has_of_mem_tour hv
  obtain ⟨here, event⟩ := v
  obtain rfl | rfl := hevent
  · obtain ⟨ps, hps⟩ := c.ownershipFindings_enter here n
    exact Or.inl (Finding.eq_problem_of_mem (hps ▸ hf))
  · rw [ownershipFindings_leave, List.mem_append, List.mem_flatMap] at hf
    rcases hf with hf | ⟨u, -, hf⟩
    · exact Or.inl (Finding.eq_problem_of_mem hf)
    · obtain h | ⟨p, h⟩ | ⟨o, h, -⟩ := c.useFindings_cases u
      · rw [h] at hf
        cases hf
      · exact Or.inl ⟨p, List.mem_singleton.1 (h ▸ hf)⟩
      · exact Or.inr ⟨o, List.mem_singleton.1 (h ▸ hf)⟩

theorem Outcome.cases {known : Constants} {value : Option Int} {fs : List Finding}
    (h : c.Outcome known e value fs) (hf : f ∈ fs) :
    (∃ p, f = .problem p) ∨ ∃ m : Marker, m.node = e.id ∧ f = .marker m := by
  have hproblem : ∀ p, f ∈ [Finding.problem p] → ∃ p, f = .problem p :=
    fun p hf => ⟨p, List.mem_singleton.1 hf⟩
  have hmarker : ∀ m : Marker, m.node = e.id → f ∈ [Finding.marker m] →
      ∃ m : Marker, m.node = e.id ∧ f = .marker m :=
    fun m hm hf => ⟨m, hm, List.mem_singleton.1 hf⟩
  cases h with
  | literal | idle => simp at hf
  | misfit => exact Or.inl (hproblem _ hf)
  | @operation o value fs harith hout =>
      cases hout with
      | deferred =>
          refine Or.inr (hmarker _ ?_ hf)
          rw [checkMarker]
          cases o.mode <;> rfl
      | computed => exact Or.inr (hmarker _ rfl hf)
      | fails => exact Or.inl (hproblem _ hf)
  | cast hform hout =>
      cases hout with
      | untyped => simp at hf
      | invalid | fails => exact Or.inl (hproblem _ hf)
      | deferred | computed => exact Or.inr (hmarker _ rfl hf)
  | @access base index hform =>
      rcases c.indexFindings_cases known e base index with ⟨p, -, hp⟩ | hchecked
      · rw [hp] at hf
        exact Or.inl (hproblem _ hf)
      · rw [hchecked] at hf
        split at hf
        · exact Or.inr (hmarker _ rfl hf)
        · simp at hf

/-- The analysis of constants finds problems and markers. -/
theorem constantFindings_cases (hf : f ∈ c.constantFindings) :
    (∃ p, f = .problem p) ∨ ∃ m : Marker, m.node ∈ c.body.block.ids ∧ f = .marker m := by
  rw [constantFindings_eq_transduce] at hf
  obtain ⟨known, e, he, hf⟩ := exists_of_mem_transduce hf
  obtain ⟨value, fs, hout⟩ := c.exists_outcome known e
  rw [hout.constantStep_eq] at hf
  refine (hout.cases hf).imp_right ?_
  rintro ⟨m, hm, rfl⟩
  exact ⟨m, hm ▸ Block.id_mem_ids (contains_of_mem_visited he), rfl⟩

theorem atNode_constantFindings (hf : f ∈ c.constantFindings) : f.AtNode c.body.block.ids := by
  obtain ⟨p, rfl⟩ | ⟨m, hm, rfl⟩ := constantFindings_cases hf
  · trivial
  · exact hm

theorem matchFindings_cases {node : ℕ} {span : Span} {scrutinee : Expr} {patterns : List Pattern}
    (hf : f ∈ c.matchFindings node span scrutinee patterns) :
    (∃ p, f = .problem p) ∨ ∃ arms, f = .plan node arms := by
  unfold matchFindings at hf
  dsimp only at hf
  split at hf
  · simp at hf
  · split at hf
    · rcases List.mem_append.1 hf with hf | hf
      · exact Or.inl (Finding.eq_problem_of_mem hf)
      · exact Or.inr ⟨_, List.mem_singleton.1 hf⟩
    · exact Or.inl (Finding.eq_problem_of_mem hf)

/-- The analysis of coverage finds problems and the plans of matches. -/
theorem coverageFindings_cases (hf : f ∈ c.coverageFindings) :
    (∃ p, f = .problem p) ∨ ∃ node ∈ c.body.block.ids, ∃ arms, f = .plan node arms := by
  obtain ⟨v, hv, hf⟩ := List.mem_flatMap.1 hf
  unfold coverageVisit at hf
  split at hf
  next e hleave =>
    have he := Block.contains_of_mem_tour hv (Or.inr hleave)
    split at hf
    · exact (matchFindings_cases hf).imp_right fun hplan => ⟨e.id, Block.id_mem_ids he, hplan⟩
    · simp at hf
  · simp at hf

theorem atNode_coverageFindings (hf : f ∈ c.coverageFindings) : f.AtNode c.body.block.ids := by
  obtain ⟨p, rfl⟩ | ⟨node, hnode, arms, rfl⟩ := coverageFindings_cases hf
  · trivial
  · exact hnode

theorem mem_ids_of_failurePoint? {v : Visit} {point : FailurePoint} (hv : v ∈ c.body.block.tour)
    (hpoint : c.failurePoint? v.event = some point) : point.node ∈ c.body.block.ids := by
  unfold failurePoint? at hpoint
  split at hpoint
  next span value hleave =>
    obtain rfl := Option.some.inj hpoint
    obtain ⟨n, hn, hevent⟩ := Block.has_of_mem_tour hv
    obtain rfl : n = .stmt (.raise span value) := by
      rw [hleave] at hevent
      cases n <;> simp_all [Fragment.enter, Fragment.leave]
    exact Block.id_mem_ids (hn.contains_of_mem_subjects
      (Fragment.mem_subjects_of_mem_inside List.mem_cons_self))
  next e hleave =>
    have he := Block.contains_of_mem_tour hv (Or.inr hleave)
    split at hpoint
    · split at hpoint
      · obtain rfl := Option.some.inj hpoint
        exact Block.id_mem_ids he
      · cases hpoint
    · cases hpoint
  · cases hpoint

/-- The analysis of failures finds problems and the routes of failure points. -/
theorem routingFindings_cases (hf : f ∈ c.routingFindings) :
    (∃ p, f = .problem p) ∨ ∃ node ∈ c.body.block.ids, ∃ route, f = .routed node route := by
  obtain ⟨v, hv, hf⟩ := List.mem_flatMap.1 hf
  unfold routingVisit at hf
  split at hf
  · simp at hf
  next point hpoint =>
    split at hf
    · exact Or.inr ⟨_, mem_ids_of_failurePoint? hv hpoint, _, List.mem_singleton.1 hf⟩
    · exact Or.inl ⟨_, List.mem_singleton.1 hf⟩

theorem atNode_routingFindings (hf : f ∈ c.routingFindings) : f.AtNode c.body.block.ids := by
  obtain ⟨p, rfl⟩ | ⟨node, hnode, route, rfl⟩ := routingFindings_cases hf
  · trivial
  · exact hnode

end Context

/-! ## Findings at bindings -/

namespace Lifetimes

variable {nodes : Set ℕ} {start : ℕ} {s : Lifetimes} {run run' : Lifetimes × List Finding}

/-- What waits for its release has been declared since the given number was the next. -/
structure Bounded (start : ℕ) (s : Lifetimes) : Prop where
  start_le : start ≤ s.next
  decl_mem : ∀ scope ∈ s.scopes, ∀ l ∈ scope, l.decl ∈ Set.Ico start s.next

/-- A run from a bounded state ends in one, and what it finds belongs to the nodes or
to the bindings declared so far. -/
structure Keeps (nodes : Set ℕ) (start : ℕ) (s : Lifetimes) (run : Lifetimes × List Finding) :
    Prop where
  next_le : s.next ≤ run.1.next
  bounded : run.1.Bounded start
  belongs : ∀ f ∈ run.2, f.Belongs nodes (Set.Ico start run.1.next)

theorem bounded_start (start : ℕ) : (Lifetimes.start start).Bounded start :=
  ⟨Nat.le_refl _, by simp [Lifetimes.start]⟩

theorem keeps_of_belongs {fs : List Finding} (hs : s.Bounded start)
    (hfs : ∀ f ∈ fs, f.Belongs nodes ∅) : s.Keeps nodes start (s, fs) where
  next_le := Nat.le_refl _
  bounded := hs
  belongs f hf := (hfs f hf).mono (Set.Subset.refl _) (Set.empty_subset _)

theorem Keeps.append (h : s.Keeps nodes start run) (h' : run.1.Keeps nodes start run') :
    s.Keeps nodes start (run'.1, run.2 ++ run'.2) where
  next_le := Nat.le_trans h.next_le h'.next_le
  bounded := h'.bounded
  belongs f hf := by
    rcases List.mem_append.1 hf with hf | hf
    · exact (h.belongs f hf).mono (Set.Subset.refl _) (Set.Ico_subset_Ico_right h'.next_le)
    · exact h'.belongs f hf

theorem keeps_transduce {α : Type} {step : Lifetimes → α → Lifetimes × List Finding} {as : List α}
    (hstep : ∀ a ∈ as, ∀ s : Lifetimes, s.Bounded start → s.Keeps nodes start (step s a))
    (hs : s.Bounded start) : s.Keeps nodes start (transduce step s as) := by
  induction as generalizing s with
  | nil => exact keeps_of_belongs hs (by simp)
  | cons a as ih =>
      have ha := hstep a List.mem_cons_self s hs
      exact ha.append (ih (fun b hb => hstep b (List.mem_cons_of_mem _ hb)) ha.bounded)

theorem keeps_declare (hs : s.Bounded start) (b : Binder) :
    s.Keeps nodes start (s.declare b) := by
  have hnew : s.next ∈ Set.Ico start (s.next + 1) := ⟨hs.start_le, Nat.lt_succ_self _⟩
  have hold : ∀ scope ∈ s.scopes, ∀ l ∈ scope, l.decl ∈ Set.Ico start (s.next + 1) := by
    intro scope hscope l hl
    exact Set.Ico_subset_Ico_right (Nat.le_succ _) (hs.decl_mem scope hscope l hl)
  refine ⟨Nat.le_succ _, ⟨Nat.le_succ_of_le hs.start_le, ?_⟩, ?_⟩
  · intro scope hscope l hl
    obtain ⟨next, scopes⟩ := s
    cases scopes with
    | nil => cases hscope
    | cons inner outer =>
        rcases List.mem_cons.1 hscope with rfl | hscope
        · rcases List.mem_cons.1 hl with rfl | hl
          · exact hnew
          · exact hold inner List.mem_cons_self l hl
        · exact hold scope (List.mem_cons_of_mem _ hscope) l hl
  · intro f hf
    rcases List.mem_cons.1 hf with rfl | hf
    · exact ⟨s.next, hnew⟩
    · split at hf
      · obtain rfl := List.mem_singleton.1 hf
        exact hnew
      · simp at hf

theorem declare_cases {b : Binder} {f : Finding} (hf : f ∈ (s.declare b).2) :
    (∃ name, f = .bound name) ∨ ∃ o, f = .obligation o := by
  rcases List.mem_cons.1 hf with rfl | hf
  · exact Or.inl ⟨_, rfl⟩
  · split at hf
    · exact Or.inr ⟨_, List.mem_singleton.1 hf⟩
    · cases hf

theorem keeps_openScope (hs : s.Bounded start) (bs : List Binder) :
    s.Keeps nodes start (s.openScope bs) := by
  have hopened : Bounded start { s with scopes := [] :: s.scopes } :=
    ⟨hs.start_le, by simpa using hs.decl_mem⟩
  have hrun : Keeps nodes start { s with scopes := [] :: s.scopes } (s.openScope bs) :=
    keeps_transduce (fun b _ _ hs => keeps_declare hs b) hopened
  exact ⟨hrun.next_le, hrun.bounded, hrun.belongs⟩

theorem keeps_closeScope (hs : s.Bounded start) (scopeEnd : Span) :
    s.Keeps nodes start (s.closeScope scopeEnd) := by
  obtain ⟨next, scopes⟩ := s
  cases scopes with
  | nil => exact keeps_of_belongs hs (by simp)
  | cons scope outer =>
      refine ⟨Nat.le_refl _, ⟨hs.start_le, ?_⟩, ?_⟩
      · intro inner hinner
        exact hs.decl_mem inner (List.mem_cons_of_mem _ hinner)
      · intro f hf
        obtain ⟨l, hl, hf⟩ := List.mem_flatMap.1 hf
        obtain ⟨path, -, rfl⟩ := List.mem_map.1 hf
        exact hs.decl_mem scope List.mem_cons_self l hl

end Lifetimes

namespace Context

variable {c : Context}

theorem keeps_scopeStep {nodes : Set ℕ} {start : ℕ} {s : Lifetimes} (hs : s.Bounded start)
    (event : Event) : s.Keeps nodes start (c.scopeStep s event) := by
  have hidle : s.Keeps nodes start (s, []) := Lifetimes.keeps_of_belongs hs (by simp)
  cases event with
  | openBlock role b => exact Lifetimes.keeps_openScope hs _
  | closeBlock role b => exact Lifetimes.keeps_closeScope hs _
  | leaveStmt stmt =>
      cases stmt with
      | bind name isMutable type init => exact Lifetimes.keeps_declare hs _
      | _ => exact hidle
  | enterStmt | enterExpr | leaveExpr => exact hidle

theorem keeps_lifetimeStep {start : ℕ} {s : Lifetimes} {v : Visit} (hv : v ∈ c.body.block.tour)
    (hs : s.Bounded start) : s.Keeps c.body.block.ids start (c.lifetimeStep s v) := by
  have howned := Lifetimes.keeps_of_belongs hs fun f hf => belongs_ownershipFindings hv hf
  exact howned.append (keeps_scopeStep hs v.event)

theorem scopeStep_cases {s : Lifetimes} {event : Event} {f : Finding}
    (hf : f ∈ (c.scopeStep s event).2) : (∃ name, f = .bound name) ∨ ∃ o, f = .obligation o := by
  cases event with
  | openBlock role b =>
      obtain ⟨_, _, -, hf⟩ := exists_of_mem_transduce hf
      exact Lifetimes.declare_cases hf
  | closeBlock role b =>
      obtain ⟨next, scopes⟩ := s
      cases scopes with
      | nil => cases hf
      | cons scope outer =>
          obtain ⟨l, -, hf⟩ := List.mem_flatMap.1 hf
          obtain ⟨path, -, rfl⟩ := List.mem_map.1 hf
          exact Or.inr ⟨_, rfl⟩
  | leaveStmt stmt =>
      cases stmt with
      | bind name isMutable type init => exact Lifetimes.declare_cases hf
      | _ => cases hf
  | enterStmt | enterExpr | leaveExpr => cases hf

/-- The analysis of ownership finds problems, names of bindings and obligations. -/
theorem lifetimeFindings_cases {next : ℕ} {f : Finding} (hf : f ∈ (c.lifetimeFindings next).2) :
    (∃ p, f = .problem p) ∨ (∃ name, f = .bound name) ∨ ∃ o, f = .obligation o := by
  have hrun : f ∈ (transduce c.lifetimeStep (.start next) c.body.block.tour).2 := hf
  obtain ⟨s, v, hv, hf⟩ := exists_of_mem_transduce hrun
  rcases List.mem_append.1 hf with hf | hf
  · exact (ownershipFindings_cases hv hf).imp_right Or.inr
  · exact Or.inr (scopeStep_cases hf)

def nodeFindings (c : Context) : List Finding :=
  c.constantFindings ++ c.coverageFindings ++ c.routingFindings

theorem findings_eq (c : Context) (next : ℕ) :
    c.findings next =
      ((c.lifetimeFindings next).1, (c.lifetimeFindings next).2 ++ c.nodeFindings) := by
  simp only [findings, nodeFindings, List.append_assoc]

theorem atNode_nodeFindings {f : Finding} (hf : f ∈ c.nodeFindings) :
    f.AtNode c.body.block.ids := by
  rw [nodeFindings, List.mem_append, List.mem_append] at hf
  rcases hf with (hf | hf) | hf
  · exact atNode_constantFindings hf
  · exact atNode_coverageFindings hf
  · exact atNode_routingFindings hf

/-- What the analyses of a body find belongs to its expressions and its bindings. -/
theorem belongs_findings (c : Context) (next : ℕ) :
    next ≤ (c.findings next).1 ∧ ∀ f ∈ (c.findings next).2,
      f.Belongs c.body.block.ids (Set.Ico next (c.findings next).1) := by
  have hrun := Lifetimes.keeps_transduce (fun v hv s hs => c.keeps_lifetimeStep hv hs)
    (Lifetimes.bounded_start next)
  rw [findings_eq]
  refine ⟨hrun.next_le, fun f hf => ?_⟩
  rcases List.mem_append.1 hf with hf | hf
  · exact hrun.belongs f hf
  · exact (atNode_nodeFindings hf).belongs

end Context

end ProgramSafety
