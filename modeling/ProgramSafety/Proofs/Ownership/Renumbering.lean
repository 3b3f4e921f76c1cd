import ProgramSafety.Proofs.Analysis.Placement

/-!
# Bindings under other numbers

Bindings are numbered from some number on, and the number matters to nothing but the
obligations that name the binding. An analysis that starts `k` numbers later finds the
same with all its bindings moved by `k` (`Context.findings_shift`). The scopes move
along step by step; what is found at expressions does not move at all.
-/

namespace ProgramSafety

def Anchor.shift (k : ℕ) : Anchor → Anchor
  | node id => node id
  | binding decl => binding (decl + k)

theorem Anchor.shift_eq_binding_iff {a : Anchor} {k d : ℕ} :
    a.shift k = .binding (d + k) ↔ a = .binding d := by
  cases a <;> simp [shift]

theorem Anchor.le_of_shift_eq {a : Anchor} {k d : ℕ} (h : a.shift k = .binding d) : k ≤ d := by
  cases a with
  | node id => cases h
  | binding decl => exact Anchor.binding.inj h ▸ Nat.le_add_left k decl

def Obligation.shift (k : ℕ) : Obligation → Obligation
  | release name decl path scopeEnd => release name (decl + k) path scopeEnd
  | retainBinder decl paths => retainBinder (decl + k) paths
  | o => o

def Finding.shift (k : ℕ) : Finding → Finding
  | obligation o => obligation (o.shift k)
  | f => f

namespace Obligation

@[simp] theorem anchor_shift (k : ℕ) (o : Obligation) : (o.shift k).anchor = o.anchor.shift k := by
  cases o <;> rfl

theorem shift_of_node {o : Obligation} {id : ℕ} (ho : o.anchor = .node id) (k : ℕ) :
    o.shift k = o := by
  cases o with
  | release | retainBinder => cases ho
  | _ => rfl

theorem shift_shift (k l : ℕ) (o : Obligation) : (o.shift k).shift l = o.shift (k + l) := by
  cases o with
  | release name decl path scopeEnd => simp only [shift, Nat.add_assoc]
  | retainBinder decl paths => simp only [shift, Nat.add_assoc]
  | _ => rfl

theorem shift_injective (k : ℕ) : Function.Injective (shift k) := by
  intro o o' h
  cases o <;> cases o' <;> simp_all [shift]

theorem shift_zero : shift 0 = id := by
  funext o
  cases o <;> rfl

end Obligation

/-- What is recorded at expressions only does not move. -/
theorem Finding.Belongs.shift_eq {nodes : Set ℕ} {f : Finding} (h : f.Belongs nodes ∅) (k : ℕ) :
    f.shift k = f := by
  cases f with
  | obligation o =>
      cases ho : o.anchor with
      | node id => exact congrArg Finding.obligation (Obligation.shift_of_node ho k)
      | binding decl =>
          rw [Belongs, ho] at h
          cases h
  | _ => rfl

theorem Finding.map_shift_eq {nodes : Set ℕ} {fs : List Finding}
    (hfs : ∀ f ∈ fs, f.Belongs nodes ∅) (k : ℕ) : fs.map (Finding.shift k) = fs := by
  calc fs.map (Finding.shift k) = fs.map id := List.map_congr_left fun f hf => (hfs f hf).shift_eq k
    _ = fs := List.map_id fs

/-! ## Runs that start later -/

theorem transduce_equivariant {σ α β : Type} {step : σ → α → σ × List β} {as : List α} {g : σ → σ}
    {h : β → β} (hstep : ∀ a ∈ as, ∀ s, step (g s) a = (g (step s a).1, (step s a).2.map h))
    (s : σ) :
    transduce step (g s) as = (g (transduce step s as).1, (transduce step s as).2.map h) := by
  induction as generalizing s with
  | nil => rfl
  | cons a as ih =>
      have hrest := ih fun b hb => hstep b (List.mem_cons_of_mem _ hb)
      rw [transduce_cons, transduce_cons, hstep a List.mem_cons_self, hrest, List.map_append]

def Local.shift (k : ℕ) (l : Local) : Local := { l with decl := l.decl + k }

namespace Lifetimes

def shift (k : ℕ) (s : Lifetimes) : Lifetimes :=
  ⟨s.next + k, s.scopes.map (List.map (Local.shift k))⟩

variable (k : ℕ) (s : Lifetimes)

theorem declare_shift (b : Binder) :
    (s.shift k).declare b = ((s.declare b).1.shift k, (s.declare b).2.map (Finding.shift k)) := by
  have hstate : ((s.shift k).declare b).1 = (s.declare b).1.shift k := by
    obtain ⟨next, scopes⟩ := s
    have hnext : next + k + 1 = next + 1 + k := Nat.add_right_comm next k 1
    cases scopes with
    | nil => exact congrArg (Lifetimes.mk · []) hnext
    | cons scope outer => exact congrArg (Lifetimes.mk · _) hnext
  have hfound : ((s.shift k).declare b).2 = (s.declare b).2.map (Finding.shift k) := by
    simp only [declare]
    split <;> rfl
  exact Prod.ext hstate hfound

theorem openScope_shift (bs : List Binder) :
    (s.shift k).openScope bs =
      ((s.openScope bs).1.shift k, (s.openScope bs).2.map (Finding.shift k)) :=
  transduce_equivariant (fun b _ s => declare_shift k s b) { s with scopes := [] :: s.scopes }

theorem closeScope_shift (scopeEnd : Span) :
    (s.shift k).closeScope scopeEnd =
      ((s.closeScope scopeEnd).1.shift k, (s.closeScope scopeEnd).2.map (Finding.shift k)) := by
  obtain ⟨next, scopes⟩ := s
  cases scopes with
  | nil => rfl
  | cons scope outer =>
      have hreleases : ∀ l : Local,
          (l.shift k).releases scopeEnd = (l.releases scopeEnd).map (Finding.shift k) := by
        intro l
        rw [Local.releases, Local.releases, List.map_map]
        rfl
      refine Prod.ext rfl ?_
      simp only [shift, closeScope, List.map_cons, List.flatMap_map, List.map_flatMap, hreleases]

end Lifetimes

namespace Context

variable {c : Context}

theorem scopeStep_shift (k : ℕ) (s : Lifetimes) (event : Event) :
    c.scopeStep (s.shift k) event =
      ((c.scopeStep s event).1.shift k, (c.scopeStep s event).2.map (Finding.shift k)) := by
  cases event with
  | openBlock role b => exact s.openScope_shift k _
  | closeBlock role b => exact s.closeScope_shift k _
  | leaveStmt stmt =>
      cases stmt with
      | bind name isMutable type init => exact s.declare_shift k _
      | _ => rfl
  | enterStmt | enterExpr | leaveExpr => rfl

theorem lifetimeStep_shift {v : Visit} (hv : v ∈ c.body.block.tour) (k : ℕ) (s : Lifetimes) :
    c.lifetimeStep (s.shift k) v =
      ((c.lifetimeStep s v).1.shift k, (c.lifetimeStep s v).2.map (Finding.shift k)) := by
  have howned : (c.ownershipFindings v).map (Finding.shift k) = c.ownershipFindings v :=
    Finding.map_shift_eq (fun f hf => belongs_ownershipFindings hv hf) k
  simp only [lifetimeStep, scopeStep_shift, List.map_append, howned]

/-- An analysis that starts later finds the same under later numbers. -/
theorem findings_shift (c : Context) (next k : ℕ) :
    c.findings (next + k) =
      ((c.findings next).1 + k, (c.findings next).2.map (Finding.shift k)) := by
  have hrun := transduce_equivariant (fun v hv s => c.lifetimeStep_shift hv k s) (.start next)
  have howned : c.lifetimeFindings (next + k) =
      ((c.lifetimeFindings next).1 + k, (c.lifetimeFindings next).2.map (Finding.shift k)) :=
    congrArg (fun run : Lifetimes × List Finding => (run.1.next, run.2)) hrun
  have hnodes : c.nodeFindings.map (Finding.shift k) = c.nodeFindings :=
    Finding.map_shift_eq (fun f hf => (atNode_nodeFindings hf).belongs) k
  rw [findings_eq, findings_eq, howned, List.map_append, hnodes]

end Context

end ProgramSafety
