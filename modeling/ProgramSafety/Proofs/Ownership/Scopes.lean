import ProgramSafety.Proofs.Ownership.ScopeForest
import ProgramSafety.Proofs.Ownership.Uses

/-!
# The scopes of a body

`Fragment.scopes` reads the forest of scopes off the syntax: blocks are scopes, and
parameters, binders of arms and handlers, and `let` statements are the bindings in
them. The lifetime analysis goes through the forest from left to right. What it does
on a piece of it, that is, the scopes it leaves open, the names it enters and the
releases it finds, is described by that piece alone (`ScopeForest.Describes`).
-/

namespace ProgramSafety

def Context.declared (c : Context) : Role → List Declaration
  | .plain => []
  | .body => c.body.func.params.map fun p =>
    ⟨p.name, some (c.registry.typeOf c.body.scope p.type)⟩
  | .handler binder => binder.toList.map fun name => ⟨name, none⟩
  | .arm scrutinee pattern =>
    (c.armBinders (c.types.expr scrutinee) pattern).map fun (name, t) => ⟨name, some t⟩

namespace Fragment

def enclose (c : Context) (inner : ScopeForest) : Fragment → ScopeForest
  | block role b => .scope b.span.endpoint (.ofDeclarations (c.declared role) ++ inner) .nil
  | stmt (.bind name _ _ init) => inner ++ .binding ⟨name, some (c.types.binding init)⟩ .nil
  | _ => inner

def scopes (c : Context) (n : Fragment) : ScopeForest :=
  n.enclose c (.concat (n.inside.attach.map fun m => m.1.scopes c))
termination_by n.size
decreasing_by exact size_lt_of_mem_inside m.2

theorem scopes_eq (c : Context) (n : Fragment) :
    n.scopes c = n.enclose c (.concat (n.inside.map (scopes c))) := by
  rw [scopes, List.attach_map_val (f := scopes c)]

end Fragment

theorem Declaration.paths_of_type {r : Registry} {d : Declaration} {t : Ty} (ht : d.type = some t) :
    d.paths r = r.countedPaths t := by
  rw [paths, ht]
  unfold Registry.countedPaths Registry.pathsWithin
  cases hkind : r.kindOf t <;> simp only [hkind]

theorem Context.binders_arm (c : Context) (scrutinee : Expr) (pattern : Pattern) :
    c.binders (.arm scrutinee pattern) =
      (c.declared (.arm scrutinee pattern)).map fun d =>
        ⟨d.name, d.paths c.registry, scrutinee.isPlace⟩ := by
  simp [binders, declared, Function.comp_def, Declaration.paths_of_type]

theorem Context.binders_eq (c : Context) (role : Role) :
    ∃ shared, c.binders role =
      (c.declared role).map fun d => ⟨d.name, d.paths c.registry, shared⟩ := by
  cases role with
  | plain => exact ⟨false, rfl⟩
  | body => exact ⟨false, by simp [binders, declared, Function.comp_def, Declaration.paths_of_type]⟩
  | handler binder => exact ⟨false, by simp [binders, declared, Declaration.paths]⟩
  | arm scrutinee pattern => exact ⟨scrutinee.isPlace, c.binders_arm scrutinee pattern⟩

/-! ## Findings about scopes -/

def Finding.release? : Finding → Option Obligation
  | .obligation (.release name decl path scopeEnd) => some (.release name decl path scopeEnd)
  | _ => none

def Finding.Quiet (f : Finding) : Prop := f.bound? = none ∧ f.release? = none

theorem Finding.quiet_of_mem_problems {ps : List Problem} {f : Finding}
    (hf : f ∈ ps.map Finding.problem) : f.Quiet := by
  obtain ⟨p, -, rfl⟩ := List.mem_map.1 hf
  exact ⟨rfl, rfl⟩

/-- The release of one reference, the empty path being the whole value. -/
def Release.obligation (x : Release) (p : FieldPath) : Obligation :=
  .release x.declaration.name.name x.decl (if p.isEmpty then none else some p) x.scopeEnd

def Release.obligations (r : Registry) (x : Release) : List Obligation :=
  (x.declaration.paths r).map x.obligation

def Declaration.opened (r : Registry) (b : Declaration × ℕ) : Local :=
  ⟨b.2, b.1.name.name, b.1.paths r⟩

def Lifetimes.after (r : Registry) (s : Lifetimes) (f : ScopeForest) : Lifetimes where
  next := s.next + f.declarations.length
  scopes := match s.scopes with
    | [] => []
    | scope :: outer => ((f.own s.next).reverse.map (Declaration.opened r) ++ scope) :: outer

/-- A run of the lifetime analysis from a state goes through the forest. -/
structure ScopeForest.Describes (r : Registry) (f : ScopeForest) (s : Lifetimes)
    (run : Lifetimes × List Finding) : Prop where
  state : run.1 = s.after r f
  bound : run.2.filterMap Finding.bound? = f.declarations.map Declaration.name
  released : run.2.filterMap Finding.release? = (f.released s.next).flatMap (Release.obligations r)

namespace ScopeForest

variable {r : Registry} {f g : ScopeForest} {s : Lifetimes} {run run' : Lifetimes × List Finding}

theorem describes_quiet {fs : List Finding} (hfs : ∀ f ∈ fs, f.Quiet) (s : Lifetimes) :
    nil.Describes r s (s, fs) where
  state := by
    obtain ⟨next, scopes⟩ := s
    cases scopes <;> rfl
  bound := List.filterMap_eq_nil_iff.2 fun f hf => (hfs f hf).1
  released := List.filterMap_eq_nil_iff.2 fun f hf => (hfs f hf).2

theorem Describes.append (hf : f.Describes r s run) (hg : g.Describes r run.1 run') :
    (f ++ g).Describes r s (run'.1, run.2 ++ run'.2) where
  state := by
    rw [hg.state, hf.state, Lifetimes.after, Lifetimes.after, Lifetimes.after, declarations_append,
      own_append]
    cases s.scopes <;> simp [Nat.add_assoc]
  bound := by
    rw [List.filterMap_append, hf.bound, hg.bound, declarations_append, List.map_append]
  released := by
    have hnext : run.1.next = s.next + f.declarations.length := by rw [hf.state]; rfl
    rw [List.filterMap_append, hf.released, hg.released, hnext, released_append,
      List.flatMap_append]

/-- Declaring a name is going through its binding. -/
theorem describes_declare (d : Declaration) (shared : Bool) (s : Lifetimes) :
    (binding d nil).Describes r s (s.declare ⟨d.name, d.paths r, shared⟩) where
  state := by
    rw [Lifetimes.declare, Lifetimes.after]
    cases s.scopes <;> rfl
  bound := by
    rw [Lifetimes.declare]
    dsimp only
    split <;> rfl
  released := by
    rw [Lifetimes.declare]
    dsimp only
    split <;> rfl

theorem describes_declareAll (ds : List Declaration) (shared : Bool) (s : Lifetimes) :
    (ofDeclarations ds).Describes r s
      (transduce Lifetimes.declare s (ds.map fun d => ⟨d.name, d.paths r, shared⟩)) := by
  induction ds generalizing s with
  | nil => exact describes_quiet (by simp) s
  | cons d ds ih => exact (describes_declare d shared s).append (ih _)

/-- Closing a scope ends the scope that what was declared since it was opened
belongs to. -/
theorem Describes.close (hf : f.Describes r { s with scopes := [] :: s.scopes } run)
    (scopeEnd : Span) :
    (scope scopeEnd f nil).Describes r s
      ((run.1.closeScope scopeEnd).1, run.2 ++ (run.1.closeScope scopeEnd).2) := by
  -- The innermost scope was opened empty, so it holds the bindings of the forest and no others.
  have hclose : run.1.closeScope scopeEnd =
      (⟨s.next + f.declarations.length, s.scopes⟩,
        ((f.own s.next).reverse.map (Declaration.opened r)).flatMap (·.releases scopeEnd)) := by
    rw [hf.state]
    simp [Lifetimes.closeScope, Lifetimes.after]
  have hbound : ((f.own s.next).reverse.map (Declaration.opened r)).flatMap
      (fun l => (l.releases scopeEnd).filterMap Finding.bound?) = [] := by
    simp [Local.releases, List.filterMap_eq_nil_iff, Finding.bound?]
  have hreleased : ((f.own s.next).reverse.map (Declaration.opened r)).flatMap
      (fun l => (l.releases scopeEnd).filterMap Finding.release?) =
        ((f.own s.next).reverse.map fun b => ⟨b.1, b.2, scopeEnd⟩).flatMap
          (Release.obligations r) := by
    rw [List.flatMap_map, List.flatMap_map]
    congr 1
    funext b
    simp [Local.releases, Declaration.opened, Release.obligations, Release.obligation,
      List.filterMap_map, Function.comp_def, Finding.release?]
  rw [hclose]
  refine ⟨?_, ?_, ?_⟩
  · rw [Lifetimes.after, declarations, declarations, List.append_nil, own, own]
    cases s.scopes <;> simp
  · rw [List.filterMap_append, hf.bound, List.filterMap_flatMap, hbound, declarations, declarations]
    simp
  · rw [List.filterMap_append, hf.released, List.filterMap_flatMap, hreleased,
      ScopeForest.released, ScopeForest.released, List.append_nil, List.flatMap_append]

end ScopeForest

/-! ## The run over a body -/

namespace Context

variable {c : Context}

theorem quiet_useFindings {u : Use} {f : Finding} (hf : f ∈ c.useFindings u) : f.Quiet := by
  obtain h | ⟨p, h⟩ | ⟨o, h, ho⟩ := c.useFindings_cases u
  · simp [h] at hf
  · obtain rfl : f = .problem p := by simpa [h] using hf
    exact ⟨rfl, rfl⟩
  · obtain rfl : f = .obligation o := by simpa [h] using hf
    cases o with
    | release => simp [Obligation.anchor] at ho
    | _ => exact ⟨rfl, rfl⟩

theorem quiet_ownershipFindings (c : Context) (v : Visit) :
    ∀ f ∈ c.ownershipFindings v, f.Quiet := by
  obtain ⟨here, event⟩ := v
  intro f hf
  obtain ⟨n, rfl⟩ | ⟨n, rfl⟩ := event.enter_or_leave
  · obtain ⟨ps, hps⟩ := c.ownershipFindings_enter here n
    exact Finding.quiet_of_mem_problems (hps ▸ hf)
  · rw [ownershipFindings_leave, List.mem_append, List.mem_flatMap] at hf
    rcases hf with hf | ⟨u, -, hf⟩
    · exact Finding.quiet_of_mem_problems hf
    · exact quiet_useFindings hf

/-- The other findings of a visit do not matter to the scopes. -/
theorem describes_lifetimeStep {f : ScopeForest} {s s' : Lifetimes} {v : Visit}
    (hf : f.Describes c.registry s' (c.scopeStep s v.event)) :
    f.Describes c.registry s' (c.lifetimeStep s v) :=
  (ScopeForest.describes_quiet (c.quiet_ownershipFindings v) s').append hf

theorem describes_unscoped {s : Lifetimes} {v : Visit} (hv : c.scopeStep s v.event = (s, [])) :
    ScopeForest.nil.Describes c.registry s (c.lifetimeStep s v) := by
  apply describes_lifetimeStep
  rw [hv]
  exact ScopeForest.describes_quiet (by simp) s

/-- A block opens a scope with its binders and closes it. -/
theorem describes_block {inner : ScopeForest} {vs : List Visit}
    (hinner : ∀ s, inner.Describes c.registry s (transduce c.lifetimeStep s vs)) (here : Setting)
    (role : Role) (b : Block) (s : Lifetimes) :
    (Fragment.enclose c inner (.block role b)).Describes c.registry s
      (transduce c.lifetimeStep s
        (⟨here, .openBlock role b⟩ :: vs ++ [⟨here, .closeBlock role b⟩])) := by
  have hopen : (ScopeForest.ofDeclarations (c.declared role)).Describes c.registry
      { s with scopes := [] :: s.scopes } (c.lifetimeStep s ⟨here, .openBlock role b⟩) := by
    apply describes_lifetimeStep
    obtain ⟨shared, hbinders⟩ := c.binders_eq role
    rw [scopeStep, Lifetimes.openScope, hbinders]
    exact ScopeForest.describes_declareAll _ shared _
  rw [transduce_around]
  exact (hopen.append (hinner _)).close b.span.endpoint

theorem describes_enclose {inner : ScopeForest} {vs : List Visit}
    (hinner : ∀ s, inner.Describes c.registry s (transduce c.lifetimeStep s vs)) (here : Setting)
    (n : Fragment) (s : Lifetimes) :
    (n.enclose c inner).Describes c.registry s
      (transduce c.lifetimeStep s (⟨here, n.enter⟩ :: vs ++ [⟨here, n.leave⟩])) := by
  -- Only blocks touch the scopes as they are entered, and only blocks and `let` as they are left.
  have hentered : (∀ s, c.scopeStep s n.enter = (s, [])) → inner.Describes c.registry s
      ((transduce c.lifetimeStep (c.lifetimeStep s ⟨here, n.enter⟩).1 vs).1,
        (c.lifetimeStep s ⟨here, n.enter⟩).2 ++
          (transduce c.lifetimeStep (c.lifetimeStep s ⟨here, n.enter⟩).1 vs).2) :=
    fun henter => (describes_unscoped (henter s)).append (hinner _)
  have hleft : (∀ s, c.scopeStep s n.enter = (s, [])) → (∀ s, c.scopeStep s n.leave = (s, [])) →
      inner.Describes c.registry s
        (transduce c.lifetimeStep s (⟨here, n.enter⟩ :: vs ++ [⟨here, n.leave⟩])) := by
    intro henter hleave
    rw [transduce_around, ← inner.append_nil]
    exact (hentered henter).append (describes_unscoped (hleave _))
  cases n with
  | expr e => exact hleft (fun _ => rfl) (fun _ => rfl)
  | stmt stmt =>
      cases stmt with
      | bind name isMutable type init =>
          rw [transduce_around]
          refine (hentered fun _ => rfl).append (describes_lifetimeStep ?_)
          have hdeclare := fun s => ScopeForest.describes_declare (r := c.registry)
            ⟨name, some (c.types.binding init)⟩ false s
          rw [Declaration.paths_of_type rfl] at hdeclare
          exact hdeclare _
      | _ => exact hleft (fun _ => rfl) (fun _ => rfl)
  | block role b => exact describes_block hinner here role b s

theorem describes_parts {parts : List (Setting × Fragment)}
    (hparts : ∀ p ∈ parts, ∀ s, (p.2.scopes c).Describes c.registry s
      (transduce c.lifetimeStep s (p.2.visits (fun _ => true) p.1))) (s : Lifetimes) :
    (ScopeForest.concat (parts.map fun p => p.2.scopes c)).Describes c.registry s
      (transduce c.lifetimeStep s
        (parts.flatMap fun p => p.2.visits (fun _ => true) p.1)) := by
  induction parts generalizing s with
  | nil => exact ScopeForest.describes_quiet (by simp) s
  | cons p parts ih =>
      rw [List.flatMap_cons, transduce_append]
      have hp := hparts p List.mem_cons_self s
      exact hp.append (ih (fun q hq => hparts q (List.mem_cons_of_mem _ hq)) _)

/-- The analysis of a fragment goes through the scopes of the fragment. -/
theorem describes_visits (c : Context) (here : Setting) (n : Fragment) (s : Lifetimes) :
    (n.scopes c).Describes c.registry s
      (transduce c.lifetimeStep s (n.visits (fun _ => true) here)) := by
  induction n using Fragment.induction generalizing here s with
  | step n ih =>
      have hinner : ∀ s, (ScopeForest.concat (n.inside.map (Fragment.scopes c))).Describes
          c.registry s (transduce c.lifetimeStep s
            ((n.parts here).flatMap fun p => p.2.visits (fun _ => true) p.1)) := by
        intro s
        have hparts := describes_parts (fun p hp s => ih here p hp p.1 s) s
        rwa [← Fragment.map_snd_parts here, List.map_map]
      rw [Fragment.scopes_eq, Fragment.visits_eq, Fragment.toured_all]
      exact describes_enclose hinner here n s

end Context

end ProgramSafety
