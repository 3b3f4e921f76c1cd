import ProgramSafety.Proofs.Analysis.Placement
import ProgramSafety.Proofs.Ownership.Scopes

/-!
# Balance of releases

The annotations of a program number its bindings in the order of declaration and
release every binding exactly once, at the end of its scope. The releases come in
the order in which the forest of scopes gives them back: the last binding of a scope
first, and an inner scope before the scope around it
(`Session.releases_balanced`).
-/

namespace ProgramSafety

/-- What is recorded at expressions only leaves the scopes alone. -/
theorem Finding.Belongs.quiet {nodes : Set ℕ} {f : Finding} (h : f.Belongs nodes ∅) : f.Quiet := by
  cases f with
  | bound => exact absurd h Set.not_nonempty_empty
  | obligation o =>
      cases o with
      | release => cases h
      | _ => exact ⟨rfl, rfl⟩
  | _ => exact ⟨rfl, rfl⟩

namespace Context

variable {c : Context}

/-! ## The scopes of a program -/

def scopes (c : Context) : ScopeForest := (Fragment.block .body c.body.block).scopes c

theorem own_scopes (c : Context) (n : ℕ) : c.scopes.own n = [] := by
  rw [scopes, Fragment.scopes_eq]
  rfl

theorem describes_tour (c : Context) (next : ℕ) :
    c.scopes.Describes c.registry (.start next)
      (transduce c.lifetimeStep (.start next) c.body.block.tour) :=
  c.describes_visits .outermost (.block .body c.body.block) (.start next)

theorem describes_findings (c : Context) (next : ℕ) :
    c.scopes.Describes c.registry (.start next)
      (.start (c.findings next).1, (c.findings next).2) := by
  have hquiet : ∀ f ∈ c.nodeFindings, f.Quiet := fun f hf => (atNode_nodeFindings hf).belongs.quiet
  have hrun := (c.describes_tour next).append (ScopeForest.describes_quiet hquiet _)
  rw [ScopeForest.append_nil] at hrun
  have hstart : .start (c.findings next).1 =
      (transduce c.lifetimeStep (.start next) c.body.block.tour).1 := by
    change Lifetimes.start (transduce c.lifetimeStep (.start next) c.body.block.tour).1.next = _
    rw [(c.describes_tour next).state]
    rfl
  have hfound : (c.findings next).2 =
      (transduce c.lifetimeStep (.start next) c.body.block.tour).2 ++ c.nodeFindings :=
    congrArg Prod.snd (c.findings_eq next)
  rwa [hstart, hfound]

end Context

namespace Session

def scopes (s : Session) (p : Program) : ScopeForest :=
  .concat (p.bodies.map fun b => (s.context (TypeTable.ofBodies s.registry p.bodies) b).scopes)

theorem describes_bodies (s : Session) (types : TypeTable) (bs : List Body) (next : ℕ) :
    (ScopeForest.concat (bs.map fun b => (s.context types b).scopes)).Describes s.registry
      (.start next)
      (.start (transduce (fun next b => (s.context types b).findings next) next bs).1,
        (transduce (fun next b => (s.context types b).findings next) next bs).2) := by
  induction bs generalizing next with
  | nil => exact ScopeForest.describes_quiet (by simp) _
  | cons b bs ih => exact ((s.context types b).describes_findings next).append (ih _)

theorem describes_findings (s : Session) (p : Program) :
    ∃ next, (s.scopes p).Describes s.registry (.start 0) (.start next, s.findings p) := by
  have hquiet : ∀ f ∈ p.bodies.flatMap s.registry.bodyTypeFindings, f.Quiet := by
    intro f hf
    obtain ⟨b, -, hf⟩ := List.mem_flatMap.1 hf
    exact (Registry.atNode_bodyTypeFindings hf).belongs.quiet
  exact ⟨_, (ScopeForest.describes_quiet hquiet _).append (s.describes_bodies _ p.bodies 0)⟩

theorem own_scopes (s : Session) (p : Program) (n : ℕ) : (s.scopes p).own n = [] := by
  apply ScopeForest.own_concat
  intro f hf n
  obtain ⟨b, -, rfl⟩ := List.mem_map.1 hf
  exact Context.own_scopes _ n

end Session

/-! ## Recorded releases -/

def Obligation.isRelease : Obligation → Bool
  | release .. => true
  | _ => false

def Annotations.releases (a : Annotations) : List Obligation :=
  a.obligations.items.toList.filter Obligation.isRelease

theorem Finding.filterMap_release? (fs : List Finding) :
    fs.filterMap release? = (fs.filterMap obligation?).filter Obligation.isRelease := by
  rw [List.filter_filterMap]
  congr 1
  funext f
  cases f with
  | obligation o => cases o <;> rfl
  | _ => rfl

theorem Annotations.releases_ofFindings (fs : List Finding) :
    (ofFindings fs).releases = (fs.filterMap Finding.release?).eraseDups := by
  rw [releases, obligations_ofFindings, filter_eraseDups, Finding.filterMap_release?]

theorem Annotations.releases_obligationsOf (fs : List Finding) (decl : ℕ) :
    ((ofFindings fs).obligationsOf decl).filter Obligation.isRelease =
      (ofFindings fs).releases.filter (·.anchor = .binding decl) := by
  rw [obligationsOf, (faithful_ofFindings fs).itemsAt_eq, releases, List.filter_filter,
    List.filter_filter]
  apply List.filter_congr
  intro o _
  exact Bool.and_comm _ _

namespace Release

variable (r : Registry) (x : Release)

/-- The releases of a binding as they are recorded: one for every reference. -/
def recorded : List Obligation := (x.declaration.paths r).eraseDups.map x.obligation

theorem obligation_injective : Function.Injective x.obligation := by
  intro p q h
  cases p <;> cases q <;> simp_all [obligation]

theorem eraseDups_obligations : (x.obligations r).eraseDups = x.recorded r :=
  eraseDups_map x.obligation_injective _

variable {r x}

theorem anchor_of_mem_obligations {o : Obligation} (ho : o ∈ x.obligations r) :
    o.anchor = .binding x.decl := by
  obtain ⟨p, -, rfl⟩ := List.mem_map.1 ho
  rfl

theorem anchor_of_mem_recorded {o : Obligation} (ho : o ∈ x.recorded r) :
    o.anchor = .binding x.decl := by
  obtain ⟨p, -, rfl⟩ := List.mem_map.1 ho
  rfl

end Release

namespace Session

theorem nodup_anchors (s : Session) (p : Program) :
    (((s.scopes p).released 0).map fun x => Anchor.binding x.decl).Nodup := by
  have hinj : Function.Injective Anchor.binding := fun _ _ h => Anchor.binding.inj h
  have hnodup := ((s.scopes p).nodup_decl_released 0).map hinj
  rwa [List.map_map] at hnodup

theorem releases_analyze (s : Session) (p : Program) :
    (s.analyze p).annotations.releases =
      ((s.scopes p).released 0).flatMap (Release.recorded s.registry) := by
  obtain ⟨next, hp⟩ := s.describes_findings p
  calc (s.analyze p).annotations.releases
      = ((s.findings p).filterMap Finding.release?).eraseDups :=
        Annotations.releases_ofFindings (s.findings p)
    _ = (((s.scopes p).released 0).flatMap (Release.obligations s.registry)).eraseDups :=
        congrArg List.eraseDups hp.released
    _ = ((s.scopes p).released 0).flatMap fun x => (x.obligations s.registry).eraseDups :=
        eraseDups_flatMap (fun _ _ => Release.anchor_of_mem_obligations) (s.nodup_anchors p)
    _ = ((s.scopes p).released 0).flatMap (Release.recorded s.registry) := by
        simp only [Release.eraseDups_obligations]

/-- Bindings are numbered in the order of declaration. The releases are those of the
forest of scopes, in its order; those of a binding are one for every counted
reference of its type, all at the end of its scope. No scope stays open. -/
theorem releases_balanced (s : Session) (p : Program) :
    (s.analyze p).annotations.bindings = (s.scopes p).declarations.map Declaration.name ∧
    (s.analyze p).annotations.releases =
      ((s.scopes p).released 0).flatMap (Release.recorded s.registry) ∧
    (∀ k d, (s.scopes p).declarations[k]? = some d → ∃ scopeEnd,
      ⟨d, k, scopeEnd⟩ ∈ (s.scopes p).released 0 ∧
      ((s.analyze p).annotations.obligationsOf k).filter Obligation.isRelease =
        Release.recorded s.registry ⟨d, k, scopeEnd⟩) ∧
    ∀ types b next,
      (transduce (s.context types b).lifetimeStep (.start next) b.block.tour).1.scopes = [] := by
  refine ⟨?_, s.releases_analyze p, ?_, ?_⟩
  · obtain ⟨next, hp⟩ := s.describes_findings p
    exact (Annotations.bindings_ofFindings _).trans hp.bound
  · intro k d hd
    -- Every body is one scope, so no binding of the program lies outside of all scopes.
    have hmem : (d, k) ∈ ((s.scopes p).released 0).map (fun x => (x.declaration, x.decl)) := by
      have hperm := (s.scopes p).released_perm 0
      rw [s.own_scopes, List.append_nil] at hperm
      exact hperm.mem_iff.2 (List.mem_zipIdx_iff_getElem?.2 hd)
    obtain ⟨x, hx, hxd⟩ := List.mem_map.1 hmem
    obtain ⟨rfl, rfl⟩ := Prod.mk.inj hxd
    refine ⟨x.scopeEnd, hx, ?_⟩
    have hone := filter_flatMap_key (fun _ _ => Release.anchor_of_mem_recorded (r := s.registry))
      (s.nodup_anchors p) hx
    rw [← s.releases_analyze p] at hone
    exact (Annotations.releases_obligationsOf _ _).trans hone
  · intro types b next
    exact congrArg Lifetimes.scopes ((s.context types b).describes_tour next).state

end Session

namespace NestedScopes

def mark (offset : ℕ) : Span := ⟨offset, 1⟩

def cell : TypeRef := .named "Cell"

def pair : TypeRef := .named "Pair"

def made (id : ℕ) (type : TypeRef) : Expr := ⟨id, mark 0, type, .call [] "make" []⟩

def inspect : Expr :=
  ⟨5, mark 0, .named "void", .matchOn (mark 0)
    ⟨4, mark 0, .applied "Optional" [cell], .var "slot"⟩
    [⟨.variants (mark 0) [⟨mark 0, "Some", .positional [⟨"held", mark 5⟩]⟩], ⟨mark 50, []⟩⟩,
      ⟨.catchAll (mark 0), ⟨mark 55, []⟩⟩]⟩

/-- An inner block shadows a binding of the body; an arm and a handler follow. -/
def body : Block :=
  ⟨mark 90,
    [.bind ⟨"x", mark 1⟩ false cell (made 1 cell),
      .block ⟨mark 40, [.bind ⟨"x", mark 2⟩ false pair (made 2 pair),
        .bind ⟨"y", mark 3⟩ false cell (made 3 cell)]⟩,
      .expr inspect,
      .attempt ⟨mark 60, []⟩ (some ⟨"failure", mark 4⟩) ⟨mark 70, []⟩]⟩

def program : Program where
  decls :=
    [.type (.classType ⟨⟨"Cell", mark 0⟩, [], [], []⟩),
      .type (.structType ⟨⟨"Pair", mark 0⟩, [], [⟨"left", cell, mark 0⟩, ⟨"right", cell, mark 0⟩]⟩),
      .function ⟨⟨"run", mark 0⟩, [], [⟨⟨"slot", mark 0⟩, .applied "Optional" [cell]⟩], none, false,
        some body⟩]

def session : Session := ((Session.start .default).register program).1.close.1

theorem releases_balanced_nested :
    (session.analyze program).annotations.bindings.map Ident.name =
        ["slot", "x", "x", "y", "held", "failure"] ∧
      (session.analyze program).annotations.releases =
        [.release "y" 3 none ⟨41, 0⟩, .release "x" 2 (some ["left"]) ⟨41, 0⟩,
          .release "x" 2 (some ["right"]) ⟨41, 0⟩, .release "held" 4 none ⟨51, 0⟩,
          .release "failure" 5 none ⟨71, 0⟩, .release "x" 1 none ⟨91, 0⟩,
          .release "slot" 0 none ⟨91, 0⟩] ∧
      ∃ scopeEnd, ((session.analyze program).annotations.obligationsOf 4).filter
          Obligation.isRelease =
        Release.recorded session.registry
          ⟨⟨⟨"held", mark 5⟩, some (.adt 0 "Cell" [])⟩, 4, scopeEnd⟩ := by
  obtain ⟨hbindings, hreleases, hone, -⟩ := Session.releases_balanced session program
  obtain ⟨scopeEnd, -, hheld⟩ := hone 4 ⟨⟨"held", mark 5⟩, some (.adt 0 "Cell" [])⟩
    (by decide +kernel)
  refine ⟨?_, hreleases.trans (by decide +kernel), scopeEnd, hheld⟩
  rw [hbindings]
  decide +kernel

end NestedScopes

end ProgramSafety
