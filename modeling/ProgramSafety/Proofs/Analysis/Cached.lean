import ProgramSafety.Analysis.Cached
import ProgramSafety.Proofs.Ownership.PathSearch
import ProgramSafety.Proofs.Ownership.TransferObligations
import ProgramSafety.Proofs.Typing.InstancePool

/-!
# Caches do not show

The analysis of a program with one pool of instances and one memo of counted paths gives
what the analysis gives that computes everything anew (`Session.cachedAnalyze_eq`). The
invariant is `Caches.Sound`: what is remembered is what would be found. Each step of the
analysis keeps it and, wherever it holds, finds what the step without caches finds
(`Caches.Answers`); a run has both from its steps.
-/

namespace ProgramSafety

namespace Caches

variable {r : Registry} {k : Caches}

/-- What is remembered is what would be found anew. -/
structure Sound (r : Registry) (k : Caches) : Prop where
  pool : k.pool.Sound r
  memo : k.memo.Sound r

theorem sound_empty : empty.Sound r := ⟨Pool.sound_empty, PathMemo.sound_empty⟩

/-- The answer is the given one, and what is remembered after it is sound. -/
structure Answers (r : Registry) {α : Type} (x : Caches × α) (a : α) : Prop where
  sound : x.1.Sound r
  eq : x.2 = a

theorem Sound.paths (hk : k.Sound r) (t : Ty) : Answers r (k.paths r t) (r.countedPaths t) := by
  rw [Caches.paths]
  cases hkind : r.kindOf t with
  | value => exact ⟨⟨hk.pool, hk.memo.query t⟩, PathMemo.query_fst hk.memo t⟩
  | _ =>
      refine ⟨hk, ?_⟩
      rw [Registry.countedPaths, Registry.pathsWithin.eq_def, hkind]

theorem Sound.instance? (hk : k.Sound r) (t : Ty) :
    Answers r (k.instance? r t) (r.instanceOf? t) := by
  unfold Caches.instance? Registry.instanceOf?
  cases t.adt? with
  | none => exact ⟨hk, rfl⟩
  | some applied =>
      obtain ⟨id, args⟩ := applied
      dsimp only
      cases hd : r.get? id with
      | none => exact ⟨hk, by simp [hd]⟩
      | some d =>
          let q : Demand r := ⟨id, d, hd, args⟩
          refine ⟨⟨hk.pool.ask q, hk.memo⟩, ?_⟩
          -- The pool answers with a position; what stands there is the instance asked for.
          have hread : (k.pool.request d id args).1.map ((k.pool.request d id args).2.made[·]?) =
              (d.instantiate id args).map some := Pool.read_ask hk.pool q
          simp only [hd, Option.bind_eq_bind, Option.bind_some]
          generalize k.pool.request d id args = answered at hread ⊢
          obtain ⟨answer, pool⟩ := answered
          cases answer <;> cases hmade : d.instantiate id args <;>
            simp_all [Except.map, Except.toOption]

/-- The state and the output are those given, and what is remembered is sound. -/
structure Follows (r : Registry) {σ β : Type} (x : (σ × Caches) × List β) (y : σ × List β) :
    Prop where
  sound : x.1.2.Sound r
  state : x.1.1 = y.1
  eq : x.2 = y.2

/-- A run whose steps ask the caches puts out what they put out without. -/
theorem Sound.transduce {α β : Type} {step : Caches → α → Caches × List β} {out : α → List β}
    (hk : k.Sound r) (hstep : ∀ k a, k.Sound r → Answers r (step k a) (out a)) (as : List α) :
    Answers r (ProgramSafety.transduce step k as) (as.flatMap out) := by
  induction as generalizing k with
  | nil => exact ⟨hk, rfl⟩
  | cons a as ih =>
      have hfirst := hstep k a hk
      have hrest := ih hfirst.sound
      rw [transduce_cons]
      exact ⟨hrest.sound, by rw [hfirst.eq, hrest.eq, List.flatMap_cons]⟩

/-- A run with a state whose steps ask the caches goes as it goes without. -/
theorem Sound.follows_transduce {σ α β : Type} {step : σ × Caches → α → (σ × Caches) × List β}
    {step' : σ → α → σ × List β} (hk : k.Sound r)
    (hstep : ∀ s k a, k.Sound r → Follows r (step (s, k) a) (step' s a)) (s : σ) (as : List α) :
    Follows r (ProgramSafety.transduce step (s, k) as) (ProgramSafety.transduce step' s as) := by
  induction as generalizing s k with
  | nil => exact ⟨hk, rfl, rfl⟩
  | cons a as ih =>
      have hfirst := hstep s k a hk
      have hrest := ih hfirst.sound (step (s, k) a).1.1
      rw [transduce_cons, transduce_cons, ← hfirst.state]
      exact ⟨hrest.sound, hrest.state, congrArg₂ (· ++ ·) hfirst.eq hrest.eq⟩

end Caches

/-! ## Types -/

namespace Registry

variable {r : Registry} {k : Caches}

theorem answers_cachedUse (hk : k.Sound r) (scope : Scope) (e : Expr) :
    Caches.Answers r (r.cachedUse scope k e) (r.usedInstance? scope e) := by
  unfold cachedUse usedInstance?
  dsimp only
  cases r.typeOf scope e.type with
  | adt id name args =>
      cases args with
      | nil => exact ⟨hk, rfl⟩
      | cons arg args =>
          dsimp only
          split
          · exact ⟨hk, rfl⟩
          · exact hk.instance? _
  | _ => exact ⟨hk, rfl⟩

theorem answers_cachedTypes (hk : k.Sound r) (scope : Scope) (event : Event) :
    Caches.Answers r (r.cachedTypes scope k event) (r.typeFindings scope event) := by
  cases event with
  | enterExpr e =>
      have huse := answers_cachedUse hk scope e
      refine ⟨huse.sound, ?_⟩
      rw [cachedTypes, typeFindings]
      dsimp only
      rw [huse.eq]
  | _ => exact ⟨hk, rfl⟩

theorem answers_cachedBodyTypes (hk : k.Sound r) (b : Body) :
    Caches.Answers r (r.cachedBodyTypes k b) (r.bodyTypeFindings b) :=
  hk.transduce (fun _ v hk => answers_cachedTypes hk b.scope v.event) b.block.tour

end Registry

/-! ## Ownership -/

namespace Context

variable {c : Context} {k : Caches}

theorem answers_cachedTransfer (hk : k.Sound c.registry) (x : Transfer) :
    Caches.Answers c.registry (c.cachedTransfer k x) (c.transferFindings x) := by
  unfold cachedTransfer
  dsimp only
  split
  next hcopy =>
    simp only [Bool.and_eq_true, beq_iff_eq] at hcopy
    have hpaths := hk.paths (c.types.expr x.value)
    have hfound := transferFindings_of_value hcopy.1.2 x.dest
    refine ⟨hpaths.sound, ?_⟩
    rw [hfound, hcopy.2, hpaths.eq]
    cases c.registry.countedPaths (c.types.expr x.value) <;> rfl
  next => exact ⟨hk, rfl⟩

theorem answers_cachedOverwritten (hk : k.Sound c.registry) (s : Stmt) :
    Caches.Answers c.registry (c.cachedOverwritten k s) (c.overwritten s) := by
  cases s with
  | assign target value =>
      have hpaths := hk.paths (c.types.expr target)
      unfold cachedOverwritten overwritten
      dsimp only
      cases (c.types.expr target).isWeakOptional with
      | true => exact ⟨hk, rfl⟩
      | false =>
          refine ⟨hpaths.sound, ?_⟩
          simp only [Bool.false_eq_true, if_false, hpaths.eq]
          cases c.registry.countedPaths (c.types.expr target) <;> rfl
  | _ => exact ⟨hk, rfl⟩

theorem answers_cachedOwnership (hk : k.Sound c.registry) (v : Visit) :
    Caches.Answers c.registry (c.cachedOwnership k v) (c.ownershipFindings v) := by
  have htransfers : ∀ {k : Caches}, k.Sound c.registry → ∀ xs, Caches.Answers c.registry
      (transduce c.cachedTransfer k xs) (xs.flatMap c.transferFindings) :=
    fun hk xs => hk.transduce (fun _ x hk => answers_cachedTransfer hk x) xs
  obtain ⟨here, event⟩ := v
  cases event with
  | leaveStmt s =>
      have hdropped := answers_cachedOverwritten hk s
      have hfound := htransfers hdropped.sound (c.stmtTransfers s)
      exact ⟨hfound.sound, congrArg₂ (· ++ ·) hdropped.eq hfound.eq⟩
  | leaveExpr e =>
      have hfound := htransfers hk (c.exprTransfers e)
      exact ⟨hfound.sound, congrArg (_ ++ ·) hfound.eq⟩
  | _ => exact ⟨hk, rfl⟩

theorem answers_cachedBinders (hk : k.Sound c.registry) (role : Role) :
    Caches.Answers c.registry (c.cachedBinders k role) (c.binders role) := by
  have hbinders : ∀ (shared : Bool) (bs : List (Ident × Ty)), Caches.Answers c.registry
      (transduce (c.cachedBinder shared) k bs)
      (bs.flatMap fun b => [⟨b.1, c.registry.countedPaths b.2, shared⟩]) := by
    intro shared bs
    refine hk.transduce (fun k b hk => ?_) bs
    have hpaths := hk.paths b.2
    exact ⟨hpaths.sound, by rw [cachedBinder, ← hpaths.eq]⟩
  cases role with
  | body =>
      have hfound := hbinders false (c.body.func.params.map fun p =>
        (p.name, c.registry.typeOf c.body.scope p.type))
      refine ⟨hfound.sound, hfound.eq.trans ?_⟩
      rw [List.flatMap_map, ← List.map_eq_flatMap]
      rfl
  | arm scrutinee pattern =>
      have hfound := hbinders scrutinee.isPlace (c.armBinders (c.types.expr scrutinee) pattern)
      refine ⟨hfound.sound, hfound.eq.trans ?_⟩
      rw [← List.map_eq_flatMap]
      rfl
  | _ => exact ⟨hk, rfl⟩

theorem follows_cachedScopes (hk : k.Sound c.registry) (s : Lifetimes) (event : Event) :
    Caches.Follows c.registry (c.cachedScopes s k event) (c.scopeStep s event) := by
  cases event with
  | openBlock role block =>
      have hbinders := answers_cachedBinders hk role
      have hopened := congrArg s.openScope hbinders.eq
      exact ⟨hbinders.sound, congrArg Prod.fst hopened, congrArg Prod.snd hopened⟩
  | leaveStmt st =>
      cases st with
      | bind name isMutable type init =>
          have hpaths := hk.paths (c.types.binding init)
          have hdeclared := congrArg (fun ps => s.declare ⟨name, ps, false⟩) hpaths.eq
          exact ⟨hpaths.sound, congrArg Prod.fst hdeclared, congrArg Prod.snd hdeclared⟩
      | _ => exact ⟨hk, rfl, rfl⟩
  | _ => exact ⟨hk, rfl, rfl⟩

theorem follows_cachedLifetimeStep (hk : k.Sound c.registry) (s : Lifetimes) (v : Visit) :
    Caches.Follows c.registry (c.cachedLifetimeStep (s, k) v) (c.lifetimeStep s v) := by
  have howned := answers_cachedOwnership hk v
  have hscopes := follows_cachedScopes howned.sound s v.event
  exact ⟨hscopes.sound, hscopes.state, congrArg₂ (· ++ ·) howned.eq hscopes.eq⟩

/-! ## Matches -/

theorem answers_cachedMatched (hk : k.Sound c.registry) (t : Ty) (span : Span) :
    Caches.Answers c.registry (c.cachedMatched k t span) (c.matched? t span) := by
  have hfound := hk.instance? t
  have hchosen := congrArg (fun found : Option Concrete => found.bind fun i =>
    if i.shape.isEnum then some (i.name, i.shape.variants) else none) hfound.eq
  cases t with
  | wrap w u =>
      cases w with
      | optional => exact ⟨hk, rfl⟩
      | _ => exact ⟨hfound.sound, hchosen⟩
  | _ => exact ⟨hfound.sound, hchosen⟩

theorem answers_cachedMatch (hk : k.Sound c.registry) (node : ℕ) (span : Span)
    (scrutinee : Expr) (patterns : List Pattern) :
    Caches.Answers c.registry (c.cachedMatch k node span scrutinee patterns)
      (c.matchFindings node span scrutinee patterns) := by
  have hmatched := answers_cachedMatched hk (c.types.expr scrutinee) span
  unfold cachedMatch matchFindings
  dsimp only
  split
  · exact ⟨hk, rfl⟩
  · rw [← hmatched.eq]
    generalize c.cachedMatched k (c.types.expr scrutinee) span = answered at hmatched
    obtain ⟨k', found⟩ := answered
    cases found <;> exact ⟨hmatched.sound, rfl⟩

theorem answers_cachedCoverage (hk : k.Sound c.registry) (v : Visit) :
    Caches.Answers c.registry (c.cachedCoverage k v) (c.coverageVisit v) := by
  unfold cachedCoverage coverageVisit
  cases v.event with
  | leaveExpr e =>
      dsimp only
      cases e.form with
      | matchOn span scrutinee arms => exact answers_cachedMatch hk _ _ _ _
      | _ => exact ⟨hk, rfl⟩
  | _ => exact ⟨hk, rfl⟩

/-! ## Bodies and programs -/

theorem follows_cachedFindings (hk : k.Sound c.registry) (next : ℕ) :
    Caches.Follows c.registry (c.cachedFindings (next, k)) (c.findings next) := by
  have howned := hk.follows_transduce (fun s _ v hk => follows_cachedLifetimeStep hk s v)
    (.start next) c.body.block.tour
  have hcovered := howned.sound.transduce (fun _ v hk => answers_cachedCoverage hk v)
    c.body.block.tour
  refine ⟨hcovered.sound, congrArg Lifetimes.next howned.state, ?_⟩
  exact congrArg₂ (fun owned covered => owned ++ c.constantFindings ++ covered ++ c.routingFindings)
    howned.eq hcovered.eq

end Context

namespace Session

theorem cachedFindings_eq (s : Session) (p : Program) : s.cachedFindings p = s.findings p := by
  let types := TypeTable.ofBodies s.registry p.bodies
  have hresolved := Caches.sound_empty.transduce
    (fun _ b hk => Registry.answers_cachedBodyTypes (r := s.registry) hk b) p.bodies
  have hfound : Caches.Follows s.registry
      (transduce (fun nk b => (s.context types b).cachedFindings nk)
        (0, (transduce s.registry.cachedBodyTypes .empty p.bodies).1) p.bodies)
      (transduce (fun next b => (s.context types b).findings next) 0 p.bodies) := by
    refine hresolved.sound.follows_transduce (fun next k b hk => ?_) 0 p.bodies
    exact Context.follows_cachedFindings (c := s.context types b) hk next
  exact congrArg₂ (· ++ ·) hresolved.eq hfound.eq

/-- One pool of instances and one memo of counted paths for a whole program change nothing in
its analysis. -/
theorem cachedAnalyze_eq (s : Session) (p : Program) : s.cachedAnalyze p = s.analyze p := by
  rw [cachedAnalyze, cachedFindings_eq]
  rfl

end Session

end ProgramSafety
