import ProgramSafety.Session

/-!
# Analysis with caches

The analysis of a program asks for the same instances and the same counted paths
many times. Here the answers are kept: one pool of instances and one memo of
paths are passed on from visit to visit and from body to body. Everything that
asks for neither is as in `Session.analyze`.
-/

namespace ProgramSafety

/-- What the analysis of a program remembers. -/
structure Caches where
  pool : Pool
  memo : PathMemo

namespace Caches

def empty : Caches := ⟨.empty, .empty⟩

/-- The counted paths of a type. Only values are searched. -/
def paths (k : Caches) (r : Registry) (t : Ty) : Caches × List FieldPath :=
  match r.kindOf t with
  | .sharedRef => (k, [[]])
  | .weakRef | .rawPointer => (k, [])
  | .value =>
    let (ps, memo) := k.memo.query r t
    ({ k with memo := memo }, ps)

def instance? (k : Caches) (r : Registry) (t : Ty) : Caches × Option Concrete :=
  match t.adt? with
  | none => (k, none)
  | some (id, args) =>
    match r.get? id with
    | none => (k, none)
    | some d =>
      let (answer, pool) := k.pool.request d id args
      ({ k with pool := pool }, answer.toOption.bind fun i => pool.made[i]?)

end Caches

namespace Registry

def cachedUse (r : Registry) (scope : Scope) (k : Caches) (e : Expr) :
    Caches × Option Concrete :=
  let t := r.typeOf scope e.type
  match t with
  | .adt _ _ (_ :: _) => if t.hasParams then (k, none) else k.instance? r t
  | _ => (k, none)

def cachedTypes (r : Registry) (scope : Scope) (k : Caches) : Event → Caches × List Finding
  | .enterExpr e =>
    let (k', used) := r.cachedUse scope k e
    (k', used.toList.map (.instantiated e.id ·) ++
      ((spelledTypes e).flatMap (r.problemsOf scope)).map .problem)
  | event => (k, r.typeFindings scope event)

def cachedBodyTypes (r : Registry) (k : Caches) (b : Body) : Caches × List Finding :=
  transduce (fun k v => r.cachedTypes b.scope k v.event) k b.block.tour

end Registry

namespace Context

/-- A transfer asks for paths only to copy a value out of a place. -/
def cachedTransfer (c : Context) (k : Caches) (x : Transfer) : Caches × List Finding :=
  let source := c.types.expr x.value
  if !source.isUnknown && c.registry.kindOf source == .value && x.value.isPlace then
    let (k', ps) := k.paths c.registry source
    (k', if ps.isEmpty then [] else [.obligation (.deepCopy x.value.id ps)])
  else (k, c.transferFindings x)

def cachedOverwritten (c : Context) (k : Caches) : Stmt → Caches × List Finding
  | .assign target _ =>
    let t := c.types.expr target
    if t.isWeakOptional then (k, [])
    else
      let (k', ps) := k.paths c.registry t
      (k', if ps.isEmpty then [] else [.obligation (.releaseOverwritten target.id)])
  | _ => (k, [])

def cachedOwnership (c : Context) (k : Caches) (v : Visit) : Caches × List Finding :=
  match v.event with
  | .leaveStmt s =>
    let (k', dropped) := c.cachedOverwritten k s
    let (k'', found) := transduce c.cachedTransfer k' (c.stmtTransfers s)
    (k'', dropped ++ found)
  | .leaveExpr e =>
    let (k', found) := transduce c.cachedTransfer k (c.exprTransfers e)
    (k', (if v.setting.rawAllowed then []
      else (c.rawUse? e).toList.map fun what => .problem ⟨.unsafeContext what, e.span⟩) ++
      (reached e).flatMap c.readThrough ++ found)
  | _ => (k, c.ownershipFindings v)

def cachedBinder (c : Context) (shared : Bool) (k : Caches) (b : Ident × Ty) :
    Caches × List Binder :=
  let (k', ps) := k.paths c.registry b.2
  (k', [⟨b.1, ps, shared⟩])

def cachedBinders (c : Context) (k : Caches) : Role → Caches × List Binder
  | .body => transduce (c.cachedBinder false) k (c.body.func.params.map fun p =>
    (p.name, c.registry.typeOf c.body.scope p.type))
  | .arm scrutinee pattern => transduce (c.cachedBinder scrutinee.isPlace) k
    (c.armBinders (c.types.expr scrutinee) pattern)
  | role => (k, c.binders role)

def cachedScopes (c : Context) (s : Lifetimes) (k : Caches) :
    Event → (Lifetimes × Caches) × List Finding
  | .openBlock role _ =>
    let (k', bs) := c.cachedBinders k role
    let (s', found) := s.openScope bs
    ((s', k'), found)
  | .leaveStmt (.bind name _ _ init) =>
    let (k', ps) := k.paths c.registry (c.types.binding init)
    let (s', found) := s.declare ⟨name, ps, false⟩
    ((s', k'), found)
  | event =>
    let (s', found) := c.scopeStep s event
    ((s', k), found)

def cachedLifetimeStep (c : Context) (sk : Lifetimes × Caches) (v : Visit) :
    (Lifetimes × Caches) × List Finding :=
  let (k, owned) := c.cachedOwnership sk.2 v
  let (sk', found) := c.cachedScopes sk.1 k v.event
  (sk', owned ++ found)

def cachedMatched (c : Context) (k : Caches) (t : Ty) (span : Span) :
    Caches × Option (String × List Variant) :=
  match t with
  | .optional u => (k, some (t.text, Coverage.optionalVariants u span))
  | t =>
    let (k', found) := k.instance? c.registry t
    (k', found.bind fun i => if i.shape.isEnum then some (i.name, i.shape.variants) else none)

def cachedMatch (c : Context) (k : Caches) (node : Nat) (span : Span) (scrutinee : Expr)
    (patterns : List Pattern) : Caches × List Finding :=
  let t := c.types.expr scrutinee
  if t.isUnknown then (k, [])
  else
    match c.cachedMatched k t span with
    | (k', some (name, vs)) =>
      let coverage := Coverage.ofMatch name vs patterns span
      (k', coverage.problems.map .problem ++ [.plan node coverage.arms])
    | (k', none) => (k', (misplacedArms t patterns).map .problem)

def cachedCoverage (c : Context) (k : Caches) (v : Visit) : Caches × List Finding :=
  match v.event with
  | .leaveExpr e =>
    match e.form with
    | .matchOn span scrutinee arms => c.cachedMatch k e.id span scrutinee (arms.map (·.pattern))
    | _ => (k, [])
  | _ => (k, [])

def cachedFindings (c : Context) (nk : Nat × Caches) : (Nat × Caches) × List Finding :=
  let ((s, k), owned) := transduce c.cachedLifetimeStep (.start nk.1, nk.2) c.body.block.tour
  let (k', covered) := transduce c.cachedCoverage k c.body.block.tour
  ((s.next, k'), owned ++ c.constantFindings ++ covered ++ c.routingFindings)

end Context

namespace Session

/-- The findings about a program, with one pool and one memo for all of it. -/
def cachedFindings (s : Session) (p : Program) : List Finding :=
  let types := TypeTable.ofBodies s.registry p.bodies
  let (k, resolved) := transduce s.registry.cachedBodyTypes .empty p.bodies
  resolved ++
    (transduce (fun nk b => (s.context types b).cachedFindings nk) (0, k) p.bodies).2

def cachedAnalyze (s : Session) (p : Program) : Analysis :=
  let found := s.cachedFindings p
  ⟨.ofFindings found, .ofProblems s.options.limit (found.filterMap Finding.problem?)⟩

end Session

end ProgramSafety
