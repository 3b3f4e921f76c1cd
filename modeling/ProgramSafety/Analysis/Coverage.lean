import ProgramSafety.Analysis.Context

/-!
# Coverage of matches

The arms of a match are tried from first to last. A variant is handled by the
first arm that names it, and a catch-all handles what is left. A match should
leave no variant out, and every part of it should handle something.
-/

namespace ProgramSafety

/-- The variants that every arm handles, and what is wrong with the match. -/
structure Coverage where
  arms : List (List String)
  problems : List Problem
deriving DecidableEq, Repr

namespace Coverage

/-- A binding of a field that the payload lacks, or that was bound before. -/
def fieldProblem? (v : Variant) (fields : List Field) : List String → List FieldBinding →
    Option Problem
  | _, [] => none
  | seen, b :: bs =>
    let (name, field) := (v.name, b.field.name)
    if !fields.any (·.name == field) then
      some ⟨.patternShape s!"'{name}' has no field '{field}'", b.field.span⟩
    else if seen.contains field then
      some ⟨.patternShape s!"field '{field}' of '{name}' is bound twice", b.field.span⟩
    else fieldProblem? v fields (field :: seen) bs

/-- The problem of an alternative that does not bind the payload in the way the
variant declares it. Binding nothing is always possible. -/
def bindingProblem? (v : Variant) (a : Alternative) : Option Problem :=
  let name := v.name
  let wrong (text : String) : Option Problem := some ⟨.patternShape text, a.span⟩
  match a.bindings, v.payload with
  | .none, _ => none
  | .positional bs, .unit =>
    if bs.isEmpty then none else wrong s!"'{name}' carries no payload"
  | .named bs, .unit => if bs.isEmpty then none else wrong s!"'{name}' carries no payload"
  | .positional bs, .single _ =>
    let found := bs.length
    if found = 1 then none
    else wrong s!"'{name}' binds exactly one value by position, found {found}"
  | .named _, .single _ => wrong s!"'{name}' carries a single value; bind it by position"
  | .positional _, .fields _ => wrong s!"'{name}' has named fields; bind them by name"
  | .named bs, .fields fs => fieldProblem? v fs [] bs

def uncovered (covered : List String) : List String → List String
  | [] => []
  | n :: ns =>
    if covered.contains n then uncovered covered ns else n :: uncovered (n :: covered) ns

def noVariant (enum : String) (a : Alternative) : Problem :=
  let name := a.name
  ⟨.patternShape s!"'{enum}' has no variant '{name}'", a.span⟩

def repeated (a : Alternative) : Problem :=
  let name := a.name
  ⟨.unreachableArm s!"variant '{name}'", a.span⟩

/-- The variants that the alternatives of an arm handle, given the variants
covered before it. -/
def ofAlternatives (enum : String) (vs : List Variant) :
    List String → List Alternative → List String × List Problem
  | _, [] => ([], [])
  | covered, a :: as =>
    match vs.find? (·.name == a.name) with
    | none =>
      let (handled, ps) := ofAlternatives enum vs covered as
      (handled, noVariant enum a :: ps)
    | some v =>
      let shape := (bindingProblem? v a).toList
      if covered.contains a.name then
        let (handled, ps) := ofAlternatives enum vs covered as
        (handled, shape ++ repeated a :: ps)
      else
        let (handled, ps) := ofAlternatives enum vs (a.name :: covered) as
        (a.name :: handled, shape ++ ps)

def isCatchAll : Pattern → Bool
  | .catchAll _ => true
  | .variants .. => false

def ofPattern (enum : String) (vs : List Variant) (covered : List String) (caught : Bool) :
    Pattern → List String × List Problem
  | .catchAll span =>
    (uncovered covered (vs.map (·.name)),
      if caught || covered.length == vs.length then [⟨.unreachableArm "every variant", span⟩]
      else [])
  | .variants _ alternatives => ofAlternatives enum vs covered alternatives

def missing (vs : List Variant) (covered : List String) : List String :=
  (vs.map (·.name)).filter (!covered.contains ·)

def ofPatterns (enum : String) (vs : List Variant) (span : Span) (covered : List String)
    (caught : Bool) : List Pattern → Coverage
  | [] =>
    let left := missing vs covered
    ⟨[], if caught || left.isEmpty then [] else [⟨.nonExhaustiveMatch enum left, span⟩]⟩
  | p :: ps =>
    let (handled, found) := ofPattern enum vs covered caught p
    let rest := ofPatterns enum vs span (covered ++ handled) (caught || isCatchAll p) ps
    ⟨handled :: rest.arms, found ++ rest.problems⟩

def ofMatch (enum : String) (vs : List Variant) (patterns : List Pattern) (span : Span) :
    Coverage :=
  ofPatterns enum vs span [] false patterns

def optionalVariants (t : Ty) (span : Span) : List Variant :=
  [⟨"None", span, none, none, .unit⟩, ⟨"Some", span, none, none, .single t⟩]

end Coverage

namespace Context

/-- The name and variants of the type a match looks at, if it has variants. -/
def matched? (c : Context) (t : Ty) (span : Span) : Option (String × List Variant) :=
  match t with
  | .optional u => some (t.text, Coverage.optionalVariants u span)
  | t => do
    let i ← c.registry.instanceOf? t
    if i.shape.isEnum then some (i.name, i.shape.variants) else none

/-- The arms that name variants of something that has none. -/
def misplacedArms (t : Ty) (patterns : List Pattern) : List Problem :=
  patterns.filterMap fun
    | .catchAll _ => none
    | .variants span _ =>
      let text := t.text
      some ⟨.patternShape s!"'{text}' is not an enum; only a catch-all arm can match it", span⟩

def matchFindings (c : Context) (node : Nat) (span : Span) (scrutinee : Expr)
    (patterns : List Pattern) : List Finding :=
  let t := c.types.expr scrutinee
  if t.isUnknown then []
  else
    match c.matched? t span with
    | some (name, vs) =>
      let coverage := Coverage.ofMatch name vs patterns span
      coverage.problems.map .problem ++ [.plan node coverage.arms]
    | none => (misplacedArms t patterns).map .problem

def coverageVisit (c : Context) (v : Visit) : List Finding :=
  match v.event with
  | .leaveExpr e =>
    match e.form with
    | .matchOn span scrutinee arms => c.matchFindings e.id span scrutinee (arms.map (·.pattern))
    | _ => []
  | _ => []

def coverageFindings (c : Context) : List Finding := c.body.block.tour.flatMap c.coverageVisit

end Context

end ProgramSafety
