import ProgramSafety.Analysis.Context

/-!
# Routes of failures

A failure is caught by the `try` statement in whose body it arises; outside of
one it propagates out of a function that is marked `throws`, and cannot arise in
any other. The handler of a `try` statement is not part of its body.
-/

namespace ProgramSafety

structure FailurePoint where
  node : Nat
  source : String
  span : Span

namespace Context

/-- The failure that may arise as a visit takes place. -/
def failurePoint? (c : Context) : Event → Option FailurePoint
  | .leaveStmt (.raise span value) => some ⟨value.id, "throw", span⟩
  | .leaveExpr e =>
    match c.callee? e with
    | some s => if s.throws then some ⟨e.id, s.name, e.span⟩ else none
    | none => none
  | _ => none

/-- The route of a failure, absent where none is allowed. -/
def route? (c : Context) (here : Setting) : Option Route :=
  if here.guarded then some .caught
  else if c.body.func.throws then some .propagate
  else none

def routingVisit (c : Context) (v : Visit) : List Finding :=
  match c.failurePoint? v.event with
  | none => []
  | some f =>
    match c.route? v.setting with
    | some route => [.routed f.node route]
    | none => [.problem ⟨.propagation f.source c.body.name, f.span⟩]

def routingFindings (c : Context) : List Finding := c.body.block.tour.flatMap c.routingVisit

end Context

end ProgramSafety
