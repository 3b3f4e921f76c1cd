import ProgramSafety.Analysis.Context
import ProgramSafety.Analysis.Transduce

/-!
# Constants and run-time checks

Integer arithmetic, casts and element accesses get the checks they need when
they run. What consists of literals only is evaluated here instead, with the
arithmetic of the running program, so that a constant that must fail is a
problem of the program. A negated literal is one literal, since its magnitude
alone may not fit the type.
-/

namespace ProgramSafety

abbrev Constants := Std.TreeMap Nat Int

structure IntOperation where
  type : IntType
  op : IntOp
  mode : ArithMode
  left : Expr
  right : Option Expr

namespace Problem

def literalMisfit (t : IntType) (v : Int) (span : Span) : Problem :=
  let (name, lo, hi) := (t.name, t.min, t.max)
  ⟨.constantOverflow s!"literal {v} does not fit {name} [{lo}, {hi}]", span⟩

def constantFault (t : IntType) (f : Fault) (span : Span) : Problem :=
  let (message, name) := (f.message, t.name)
  ⟨.constantOverflow s!"{message} (in {name} constant)", span⟩

def invalidCastOf (source target : Ty) (form : CastForm) (reason : String) (span : Span) :
    Problem :=
  ⟨.invalidCast source.text target.text form.keyword reason, span⟩

def indexType (t : Ty) (span : Span) : Problem :=
  let text := t.text
  ⟨.invalidIndex s!"index must be an integer, found `{text}`", span⟩

def negativeIndex (v : Int) (span : Span) : Problem :=
  ⟨.invalidIndex s!"negative index {v} can never be in bounds", span⟩

end Problem

/-- The check a cast between two types needs, or why there is no such cast. -/
def CastForm.checkBetween (form : CastForm) (source target : Ty) (elide : Bool) :
    Except String CastCheck :=
  match form, source.numeric?, target.numeric? with
  | .truncating, some _, some _ | .saturating, some _, some _ => .ok .unchecked
  | .truncating, _, _ | .saturating, _, _ =>
    .error "only numeric values can be truncated or saturated"
  | .fallible, some a, some b | .asserting, some a, some b => .ok (.between a b elide)
  | .fallible, _, _ | .asserting, _, _ =>
    if source = target then .ok .unchecked
    else .error "types are neither both numeric nor identical"

/-- The cast of a number: absent only if it is fallible and fails. -/
def CastForm.apply (form : CastForm) (s : Scalar) (t : NumericType) :
    Except Fault (Option Scalar) :=
  match form with
  | .fallible => .ok (s.convert? t)
  | .asserting => (s.assertCast t).map some
  | .truncating => .ok (some (s.truncate t))
  | .saturating => .ok (some (s.saturate t))

namespace Context

def literal? (c : Context) (e : Expr) : Option (IntType × Int) :=
  match (c.types.expr e).int?, e.form with
  | some t, .int v => some (t, v)
  | some t, .unary .neg _ ⟨_, _, _, .int v⟩ => some (t, Wide.clamp (-v))
  | _, _ => none

def operation? (c : Context) (e : Expr) : Option IntOperation :=
  match (c.types.expr e).int?, e.form with
  | some t, .binary l op mode r => op.intOp?.map fun op => ⟨t, op, mode, l, some r⟩
  | some t, .unary .neg mode inner => some ⟨t, .neg, mode, inner, none⟩
  | _, _ => none

/-- The value that folding may use for an expression. -/
def constant? (c : Context) (known : Constants) (e : Expr) : Option Int :=
  if c.options.foldConstants then known[e.id]? else none

def literalStep (known : Constants) (e : Expr) (t : IntType) (v : Int) :
    Constants × List Finding :=
  if v ∈ t then (known.insert e.id v, [])
  else (known, [.problem (.literalMisfit t v e.span)])

/-- The values of the operands, zero standing for an absent one. -/
def operands? (c : Context) (known : Constants) (o : IntOperation) : Option (Int × Int) :=
  match c.constant? known o.left, o.right.map (c.constant? known) with
  | some l, some (some r) => some (l, r)
  | some l, none => some (l, 0)
  | _, _ => none

def checkMarker (o : IntOperation) (node : Nat) : Marker :=
  match o.mode with
  | .checked => .overflow node o.op o.type o.op.divides
  | .wrapping => .wrapping node o.op o.type

def operationStep (c : Context) (known : Constants) (e : Expr) (o : IntOperation) :
    Constants × List Finding :=
  match c.operands? known o with
  | none => (known, [.marker (checkMarker o e.id)])
  | some (l, r) =>
    match o.mode.apply o.type o.op l r with
    | .ok v => (known.insert e.id v, [.marker (.folded e.id v)])
    | .error f => (known, [.problem (.constantFault o.type f e.span)])

/-- A cast that succeeds for certain makes a constant of an integer; a fallible
cast makes an optional, which is none. -/
def castConstant (form : CastForm) (known : Constants) (node : Nat) :
    Option Scalar → Constants
  | some (.int v) => if form = .fallible then known else known.insert node v
  | _ => known

def castStep (c : Context) (known : Constants) (e inner : Expr) (form : CastForm) :
    Constants × List Finding :=
  let source := c.types.expr inner
  let target := c.types.castTarget e
  if source.isUnknown || target.isUnknown then (known, [])
  else
    match form.checkBetween source target c.options.elideCasts with
    | .error reason => (known, [.problem (.invalidCastOf source target form reason e.span)])
    | .ok check =>
      match c.constant? known inner, target.numeric? with
      | some v, some t =>
        match form.apply (.int v) t with
        | .ok value =>
          (castConstant form known e.id value, [.marker (.foldedCast e.id form value)])
        | .error f => (known, [.problem ⟨.constantOverflow f.message, e.span⟩])
      | _, _ => (known, [.marker (.cast e.id form source target check)])

/-- An access is checked against the bounds of an array. A known negative index
is a problem, also when constants are not folded. -/
def indexFindings (c : Context) (known : Constants) (e base index : Expr) : List Finding :=
  let checked : List Finding :=
    if (known[index.id]?).any (· < 0) then
      [.problem (.negativeIndex ((known[index.id]?).getD 0) index.span)]
    else
      match c.types.expr base with
      | .array _ => [.marker (.bounds e.id)]
      | _ => []
  match c.types.expr index with
  | .int _ | .unknown => checked
  | t => [.problem (.indexType t index.span)]

def constantStep (c : Context) (known : Constants) (e : Expr) : Constants × List Finding :=
  match c.literal? e with
  | some (t, v) => literalStep known e t v
  | none =>
    match c.operation? e with
    | some o => c.operationStep known e o
    | none =>
      match e.form with
      | .cast inner form _ => c.castStep known e inner form
      | .index base index => (known, c.indexFindings known e base index)
      | _ => (known, [])

def constantVisit (c : Context) (known : Constants) (v : Visit) : Constants × List Finding :=
  match v.event with
  | .leaveExpr e => c.constantStep known e
  | _ => (known, [])

/-- The constants and run-time checks of the body. The tour does not go below
literals. -/
def constantFindings (c : Context) : List Finding :=
  (transduce c.constantVisit ∅
    (c.body.block.visits (fun e => (c.literal? e).isNone) .outermost .body)).2

end Context

end ProgramSafety
