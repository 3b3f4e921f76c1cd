import ProgramSafety.Analysis.Context
import ProgramSafety.Ownership.WeakUse

/-!
# Transfers

A transfer moves or copies the value of an expression into a destination of a
known type. `Context.transfers` lists the transfers that happen when a statement
or expression is left, and `Context.transferFindings` says what a transfer
requires: a counted reference copied out of a place is retained, a value holding
counted references is copied deeply, a reference stored into a weak slot becomes
a weak link, and a weak reference can only be read into an optional.
-/

namespace ProgramSafety

/-- A value on its way into a destination. -/
structure Transfer where
  value : Expr
  dest : Ty

/-- A weak reference read into something that cannot be absent. -/
def Problem.weakRead (source dest : Ty) (span : Span) : Problem :=
  let (a, b) := (source.text, dest.text)
  ⟨.ownership s!"weak reference `{a}` can only be read into an optional, not `{b}`", span⟩

def Field.typeIn? (fields : List Field) (s : Subst) (name : String) : Option Ty :=
  (fields.find? (·.name == name)).map (·.type.substitute s)

namespace Context

/-- Arguments go to the parameters in order; those beyond the last parameter keep
their own type. -/
def argTransfers (c : Context) : List Expr → List Ty → List Transfer
  | [], _ => []
  | a :: as, [] => ⟨a, c.types.expr a⟩ :: c.argTransfers as []
  | a :: as, p :: ps => ⟨a, p⟩ :: c.argTransfers as ps

/-- The values of a constructed struct or class go to its fields; one for which
there is no field keeps its own type. -/
def fieldTransfers (c : Context) (t : Ty) (values : List (String × Expr)) : List Transfer :=
  match c.applied? t with
  | none => []
  | some (d, s) => values.map fun (name, v) =>
    ⟨v, (Field.typeIn? d.shape.fields s name).getD (c.types.expr v)⟩

/-- The arguments of a variant go to its payload, if they are given in the way the
payload is declared. -/
def payloadTransfers (c : Context) (t : Ty) (name : String) (args : Arguments) : List Transfer :=
  match c.applied? t with
  | none => []
  | some (d, s) =>
    match args, (d.shape.variant? name).map Variant.payload with
    | .positional vs, some (.single u) => vs.map fun v => ⟨v, u.substitute s⟩
    | .named vs, some (.fields fs) => vs.map fun (name, v) =>
      ⟨v, (Field.typeIn? fs s name).getD .unknown⟩
    | _, _ => []

def elementType : Ty → Ty
  | .array t => t
  | _ => .unknown

def presentType : Ty → Ty
  | .optional t => t
  | _ => .unknown

def exprTransfers (c : Context) (e : Expr) : List Transfer :=
  match e.form with
  | .call _ _ args | .methodCall _ _ args =>
    c.argTransfers args (((c.callee? e).map (·.params)).getD [])
  | .construct _ fields => c.fieldTransfers (c.types.expr e) fields
  | .variant _ name args => c.payloadTransfers (c.types.expr e) name args
  | .array items => items.map fun i => ⟨i, elementType (c.types.expr e)⟩
  | .present i => [⟨i, presentType (c.types.expr e)⟩]
  | _ => []

def returnType (c : Context) : Ty := c.registry.returnType c.body.scope c.body.func.ret

def stmtTransfers (c : Context) : Stmt → List Transfer
  | .bind _ _ _ init => [⟨init, c.types.binding init⟩]
  | .assign target value => [⟨value, c.types.expr target⟩]
  | .ret (some value) => [⟨value, c.returnType⟩]
  | .raise _ value => [⟨value, c.types.expr value⟩]
  | _ => []

def transferFindings (c : Context) (x : Transfer) : List Finding :=
  let source := c.types.expr x.value
  if source.isUnknown then []
  else
    match c.registry.kindOf source with
    | .weakRef =>
      if x.dest.isWeakOptional || x.dest.isUnknown then []
      else
        match x.dest with
        | .optional _ | .param _ =>
          if x.value.isPlace then [.obligation (.weakRead x.value.id)] else []
        | dest => [.problem (.weakRead source dest x.value.span)]
    | .sharedRef =>
      if x.dest.isWeakOptional then [.obligation (.weakStore x.value.id)]
      else if x.value.isPlace then [.obligation (.retain x.value.id)]
      else []
    | .value =>
      if x.value.isPlace && !(c.registry.countedPaths source).isEmpty then
        [.obligation (.deepCopy x.value.id (c.registry.countedPaths source))]
      else []
    | .rawPointer => []

/-- An object reached through a weak reference is checked to be there. -/
def readThrough (c : Context) (base : Expr) : List Finding :=
  if c.registry.kindOf (c.types.expr base) = .weakRef then
    [.obligation (.weakRead base.id)]
  else []

def reached (e : Expr) : List Expr :=
  match e.form with
  | .methodCall receiver _ _ => [receiver]
  | .field base _ => [base]
  | _ => []

def rawUse? (c : Context) (e : Expr) : Option String :=
  match e.form with
  | .addressOf _ => some "taking a raw pointer"
  | .deref inner =>
    match c.types.expr inner with
    | .rawPtr _ => some "dereferencing a raw pointer"
    | _ => none
  | _ => none

/-- What an assignment drops: whatever the target owned before. -/
def overwritten (c : Context) : Stmt → List Finding
  | .assign target _ =>
    let t := c.types.expr target
    if !t.isWeakOptional && !(c.registry.countedPaths t).isEmpty then
      [.obligation (.releaseOverwritten target.id)]
    else []
  | _ => []

def ownershipFindings (c : Context) (v : Visit) : List Finding :=
  match v.event with
  | .enterStmt (.bind _ _ type init) =>
    (c.registry.weakUse type.span (c.types.binding init)).map .problem
  | .leaveStmt s => c.overwritten s ++ (c.stmtTransfers s).flatMap c.transferFindings
  | .leaveExpr e =>
    (if v.setting.rawAllowed then []
      else (c.rawUse? e).toList.map fun what => .problem ⟨.unsafeContext what, e.span⟩) ++
      (reached e).flatMap c.readThrough ++ (c.exprTransfers e).flatMap c.transferFindings
  | _ => []

end Context

end ProgramSafety
