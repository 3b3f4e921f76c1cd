import ProgramSafety.Tree.Decl
import ProgramSafety.Tree.Visit

/-!
# Outlines

A program written down as the sequence of its nodes, one line for each, in the
order in which a tour enters them.
-/

namespace ProgramSafety

def Stmt.line : Stmt → String
  | .bind name isMutable type _ =>
    let (name, type) := (name.name, type.text)
    s!"stmt let {name} mut={isMutable} {type}"
  | .attempt _ binder _ =>
    let binder := (binder.map (·.name)).getD "-"
    s!"stmt try {binder}"
  | _ => "stmt"

def Expr.line (e : Expr) : String :=
  let (id, place, type) := (e.id, if e.isPlace then "place" else "value", e.type.text)
  s!"expr #{id} {place} {type}"

def Role.lines (role : Role) (b : Block) : List String :=
  let size := b.stmts.length
  let line := s!"block {size}"
  match role with
  | .arm _ pattern =>
    let offset := pattern.span.offset
    [s!"arm {offset}", line]
  | _ => [line]

def Event.lines : Event → List String
  | openBlock role b => role.lines b
  | closeBlock _ _ => ["end"]
  | enterStmt s => [s.line]
  | enterExpr e => [e.line]
  | leaveStmt _ | leaveExpr _ => []

namespace FunctionDecl

def visits (f : FunctionDecl) : List Visit := (f.body.map Block.tour).getD []

def outline (f : FunctionDecl) : List String :=
  let name := f.name.name
  s!"function {name}" :: f.visits.flatMap (·.event.lines)

end FunctionDecl

def TypeDecl.outline (d : TypeDecl) : List String :=
  let name := d.name.name
  match d with
  | .structType _ => [s!"struct {name}"]
  | .enumType _ => [s!"enum {name}"]
  | .classType c => s!"class {name}" :: c.methods.flatMap FunctionDecl.outline

mutual

def Decl.outline : Decl → List String
  | .space name decls => "decl" :: s!"namespace {name}" :: Decl.outlineList decls
  | .type d => "decl" :: d.outline
  | .function f => "decl" :: f.outline

def Decl.outlineList : List Decl → List String
  | [] => []
  | d :: ds => d.outline ++ Decl.outlineList ds

end

namespace Program

def outline (p : Program) : List String :=
  let size := p.decls.length
  s!"program {size}" :: Decl.outlineList p.decls

def visits (p : Program) : List Visit := p.bodies.flatMap (·.block.tour)

/-- The ids of the expressions, in the order in which they are entered. -/
def exprIds (p : Program) : List Nat :=
  p.visits.filterMap fun v =>
    match v.event with
    | .enterExpr e => some e.id
    | _ => none

def stmtCount (p : Program) : Nat :=
  p.visits.countP fun v =>
    match v.event with
    | .enterStmt _ => true
    | _ => false

end Program

end ProgramSafety
