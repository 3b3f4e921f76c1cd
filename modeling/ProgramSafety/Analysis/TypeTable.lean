import ProgramSafety.Analysis.Annotations
import ProgramSafety.Tree.Visit

/-!
# Types of expressions

The types written in a body are resolved before anything else is analysed. The
table gives, by node, the type of every expression, the declared type of every
binding (at its initialiser) and the target of every cast. A type that someone
wrote is reported when it does not resolve; one that was merely inferred becomes
unknown in silence.
-/

namespace ProgramSafety

structure TypeTable where
  exprs : Std.TreeMap Nat Ty
  bindings : Std.TreeMap Nat Ty
  casts : Std.TreeMap Nat Ty

namespace TypeTable

def empty : TypeTable := ⟨∅, ∅, ∅⟩

def expr (t : TypeTable) (e : Expr) : Ty := t.exprs.getD e.id .unknown

/-- The type of a binding with the given initialiser. -/
def binding (t : TypeTable) (init : Expr) : Ty := t.bindings.getD init.id (t.expr init)

def castTarget (t : TypeTable) (e : Expr) : Ty := t.casts.getD e.id .unknown

/-- Enters the types that an event brings up; a node entered twice keeps the
later types. -/
def enter (r : Registry) (scope : Scope) (t : TypeTable) : Event → TypeTable
  | .enterStmt (.bind _ _ type init) =>
    { t with bindings := t.bindings.insert init.id (r.typeOf scope type) }
  | .enterExpr e =>
    let t := { t with exprs := t.exprs.insert e.id (r.typeOf scope e.type) }
    match e.form with
    | .cast _ _ target => { t with casts := t.casts.insert e.id (r.typeOf scope target) }
    | _ => t
  | _ => t

def addBody (r : Registry) (t : TypeTable) (b : Body) : TypeTable :=
  b.block.tour.foldl (fun t v => t.enter r b.scope v.event) t

def ofBodies (r : Registry) (bs : List Body) : TypeTable := bs.foldl (addBody r) empty

end TypeTable

namespace Registry

/-- The instance an expression makes use of: the one its type names, if that is
generic and fully applied. -/
def usedInstance? (r : Registry) (scope : Scope) (e : Expr) : Option Concrete :=
  let t := r.typeOf scope e.type
  match t with
  | .adt _ _ (_ :: _) => if t.hasParams then none else r.instanceOf? t
  | _ => none

/-- The types that an expression spells out beside its own. -/
def spelledTypes (e : Expr) : List TypeRef :=
  match e.form with
  | .cast _ _ target => [target]
  | .construct type _ => [type]
  | .variant type _ _ => [type]
  | _ => []

def typeFindings (r : Registry) (scope : Scope) : Event → List Finding
  | .enterStmt (.bind _ _ type _) => (r.problemsOf scope type).map .problem
  | .enterExpr e =>
    (r.usedInstance? scope e).toList.map (.instantiated e.id ·) ++
      ((spelledTypes e).flatMap (r.problemsOf scope)).map .problem
  | _ => []

def bodyTypeFindings (r : Registry) (b : Body) : List Finding :=
  b.block.tour.flatMap fun v => r.typeFindings b.scope v.event

end Registry

end ProgramSafety
