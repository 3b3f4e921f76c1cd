import ProgramSafety.Analysis.Transduce
import ProgramSafety.Ownership.Transfer

/-!
# Lifetimes of bindings

Every block opens a scope. What a binding owns is released when its scope is
closed, the bindings of a scope in the opposite order of their declaration.
Parameters belong to the scope of the body, a failure belongs to the scope of
its handler, and the binders of an arm belong to the scope of the arm.
-/

namespace ProgramSafety

/-- A name on the point of being bound. -/
structure Binder where
  name : Ident
  /-- The counted references the binding owns. -/
  paths : List FieldPath
  /-- The references are shared with the place the value was copied from. -/
  shared : Bool

structure Local where
  decl : Nat
  name : String
  paths : List FieldPath

def Local.releases (l : Local) (scopeEnd : Span) : List Finding :=
  l.paths.map fun p =>
    .obligation (.release l.name l.decl (if p.isEmpty then none else some p) scopeEnd)

/-- The open scopes, innermost first, each with its newest binding first. -/
structure Lifetimes where
  next : Nat
  scopes : List (List Local)

namespace Lifetimes

def start (next : Nat) : Lifetimes := ⟨next, []⟩

def declare (s : Lifetimes) (b : Binder) : Lifetimes × List Finding :=
  let retained : List Finding :=
    if b.shared && !b.paths.isEmpty then [.obligation (.retainBinder s.next b.paths)] else []
  let scopes := match s.scopes with
    | [] => []
    | scope :: outer => (⟨s.next, b.name.name, b.paths⟩ :: scope) :: outer
  (⟨s.next + 1, scopes⟩, .bound b.name :: retained)

def openScope (s : Lifetimes) (bs : List Binder) : Lifetimes × List Finding :=
  transduce declare { s with scopes := [] :: s.scopes } bs

def closeScope (s : Lifetimes) (scopeEnd : Span) : Lifetimes × List Finding :=
  match s.scopes with
  | [] => (s, [])
  | scope :: outer => ({ s with scopes := outer }, scope.flatMap (·.releases scopeEnd))

end Lifetimes

namespace Context

/-- The type of a binder that takes the whole payload of a variant, or one field
of it. -/
def binderType (c : Context) (scrutinee : Ty) (variant : String) (field : Option String) : Ty :=
  match scrutinee with
  | .optional t => if variant = "Some" ∧ field = none then t else .unknown
  | t =>
    match c.applied? t with
    | none => .unknown
    | some (d, s) =>
      match (d.shape.variant? variant).map Variant.payload, field with
      | some (.single u), none => u.substitute s
      | some (.fields fs), some name => (Field.typeIn? fs s name).getD .unknown
      | _, _ => .unknown

def alternativeBinders (c : Context) (scrutinee : Ty) (a : Alternative) : List (Ident × Ty) :=
  match a.bindings with
  | .none => []
  | .positional names => names.map fun n => (n, c.binderType scrutinee a.name none)
  | .named fields => fields.map fun f =>
    (f.binder, c.binderType scrutinee a.name (some f.field.name))

def firstOfName : List String → List (Ident × Ty) → List (Ident × Ty)
  | _, [] => []
  | seen, b :: bs =>
    if seen.contains b.1.name then firstOfName seen bs
    else b :: firstOfName (b.1.name :: seen) bs

/-- The names an arm binds, alternatives that bind one name sharing it. -/
def armBinders (c : Context) (scrutinee : Ty) : Pattern → List (Ident × Ty)
  | .catchAll _ => []
  | .variants _ alternatives =>
    firstOfName [] (alternatives.flatMap (c.alternativeBinders scrutinee))

/-- The names a block binds as it is opened. The type of a caught failure is not
known; it is released as a whole. -/
def binders (c : Context) : Role → List Binder
  | .plain => []
  | .body => c.body.func.params.map fun p =>
    ⟨p.name, c.registry.countedPaths (c.registry.typeOf c.body.scope p.type), false⟩
  | .handler binder => binder.toList.map fun name => ⟨name, [[]], false⟩
  | .arm scrutinee pattern =>
    (c.armBinders (c.types.expr scrutinee) pattern).map fun (name, t) =>
      ⟨name, c.registry.countedPaths t, scrutinee.isPlace⟩

def scopeStep (c : Context) (s : Lifetimes) : Event → Lifetimes × List Finding
  | .openBlock role _ => s.openScope (c.binders role)
  | .closeBlock _ block => s.closeScope block.span.endpoint
  | .leaveStmt (.bind name _ _ init) =>
    s.declare ⟨name, c.registry.countedPaths (c.types.binding init), false⟩
  | _ => (s, [])

/-- One visit of the ownership analysis. A binding is declared after its value
has been transferred. -/
def lifetimeStep (c : Context) (s : Lifetimes) (v : Visit) : Lifetimes × List Finding :=
  let (s', found) := c.scopeStep s v.event
  (s', c.ownershipFindings v ++ found)

/-- The ownership analysis of the body. Bindings are numbered from `next` on; the
number after the last is returned. -/
def lifetimeFindings (c : Context) (next : Nat) : Nat × List Finding :=
  let (s, found) := transduce c.lifetimeStep (.start next) c.body.block.tour
  (s.next, found)

end Context

end ProgramSafety
