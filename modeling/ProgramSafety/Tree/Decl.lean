import ProgramSafety.Payload
import ProgramSafety.Tree.Expr

/-!
# Declarations

Programs are declarations of types and functions inside nested namespaces.
`Program.bodies` lists the function and method bodies with what a body can see
of its surroundings.
-/

namespace ProgramSafety

structure FieldDecl where
  name : String
  type : TypeRef
  span : Span

structure Literal where
  value : Int
  span : Span
deriving DecidableEq, Repr

structure VariantDecl where
  name : Ident
  span : Span
  value : Option Literal
  payload : Payload TypeRef FieldDecl

structure Param where
  name : Ident
  type : TypeRef

/-- A function or method; one without a body is defined elsewhere. -/
structure FunctionDecl where
  name : Ident
  generics : List String
  params : List Param
  ret : Option TypeRef
  throws : Bool
  body : Option Block

structure StructDecl where
  name : Ident
  generics : List String
  fields : List FieldDecl

structure ClassDecl where
  name : Ident
  generics : List String
  fields : List FieldDecl
  methods : List FunctionDecl

structure EnumDecl where
  name : Ident
  generics : List String
  underlying : Option TypeRef
  variants : List VariantDecl

inductive TypeDecl where
  | structType (d : StructDecl)
  | classType (d : ClassDecl)
  | enumType (d : EnumDecl)

namespace TypeDecl

def name : TypeDecl → Ident
  | structType d => d.name
  | classType d => d.name
  | enumType d => d.name

def generics : TypeDecl → List String
  | structType d => d.generics
  | classType d => d.generics
  | enumType d => d.generics

end TypeDecl

inductive Decl where
  | space (name : String) (decls : List Decl)
  | type (d : TypeDecl)
  | function (d : FunctionDecl)

structure Program where
  decls : List Decl

/-- A namespace, outermost segment first. -/
abbrev Namespace := List String

namespace Namespace

def qualifier (ns : Namespace) : String := String.join (ns.map (· ++ "::"))

/-- The namespace and those around it, innermost first. -/
def outward (ns : Namespace) : List Namespace :=
  (List.range (ns.length + 1)).reverse.map ns.take

end Namespace

/-- What names a written type is resolved against: the namespace it stands in and
the type parameters it can see. -/
structure Scope where
  space : Namespace
  generics : List String

def Scope.root : Scope := ⟨[], []⟩

structure Body where
  space : Namespace
  owner : Option ClassDecl
  func : FunctionDecl
  block : Block

namespace Body

def name (b : Body) : String :=
  let owner := match b.owner with
    | some c => c.name.name ++ "."
    | none => ""
  b.space.qualifier ++ owner ++ b.func.name.name

/-- The scope of the body: the parameters of the class come before those of the
function. -/
def scope (b : Body) : Scope :=
  ⟨b.space, (b.owner.map (·.generics)).getD [] ++ b.func.generics⟩

def of? (space : Namespace) (owner : Option ClassDecl) (f : FunctionDecl) : Option Body :=
  f.body.map fun block => ⟨space, owner, f, block⟩

end Body

inductive Item where
  | type (d : TypeDecl)
  | function (d : FunctionDecl)

mutual

/-- The types and functions a declaration contains, each with its namespace. -/
def Decl.items (space : Namespace) : Decl → List (Namespace × Item)
  | .space name decls => Decl.itemsList (space ++ [name]) decls
  | .type d => [(space, .type d)]
  | .function f => [(space, .function f)]

def Decl.itemsList (space : Namespace) : List Decl → List (Namespace × Item)
  | [] => []
  | d :: ds => d.items space ++ Decl.itemsList space ds

end

namespace Program

def items (p : Program) : List (Namespace × Item) := Decl.itemsList [] p.decls

def typeDecls (p : Program) : List (Namespace × TypeDecl) :=
  p.items.filterMap fun (space, item) =>
    match item with
    | .type d => some (space, d)
    | .function _ => none

def functions (p : Program) : List (Namespace × FunctionDecl) :=
  p.items.filterMap fun (space, item) =>
    match item with
    | .function f => some (space, f)
    | .type _ => none

def bodies (p : Program) : List Body :=
  p.items.flatMap fun (space, item) =>
    match item with
    | .function f => (Body.of? space none f).toList
    | .type (.classType c) => c.methods.filterMap (Body.of? space (some c))
    | .type _ => []

end Program

end ProgramSafety
