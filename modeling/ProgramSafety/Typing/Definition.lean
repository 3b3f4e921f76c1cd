import ProgramSafety.Payload
import ProgramSafety.Tree.Decl
import ProgramSafety.Typing.Ty

/-!
# Definitions

What the registry knows of a struct, class or enum: its members with resolved
types, still over the definition's type parameters.
-/

namespace ProgramSafety

structure Field where
  name : String
  type : Ty
  span : Span
deriving DecidableEq

/-- The signature of a method, over the parameters of the class and its own. -/
structure Method where
  name : String
  generics : List String
  params : List Ty
  ret : Ty
  throws : Bool
  span : Span
deriving DecidableEq

/-- A variant of an enum. The explicit value is the one written; the discriminant
is the value the variant has, for enums over an integer type. -/
structure Variant where
  name : String
  span : Span
  explicit : Option Int
  discriminant : Option Int
  payload : Payload Ty Field
deriving DecidableEq

namespace Variant

def types (v : Variant) : List Ty := v.payload.items (·.type)

end Variant

inductive Shape where
  | structType (fields : List Field)
  | classType (fields : List Field) (methods : List Method)
  | enumType (underlying : Option IntType) (variants : List Variant)
deriving DecidableEq

def Field.substitute (s : Subst) (f : Field) : Field := { f with type := f.type.substitute s }

/-- A method's own parameters are not replaced. -/
def Method.substitute (s : Subst) (m : Method) : Method :=
  let inner := s.without m.generics
  { m with params := m.params.map (Ty.substitute inner), ret := m.ret.substitute inner }

def Variant.substitute (s : Subst) (v : Variant) : Variant :=
  { v with payload := v.payload.map (Ty.substitute s) (Field.substitute s) }

namespace Shape

def isClass : Shape → Bool
  | classType .. => true
  | _ => false

def isEnum : Shape → Bool
  | enumType .. => true
  | _ => false

def fields : Shape → List Field
  | structType fs => fs
  | classType fs _ => fs
  | enumType .. => []

def methods : Shape → List Method
  | classType _ ms => ms
  | _ => []

def variants : Shape → List Variant
  | enumType _ vs => vs
  | _ => []

def variant? (s : Shape) (name : String) : Option Variant := s.variants.find? (·.name == name)

def method? (s : Shape) (name : String) : Option Method := s.methods.find? (·.name == name)

def substitute (s : Subst) : Shape → Shape
  | structType fs => structType (fs.map (Field.substitute s))
  | classType fs ms => classType (fs.map (Field.substitute s)) (ms.map (Method.substitute s))
  | enumType underlying vs => enumType underlying (vs.map (Variant.substitute s))

end Shape

structure TypeDef where
  name : String
  space : Namespace
  span : Span
  generics : List String
  shape : Shape
deriving DecidableEq

namespace TypeDef

def qualifiedName (d : TypeDef) : String := d.space.qualifier ++ d.name

def key (d : TypeDef) : Namespace × String := (d.space, d.name)

def subst (d : TypeDef) (args : List Ty) : Subst := .ofArgs d.generics args

end TypeDef

end ProgramSafety
