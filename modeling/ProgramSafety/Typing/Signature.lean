import ProgramSafety.Typing.Declare

/-!
# Signatures

What a call can see of a function or method: the types of its parameters, the
type of its result, and whether it may fail. Functions are kept in the order of
their qualified names.
-/

namespace ProgramSafety

structure Signature where
  name : String
  params : List Ty
  ret : Ty
  throws : Bool
  span : Span
deriving DecidableEq

structure FunctionEntry where
  space : Namespace
  name : String
  signature : Signature
deriving DecidableEq

structure Signatures where
  functions : List FunctionEntry

namespace Signatures

def empty : Signatures := ⟨[]⟩

def get? (s : Signatures) (space : Namespace) (name : String) : Option Signature :=
  (s.functions.find? fun f => f.space == space && f.name == name).map (·.signature)

/-- The function a call refers to, found like a type: outward from the namespace
of the call, or exactly where a path says. -/
def lookupCall? (s : Signatures) (path : List String) (callee : String) (space : Namespace) :
    Option Signature :=
  if path.isEmpty then space.outward.findSome? (s.get? · callee) else s.get? path callee

/-- Puts a function at its place in the order of names, after those of equal name. -/
def insert (f : FunctionEntry) : List FunctionEntry → List FunctionEntry
  | [] => [f]
  | g :: gs =>
    if f.signature.name < g.signature.name then f :: g :: gs else g :: insert f gs

def qualified (space : Namespace) (name : String) : String :=
  let head := String.intercalate "::" space
  if head.isEmpty then name else head ++ "::" ++ name

def signature (r : Registry) (space : Namespace) (f : FunctionDecl) : Signature :=
  let scope : Scope := ⟨space, f.generics⟩
  { name := qualified space f.name.name
    params := f.params.map fun p => r.typeOf scope p.type
    ret := r.returnType scope f.ret
    throws := f.throws
    span := f.name.span }

/-- Adds a function; a second one of the same name in a namespace is left out. -/
def add (s : Signatures) (r : Registry) (space : Namespace) (f : FunctionDecl) :
    Signatures × List Problem :=
  match s.get? space f.name.name with
  | some previous => (s, [⟨.duplicateFunction previous.name previous.span, f.name.span⟩])
  | none =>
    (⟨insert ⟨space, f.name.name, signature r space f⟩ s.functions⟩,
      r.signatureProblems ⟨space, f.generics⟩ f)

def addAll (s : Signatures) (r : Registry) :
    List (Namespace × FunctionDecl) → Signatures × List Problem
  | [] => (s, [])
  | (space, f) :: fs =>
    let (s', ps) := s.add r space f
    let (s'', qs) := s'.addAll r fs
    (s'', ps ++ qs)

def collect (s : Signatures) (r : Registry) (p : Program) : Signatures × List Problem :=
  s.addAll r p.functions

end Signatures

/-- The signature of a method on a receiver, the parameters of its class replaced
by the receiver's arguments. -/
def Registry.methodSignature? (r : Registry) (receiver : Ty) (name : String) :
    Option Signature := do
  let (id, args) ← receiver.adt?
  let d ← r.get? id
  let m ← d.shape.method? name
  let m' := m.substitute (d.subst args)
  return ⟨d.qualifiedName ++ "." ++ m.name, m'.params, m'.ret, m.throws, m.span⟩

end ProgramSafety
