/-!
# Spans and written types

Places in the source text, and types as they are written there: a name,
possibly qualified by a path of namespaces, applied to arguments.
-/

namespace ProgramSafety

structure Span where
  offset : Nat
  length : Nat
deriving DecidableEq, Repr

namespace Span

/-- The span of what stands at no particular place. -/
def nowhere : Span := ⟨0, 0⟩

def endpoint (s : Span) : Span := ⟨s.offset + s.length, 0⟩

end Span

structure Ident where
  name : String
  span : Span
deriving DecidableEq, Repr

structure TypeRef where
  span : Span
  path : List String
  name : String
  args : List TypeRef

namespace TypeRef

def applied (name : String) (args : List TypeRef) : TypeRef := ⟨.nowhere, [], name, args⟩

def named (name : String) : TypeRef := applied name []

mutual

def text : TypeRef → String
  | ⟨_, path, name, args⟩ =>
    let head := String.join (path.map (· ++ "::")) ++ name
    match args with
    | [] => head
    | a :: as => head ++ "<" ++ String.intercalate ", " (a.text :: texts as) ++ ">"

def texts : List TypeRef → List String
  | [] => []
  | a :: as => a.text :: texts as

end

def isNamed (t : TypeRef) (n : String) : Bool := t.path.isEmpty && t.name == n

end TypeRef

end ProgramSafety
