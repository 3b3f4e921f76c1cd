import ProgramSafety.Typing.Registry

/-!
# Instances

A definition applied to arguments, with its members substituted. A pool makes
each instance once: the same definition with the same arguments is shared.
-/

namespace ProgramSafety

/-- A definition with its parameters replaced. -/
structure Concrete where
  id : Nat
  name : String
  args : List Ty
  shape : Shape
deriving DecidableEq

namespace Concrete

/-- Two instances are the same when they apply the same definition to the same
arguments. -/
def isOf (c : Concrete) (id : Nat) (args : List Ty) : Bool := c.id == id && c.args == args

end Concrete

def TypeDef.instantiate (d : TypeDef) (id : Nat) (args : List Ty) : Except Problem Concrete :=
  if d.generics.length = args.length then
    .ok ⟨id, (Ty.adt id d.qualifiedName args).text, args, d.shape.substitute (d.subst args)⟩
  else .error ⟨.genericArity d.qualifiedName d.generics.length args.length, d.span⟩

def Registry.instanceOf? (r : Registry) (t : Ty) : Option Concrete := do
  let (id, args) ← t.adt?
  let d ← r.get? id
  (d.instantiate id args).toOption

structure Pool where
  made : List Concrete

namespace Pool

def empty : Pool := ⟨[]⟩

def position? (p : Pool) (id : Nat) (args : List Ty) : Option Nat :=
  p.made.findIdx? (·.isOf id args)

/-- Asks for an instance. A successful answer is its position in the pool. -/
def request (p : Pool) (d : TypeDef) (id : Nat) (args : List Ty) : Except Problem Nat × Pool :=
  match p.position? id args with
  | some i => (.ok i, p)
  | none =>
    match d.instantiate id args with
    | .error e => (.error e, p)
    | .ok c => (.ok p.made.length, ⟨p.made ++ [c]⟩)

def intern (p : Pool) (c : Concrete) : Nat × Pool :=
  match p.position? c.id c.args with
  | some i => (i, p)
  | none => (p.made.length, ⟨p.made ++ [c]⟩)

end Pool

end ProgramSafety
