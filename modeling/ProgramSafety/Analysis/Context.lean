import ProgramSafety.Analysis.TypeTable
import ProgramSafety.Typing.Signature

/-!
# The context of a body

What every analysis of a body can look at: the options of the session, the
registered types and functions, the types of the expressions, and the body.
-/

namespace ProgramSafety

structure Options where
  /-- Evaluate integer arithmetic and casts of literals ahead of time. -/
  foldConstants : Bool
  /-- Leave out the check of a cast that cannot fail. -/
  elideCasts : Bool
  /-- How many problems a report keeps. -/
  limit : Option Nat
deriving DecidableEq, Repr

def Options.default : Options := ⟨true, true, none⟩

/-- A body together with everything known about it. -/
structure Context where
  options : Options
  registry : Registry
  signatures : Signatures
  types : TypeTable
  body : Body

namespace Context

def callee? (c : Context) (e : Expr) : Option Signature :=
  match e.form with
  | .call path callee _ => c.signatures.lookupCall? path callee c.body.space
  | .methodCall receiver method _ => c.registry.methodSignature? (c.types.expr receiver) method
  | _ => none

def applied? (c : Context) (t : Ty) : Option (TypeDef × Subst) := do
  let (id, args) ← t.adt?
  let d ← c.registry.get? id
  return (d, d.subst args)

end Context

end ProgramSafety
