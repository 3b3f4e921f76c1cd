/-!
# Variant payloads

What a variant of a sum carries: nothing, one thing, or a list of named things.
Declarations, definitions and values share the shape and differ in what the
things are.
-/

namespace ProgramSafety

/-- The payload of a variant, over the type `α` of a single payload and the type
`φ` of a named field. -/
inductive Payload (α φ : Type) where
  | unit
  | single (a : α)
  | fields (fs : List φ)
deriving DecidableEq, Repr

namespace Payload

variable {α β φ ψ : Type}

def map (f : α → β) (g : φ → ψ) : Payload α φ → Payload β ψ
  | unit => unit
  | single a => single (f a)
  | fields fs => fields (fs.map g)

theorem map_id_id (p : Payload α φ) : p.map id id = p := by
  cases p with
  | fields fs => rw [map, List.map_id]
  | _ => rfl

def items (g : φ → α) : Payload α φ → List α
  | unit => []
  | single a => [a]
  | fields fs => fs.map g

end Payload

end ProgramSafety
