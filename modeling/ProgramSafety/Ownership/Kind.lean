import ProgramSafety.Typing.Registry

/-!
# Ownership kinds

How values of a type are owned: inline, by counted reference, observed without
owning, or through an unmanaged pointer. Classes and arrays are counted; an
optional is owned like what it may hold.
-/

namespace ProgramSafety

inductive OwnershipKind where
  | value | sharedRef | weakRef | rawPointer
deriving DecidableEq, Repr

def OwnershipKind.name : OwnershipKind → String
  | value => "Value"
  | sharedRef => "SharedRef"
  | weakRef => "WeakRef"
  | rawPointer => "RawPointer"

def Shape.kind : Shape → OwnershipKind
  | classType .. => .sharedRef
  | structType _ | enumType .. => .value

namespace Registry

/-- The kind of a definition; one that is not registered counts as a value. -/
def kindOfDef (r : Registry) (id : Nat) : OwnershipKind :=
  match r.get? id with
  | some d => d.shape.kind
  | none => .value

/-- The kind of a type. Type parameters and unknown types count as values. -/
def kindOf (r : Registry) : Ty → OwnershipKind
  | .adt id _ _ => r.kindOfDef id
  | .array _ => .sharedRef
  | .optional t => r.kindOf t
  | .weak _ => .weakRef
  | .rawPtr _ => .rawPointer
  | .unknown | .void | .bool | .int _ | .float _ | .str | .param _ => .value

end Registry

end ProgramSafety
