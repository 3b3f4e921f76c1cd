import ProgramSafety.Ownership.Kind

/-!
# Counted paths

Where a value holds counted references: the paths of field names that lead, from
struct to struct, to a counted reference or to another inline value holding one.
The empty path is the value as a whole. A definition is entered at most once on
the way down, so the search ends also when definitions refer to themselves; it
carries the definitions that may still be entered.
-/

namespace ProgramSafety

abbrev FieldPath := List String

/-- The types held inline by an applied definition: payloads of an enum, fields
of anything else. -/
def TypeDef.heldTypes (d : TypeDef) (args : List Ty) : List Ty :=
  match d.shape with
  | .enumType _ vs => (vs.flatMap Variant.types).map (Ty.substitute (d.subst args))
  | s => s.fields.map fun f => f.type.substitute (d.subst args)

def TypeDef.structFields? (d : TypeDef) (args : List Ty) : Option (List (String × Ty)) :=
  match d.shape with
  | .structType fs => some (fs.map fun f => (f.name, f.type.substitute (d.subst args)))
  | _ => none

namespace Registry

theorem length_erase_lt {ids : List Nat} {id : Nat} (h : id ∈ ids) :
    (ids.erase id).length < ids.length := by
  have := List.length_erase_of_mem h
  have := List.length_pos_of_mem h
  omega

/-- Some counted reference is held, entering only the definitions in `unseen`. -/
def holdsCounted (r : Registry) (unseen : List Nat) (t : Ty) : Bool :=
  match r.kindOf t with
  | .sharedRef => true
  | .weakRef | .rawPointer => false
  | .value =>
    match t with
    | .optional u => r.holdsCounted unseen u
    | .adt id _ args =>
      if id ∈ unseen then
        match r.get? id with
        | some d => (d.heldTypes args).any fun u => r.holdsCounted (unseen.erase id) u
        | none => false
      else false
    | _ => false
termination_by (unseen.length, sizeOf t)
decreasing_by
  · exact Prod.Lex.right _ (by simp)
  · exact Prod.Lex.left _ _ (length_erase_lt (by assumption))

def wholePath (r : Registry) (unseen : List Nat) (t : Ty) : List FieldPath :=
  if r.holdsCounted unseen t then [[]] else []

def pathsWithin (r : Registry) (unseen : List Nat) (t : Ty) : List FieldPath :=
  match r.kindOf t with
  | .sharedRef => [[]]
  | .weakRef | .rawPointer => []
  | .value =>
    match t with
    | .adt id _ args =>
      match (r.get? id).bind (·.structFields? args) with
      | some fields =>
        if id ∈ unseen then
          fields.flatMap fun (name, u) => (r.pathsWithin (unseen.erase id) u).map (name :: ·)
        else []
      | none => r.wholePath unseen t
    | _ => r.wholePath unseen t
termination_by unseen.length
decreasing_by exact length_erase_lt (by assumption)

def countedPaths (r : Registry) (t : Ty) : List FieldPath :=
  r.pathsWithin (List.range r.defs.length) t

end Registry

/-- Counted paths found so far, each type looked at once. -/
structure PathMemo where
  known : List (Ty × List FieldPath)

namespace PathMemo

def empty : PathMemo := ⟨[]⟩

def query (m : PathMemo) (r : Registry) (t : Ty) : List FieldPath × PathMemo :=
  match m.known.lookup t with
  | some ps => (ps, m)
  | none =>
    let ps := r.countedPaths t
    (ps, ⟨(t, ps) :: m.known⟩)

def queryAll (m : PathMemo) (r : Registry) : List Ty → List (List FieldPath)
  | [] => []
  | t :: ts =>
    let (ps, m') := m.query r t
    ps :: m'.queryAll r ts

end PathMemo

end ProgramSafety
