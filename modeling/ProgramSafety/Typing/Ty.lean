import ProgramSafety.Number.Scalar

/-!
# Types

Types after resolution. A definition is applied to its arguments, four built-in
constructors take one argument each, and a type that could not be resolved is
`unknown`. Substitution replaces type parameters by name.
-/

namespace ProgramSafety

inductive Wrapper where
  | optional | weak | rawPtr | array
deriving DecidableEq, Repr

namespace Wrapper

def name : Wrapper → String
  | optional => "Optional"
  | weak => "Weak"
  | rawPtr => "RawPtr"
  | array => "Array"

def ofName? : String → Option Wrapper
  | "Optional" => some optional
  | "Weak" => some weak
  | "RawPtr" => some rawPtr
  | "Array" => some array
  | _ => none

end Wrapper

/-- A resolved type. A definition is named by its place in the registry, and its
qualified name is carried along. -/
inductive Ty where
  | unknown
  | void
  | bool
  | int (t : IntType)
  | float (t : FloatType)
  | str
  | adt (id : Nat) (name : String) (args : List Ty)
  | param (name : String)
  | wrap (w : Wrapper) (t : Ty)

namespace Ty

@[match_pattern] abbrev optional (t : Ty) : Ty := wrap .optional t

@[match_pattern] abbrev weak (t : Ty) : Ty := wrap .weak t

@[match_pattern] abbrev rawPtr (t : Ty) : Ty := wrap .rawPtr t

@[match_pattern] abbrev array (t : Ty) : Ty := wrap .array t

def scalar? (s : String) : Option Ty :=
  match s with
  | "void" => some void
  | "bool" => some bool
  | "String" => some str
  | _ =>
    (NumericType.ofName? s).map fun
      | .int t => int t
      | .float t => float t

def numeric? : Ty → Option NumericType
  | int t => some (.int t)
  | float t => some (.float t)
  | _ => none

def int? : Ty → Option IntType
  | int t => some t
  | _ => none

def isUnknown : Ty → Bool
  | unknown => true
  | _ => false

def adt? : Ty → Option (Nat × List Ty)
  | adt id _ args => some (id, args)
  | _ => none

def isWeakOptional : Ty → Bool
  | optional (weak _) => true
  | _ => false

mutual

def text : Ty → String
  | unknown => "<unknown>"
  | void => "void"
  | bool => "bool"
  | int t => t.name
  | float t => t.name
  | str => "String"
  | adt _ name [] => name
  | adt _ name (a :: as) => name ++ "<" ++ String.intercalate ", " (a.text :: texts as) ++ ">"
  | param name => name
  | wrap w t => w.name ++ "<" ++ t.text ++ ">"

def texts : List Ty → List String
  | [] => []
  | t :: ts => t.text :: texts ts

end

mutual

def hasParams : Ty → Bool
  | param _ => true
  | adt _ _ args => anyHasParams args
  | wrap _ t => t.hasParams
  | _ => false

def anyHasParams : List Ty → Bool
  | [] => false
  | t :: ts => t.hasParams || anyHasParams ts

end

mutual

def same : Ty → Ty → Bool
  | unknown, unknown | void, void | bool, bool | str, str => true
  | int s, int t => s == t
  | float s, float t => s == t
  | adt i n as, adt j m bs => i == j && n == m && sameList as bs
  | param n, param m => n == m
  | wrap v s, wrap w t => v == w && s.same t
  | _, _ => false

def sameList : List Ty → List Ty → Bool
  | [], [] => true
  | a :: as, b :: bs => a.same b && sameList as bs
  | _, _ => false

end

mutual

theorem same_iff : ∀ (a b : Ty), a.same b = true ↔ a = b
  | adt i n as, b => by cases b <;> simp [same, sameList_iff as, and_assoc]
  | wrap v s, b => by cases b <;> simp [same, same_iff s]
  | unknown, b => by cases b <;> simp [same]
  | void, b => by cases b <;> simp [same]
  | bool, b => by cases b <;> simp [same]
  | int _, b => by cases b <;> simp [same]
  | float _, b => by cases b <;> simp [same]
  | str, b => by cases b <;> simp [same]
  | param _, b => by cases b <;> simp [same]

theorem sameList_iff : ∀ (as bs : List Ty), sameList as bs = true ↔ as = bs
  | [], [] => by simp [sameList]
  | [], _ :: _ => by simp [sameList]
  | _ :: _, [] => by simp [sameList]
  | a :: as, b :: bs => by simp [sameList, same_iff a, sameList_iff as]

end

instance : DecidableEq Ty := fun a b => decidable_of_iff _ (same_iff a b)

end Ty

/-- A substitution of types for type parameters. -/
abbrev Subst := String → Option Ty

namespace Subst

/-- The substitution given by pairs; the last pair of a name counts. -/
def ofPairs (pairs : List (String × Ty)) : Subst := fun n => pairs.reverse.lookup n

def ofArgs (generics : List String) (args : List Ty) : Subst := ofPairs (generics.zip args)

/-- The substitution with some names left alone. -/
def without (s : Subst) (names : List String) : Subst :=
  fun n => if n ∈ names then none else s n

end Subst

namespace Ty

mutual

/-- Replaces parameters; those without a replacement stay. -/
def substitute (s : Subst) : Ty → Ty
  | param n => (s n).getD (param n)
  | adt id name args => adt id name (substituteList s args)
  | wrap w t => wrap w (t.substitute s)
  | unknown => unknown
  | void => void
  | bool => bool
  | int t => int t
  | float t => float t
  | str => str

def substituteList (s : Subst) : List Ty → List Ty
  | [] => []
  | t :: ts => t.substitute s :: substituteList s ts

end

theorem substituteList_eq_map (s : Subst) (ts : List Ty) :
    substituteList s ts = ts.map (substitute s) := by
  induction ts with
  | nil => rfl
  | cons t ts ih => simp [substituteList, ih]

end Ty

end ProgramSafety
