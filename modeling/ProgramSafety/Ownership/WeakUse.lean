import ProgramSafety.Ownership.Kind
import ProgramSafety.Typing.Signature

/-!
# Legal weak references

A weak reference may only be written directly inside an optional, since its
object can disappear, and may only observe a class.
-/

namespace ProgramSafety

def Problem.weakUnwrapped (t : Ty) (span : Span) : Problem :=
  let text := (Ty.weak t).text
  ⟨.ownership s!"`{text}` must be wrapped in `Optional`", span⟩

def Problem.weakTarget (t : Ty) (span : Span) : Problem :=
  let text := t.text
  ⟨.ownership s!"weak references can only observe classes, not `{text}`", span⟩

namespace Registry

/-- A class, or a type that may still turn out to be one. -/
def observable (r : Registry) : Ty → Bool
  | .adt id _ _ => (r.get? id).any (·.shape.isClass)
  | .param _ | .unknown => true
  | _ => false

mutual

/-- The illegal weak references in a type. `inside` says that the type is the
immediate operand of an optional. -/
def weakProblems (r : Registry) (span : Span) (inside : Bool) : Ty → List Problem
  | .weak t =>
    (if inside then [] else [.weakUnwrapped t span]) ++
      (if r.observable t then [] else [.weakTarget t span]) ++
      r.weakProblems span false t
  | .optional t => r.weakProblems span true t
  | .array t | .rawPtr t => r.weakProblems span false t
  | .adt _ _ args => r.weakProblemsList span args
  | .unknown | .void | .bool | .int _ | .float _ | .str | .param _ => []

def weakProblemsList (r : Registry) (span : Span) : List Ty → List Problem
  | [] => []
  | t :: ts => r.weakProblems span false t ++ r.weakProblemsList span ts

end

theorem weakProblemsList_eq_flatMap (r : Registry) (span : Span) (ts : List Ty) :
    r.weakProblemsList span ts = ts.flatMap (r.weakProblems span false) := by
  induction ts with
  | nil => rfl
  | cons t ts ih => simp [weakProblemsList, ih]

def weakUse (r : Registry) (span : Span) (t : Ty) : List Problem := r.weakProblems span false t

def fieldWeakUse (r : Registry) (fs : List Field) : List Problem :=
  fs.flatMap fun f => r.weakUse f.span f.type

def shapeWeakUse (r : Registry) : Shape → List Problem
  | .structType fs => r.fieldWeakUse fs
  | .classType fs ms =>
    r.fieldWeakUse fs ++ ms.flatMap fun m => (m.params ++ [m.ret]).flatMap (r.weakUse m.span)
  | .enumType _ vs => vs.flatMap fun v => v.types.flatMap (r.weakUse v.span)

def declaredWeakUse (r : Registry) (s : Signatures) : List Problem :=
  r.defs.flatMap (fun d => r.shapeWeakUse d.shape) ++
    s.functions.flatMap fun f =>
      (f.signature.params ++ [f.signature.ret]).flatMap (r.weakUse f.signature.span)

end Registry

end ProgramSafety
