import ProgramSafety.Tree.TypeRef

/-!
# Problems

What can be wrong with a program before it runs. A problem is a cause at a place
of the source text; `Cause.message` words it and `Cause.kind` names its kind.
-/

namespace ProgramSafety

/-- The kinds of problems, in the order in which summaries list them. -/
inductive ProblemKind where
  | duplicateType | duplicateFunction | unknownType | genericArity | ownership
  | unsafeContext | invalidCast | nonExhaustiveMatch | unreachableArm | patternShape
  | propagation | invalidEnum | constantOverflow | invalidIndex | registryClosed
deriving DecidableEq, Repr

namespace ProblemKind

def all : List ProblemKind :=
  [duplicateType, duplicateFunction, unknownType, genericArity, ownership, unsafeContext,
    invalidCast, nonExhaustiveMatch, unreachableArm, patternShape, propagation, invalidEnum,
    constantOverflow, invalidIndex, registryClosed]

theorem mem_all (k : ProblemKind) : k ∈ all := by
  cases k <;> decide

def name : ProblemKind → String
  | duplicateType => "DuplicateType"
  | duplicateFunction => "DuplicateFunction"
  | unknownType => "UnknownType"
  | genericArity => "GenericArity"
  | ownership => "Ownership"
  | unsafeContext => "UnsafeContext"
  | invalidCast => "InvalidCast"
  | nonExhaustiveMatch => "NonExhaustiveMatch"
  | unreachableArm => "UnreachableArm"
  | patternShape => "PatternShape"
  | propagation => "Propagation"
  | invalidEnum => "InvalidEnum"
  | constantOverflow => "ConstantOverflow"
  | invalidIndex => "InvalidIndex"
  | registryClosed => "RegistryClosed"

/-- The stable identifier of the kind. -/
def code : ProblemKind → String
  | duplicateType => "tern::sema::duplicate_type"
  | duplicateFunction => "tern::sema::duplicate_function"
  | unknownType => "tern::sema::unknown_type"
  | genericArity => "tern::sema::generic_arity"
  | ownership => "tern::sema::ownership"
  | unsafeContext => "tern::sema::unsafe_context"
  | invalidCast => "tern::sema::invalid_cast"
  | nonExhaustiveMatch => "tern::sema::non_exhaustive_match"
  | unreachableArm => "tern::sema::unreachable_arm"
  | patternShape => "tern::sema::pattern_shape"
  | propagation => "tern::sema::propagation"
  | invalidEnum => "tern::sema::invalid_enum"
  | constantOverflow => "tern::sema::constant_overflow"
  | invalidIndex => "tern::sema::invalid_index"
  | registryClosed => "tern::sema::registry_closed"

end ProblemKind

inductive Cause where
  | duplicateType (name : String) (previous : Span)
  | duplicateFunction (name : String) (previous : Span)
  | unknownType (name : String)
  | genericArity (name : String) (expected found : Nat)
  | ownership (detail : String)
  | unsafeContext (what : String)
  | invalidCast (source target keyword reason : String)
  | nonExhaustiveMatch (enum : String) (missing : List String)
  | unreachableArm (covered : String)
  | patternShape (detail : String)
  | propagation (callee function : String)
  | invalidEnum (detail : String)
  | constantOverflow (detail : String)
  | invalidIndex (detail : String)
  | registryClosed (name : String)
deriving DecidableEq, Repr

namespace Cause

def kind : Cause → ProblemKind
  | duplicateType .. => .duplicateType
  | duplicateFunction .. => .duplicateFunction
  | unknownType .. => .unknownType
  | genericArity .. => .genericArity
  | ownership .. => .ownership
  | unsafeContext .. => .unsafeContext
  | invalidCast .. => .invalidCast
  | nonExhaustiveMatch .. => .nonExhaustiveMatch
  | unreachableArm .. => .unreachableArm
  | patternShape .. => .patternShape
  | propagation .. => .propagation
  | invalidEnum .. => .invalidEnum
  | constantOverflow .. => .constantOverflow
  | invalidIndex .. => .invalidIndex
  | registryClosed .. => .registryClosed

def message : Cause → String
  | duplicateType name _ => s!"type '{name}' is already declared in this namespace"
  | duplicateFunction name _ => s!"function '{name}' is already declared in this namespace"
  | unknownType name => s!"unknown type '{name}'"
  | genericArity name expected found =>
    s!"type '{name}' expects {expected} type arguments, got {found}"
  | ownership detail => s!"ownership error: {detail}"
  | unsafeContext what => s!"{what} requires an `unsafe` block"
  | invalidCast source target keyword reason =>
    s!"invalid cast `{source} {keyword} {target}`: {reason}"
  | nonExhaustiveMatch enum missing =>
    let list := String.intercalate ", " missing
    s!"non-exhaustive match on '{enum}': missing {list}"
  | unreachableArm covered =>
    s!"unreachable match arm: {covered} already covered by an earlier arm"
  | patternShape detail => s!"pattern does not match variant shape: {detail}"
  | propagation callee function =>
    s!"failure of '{callee}' escapes '{function}', which is not marked `throws`"
  | invalidEnum detail => s!"invalid enum: {detail}"
  | constantOverflow detail => s!"constant expression fails at compile time: {detail}"
  | invalidIndex detail => s!"invalid index: {detail}"
  | registryClosed name => s!"cannot register '{name}': the type registry is closed"

def help? : Cause → Option String
  | ownership _ =>
    some "weak references are only usable as `Optional<Weak<T>>` where `T` is a class"
  | nonExhaustiveMatch .. => some "add arms for the missing variants or a final catch-all arm"
  | propagation _ function =>
    some s!"mark '{function}' with `throws` or handle the failure in `try ... catch`"
  | _ => none

end Cause

structure Problem where
  cause : Cause
  span : Span
deriving DecidableEq, Repr

namespace Problem

def kind (p : Problem) : ProblemKind := p.cause.kind

def message (p : Problem) : String := p.cause.message

/-- The places shown with the problem, each with its text if it has one. -/
def labels (p : Problem) : List (Option String × Span) :=
  match p.cause with
  | .duplicateType _ previous | .duplicateFunction _ previous =>
    [(some "redeclared here", p.span), (some "first declared here", previous)]
  | _ => [(none, p.span)]

end Problem

end ProgramSafety
