import ProgramSafety.Report.Problem
import ProgramSafety.Typing.Definition

/-!
# Values of enums

In an enum over an integer type every variant has a value: the one written, or
one more than the variant before it, beginning at zero. A value that does not
fit is reported once; the variants that would count on from it stay without one.
-/

namespace ProgramSafety

def Variant.misfit (v : Variant) (t : IntType) (value : Int) : Problem :=
  let (how, name, type) :=
    (if v.explicit.isSome then "explicit" else "implicit", v.name, t.name)
  ⟨.invalidEnum s!"{how} value {value} of variant '{name}' does not fit {type}", v.span⟩

namespace EnumValue

/-- Gives the variants their values, counting on from `next`; without it, only an
explicit value starts the count again. -/
def assignFrom (t : IntType) : Option Int → List Variant → List Variant × List Problem
  | _, [] => ([], [])
  | next, v :: vs =>
    match v.explicit.or next with
    | none =>
      let (vs', ps) := assignFrom t none vs
      ({ v with discriminant := none } :: vs', ps)
    | some value =>
      if value ∈ t then
        let (vs', ps) := assignFrom t (some (value + 1)) vs
        ({ v with discriminant := some value } :: vs', ps)
      else
        let (vs', ps) := assignFrom t none vs
        ({ v with discriminant := none } :: vs', v.misfit t value :: ps)

def assign (t : IntType) (vs : List Variant) : List Variant × List Problem :=
  assignFrom t (some 0) vs

end EnumValue

end ProgramSafety
