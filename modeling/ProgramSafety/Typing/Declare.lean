import ProgramSafety.Typing.EnumValue
import ProgramSafety.Typing.Registry

/-!
# Declaring the types of a program

All types of a program are registered before the members of any are resolved, so
that definitions may refer to one another in any order. A declaration that
cannot be registered is reported and left out; a member whose type cannot be
resolved is reported and kept with an unknown type.
-/

namespace ProgramSafety

namespace Registry

def field (r : Registry) (scope : Scope) (f : FieldDecl) : Field :=
  ⟨f.name, r.typeOf scope f.type, f.span⟩

def fieldProblems (r : Registry) (scope : Scope) (fs : List FieldDecl) : List Problem :=
  fs.flatMap fun f => r.problemsOf scope f.type

/-- The return type; a function that states none returns nothing. -/
def returnType (r : Registry) (scope : Scope) : Option TypeRef → Ty
  | some t => r.typeOf scope t
  | none => .void

def signatureProblems (r : Registry) (scope : Scope) (f : FunctionDecl) : List Problem :=
  f.params.flatMap (fun p => r.problemsOf scope p.type) ++
    f.ret.toList.flatMap (r.problemsOf scope)

/-- The scope of a method adds its own parameters to those of the class. -/
def methodScope (scope : Scope) (m : FunctionDecl) : Scope :=
  { scope with generics := scope.generics ++ m.generics }

def method (r : Registry) (scope : Scope) (m : FunctionDecl) : Method :=
  let inner := methodScope scope m
  { name := m.name.name
    generics := m.generics
    params := m.params.map fun p => r.typeOf inner p.type
    ret := r.returnType inner m.ret
    throws := m.throws
    span := m.name.span }

def payload (r : Registry) (scope : Scope) (p : Payload TypeRef FieldDecl) : Payload Ty Field :=
  p.map (r.typeOf scope) (r.field scope)

def payloadProblems (r : Registry) (scope : Scope) : Payload TypeRef FieldDecl → List Problem
  | .unit => []
  | .single t => r.problemsOf scope t
  | .fields fs => r.fieldProblems scope fs

def underlying (r : Registry) (scope : Scope) (e : EnumDecl) : Option IntType :=
  e.underlying.bind fun t => (r.typeOf scope t).int?

def underlyingProblems (r : Registry) (scope : Scope) (e : EnumDecl) : List Problem :=
  match e.underlying with
  | none => []
  | some t =>
    match r.resolve scope t with
    | .error p => [p]
    | .ok (.int _) => []
    | .ok other =>
      let (name, found) := (e.name.name, other.text)
      [⟨.invalidEnum s!"underlying type of '{name}' must be an integer type, found {found}",
        t.span⟩]

/-- A variant as declared, its value not yet assigned. -/
def variant (r : Registry) (scope : Scope) (v : VariantDecl) : Variant :=
  { name := v.name.name
    span := v.name.span
    explicit := v.value.map (·.value)
    discriminant := none
    payload := r.payload scope v.payload }

/-- The problems of a variant whose name is new in its enum: values and payloads
exclude each other. -/
def variantProblems (r : Registry) (scope : Scope) (e : EnumDecl) (v : VariantDecl) :
    List Problem :=
  let (name, enum) := (v.name.name, e.name.name)
  let carries :=
    match e.underlying, v.payload with
    | none, _ | _, .unit => []
    | _, _ =>
      [⟨.invalidEnum s!"variant '{name}' carries a payload, but '{enum}' has an underlying integer type",
        v.span⟩]
  let valued :=
    match e.underlying, v.value with
    | none, some literal =>
      [⟨.invalidEnum s!"variant '{name}' has an explicit value, but '{enum}' has no underlying integer type",
        literal.span⟩]
    | _, _ => []
  r.payloadProblems scope v.payload ++ carries ++ valued

def distinctVariants (seen : List String) : List VariantDecl → List VariantDecl
  | [] => []
  | v :: vs =>
    if v.name.name ∈ seen then distinctVariants seen vs
    else v :: distinctVariants (v.name.name :: seen) vs

/-- The problems of the variants of an enum; a repeated name is reported instead
of whatever else is wrong with the variant. -/
def variantsProblems (r : Registry) (scope : Scope) (e : EnumDecl) (seen : List String) :
    List VariantDecl → List Problem
  | [] => []
  | v :: vs =>
    let (name, enum) := (v.name.name, e.name.name)
    if name ∈ seen then
      ⟨.invalidEnum s!"variant '{name}' is declared twice in '{enum}'", v.name.span⟩ ::
        r.variantsProblems scope e seen vs
    else r.variantProblems scope e v ++ r.variantsProblems scope e (name :: seen) vs

def enumVariants (r : Registry) (scope : Scope) (e : EnumDecl) : List Variant × List Problem :=
  let vs := (distinctVariants [] e.variants).map (r.variant scope)
  match r.underlying scope e with
  | some t => EnumValue.assign t vs
  | none => (vs, [])

def shape (r : Registry) (space : Namespace) (d : TypeDecl) : Shape :=
  let scope : Scope := ⟨space, d.generics⟩
  match d with
  | .structType s => .structType (s.fields.map (r.field scope))
  | .classType c => .classType (c.fields.map (r.field scope)) (c.methods.map (r.method scope))
  | .enumType e => .enumType (r.underlying scope e) (r.enumVariants scope e).1

def shapeProblems (r : Registry) (space : Namespace) (d : TypeDecl) : List Problem :=
  let scope : Scope := ⟨space, d.generics⟩
  match d with
  | .structType s => r.fieldProblems scope s.fields
  | .classType c =>
    r.fieldProblems scope c.fields ++
      c.methods.flatMap fun m => r.signatureProblems (methodScope scope m) m
  | .enumType e =>
    r.underlyingProblems scope e ++ r.variantsProblems scope e [] e.variants ++
      (r.enumVariants scope e).2

/-- A type before its members are known. -/
def blank (space : Namespace) (d : TypeDecl) : TypeDef :=
  { name := d.name.name
    space := space
    span := d.name.span
    generics := d.generics
    shape :=
      match d with
      | .structType _ => .structType []
      | .classType _ => .classType [] []
      | .enumType _ => .enumType none [] }

/-- Registers types without their members. The declarations that found a place
are returned with it. -/
def registerAll (r : Registry) :
    List (Namespace × TypeDecl) → Registry × List (Nat × Namespace × TypeDecl) × List Problem
  | [] => (r, [], [])
  | (space, d) :: ds =>
    match r.register (blank space d) with
    | .ok (id, r') =>
      let (r'', placed, ps) := r'.registerAll ds
      (r'', (id, space, d) :: placed, ps)
    | .error p =>
      let (r', placed, ps) := r.registerAll ds
      (r', placed, p :: ps)

def setShape (r : Registry) (id : Nat) (s : Shape) : Registry :=
  { r with
    defs := r.defs.modify id fun d => { d with shape := s }
    built := r.built.setShape id s }

theorem defs_setShape (r : Registry) (id : Nat) (s : Shape) :
    (r.setShape id s).defs = r.defs.modify id fun d => { d with shape := s } := rfl

/-- Fills in the members of registered types one after the other, each resolved
against the registry as it stands by then. -/
def fill (r : Registry) : List (Nat × Namespace × TypeDecl) → Registry × List Problem
  | [] => (r, [])
  | (id, space, d) :: placed =>
    let (r', ps) := (r.setShape id (r.shape space d)).fill placed
    (r', r.shapeProblems space d ++ ps)

def declare (r : Registry) (p : Program) : Registry × List Problem :=
  let (named, placed, ps) := r.registerAll p.typeDecls
  let (filled, qs) := named.fill placed
  (filled, ps ++ qs)

end Registry

end ProgramSafety
