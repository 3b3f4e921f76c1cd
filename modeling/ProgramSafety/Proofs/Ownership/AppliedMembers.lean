import Mathlib.Computability.Primrec.List
import Mathlib.Data.List.Permutation
import ProgramSafety.Proofs.Analysis.FirstMatch
import ProgramSafety.Proofs.Ownership.ArmBinders
import ProgramSafety.Proofs.Typing.Declared

/-!
# Members of applied definitions

An analysis that needs a member of an applied definition looks it up among the members of
the definition and replaces the parameters in what it finds. An instance has them replaced
in all members, and looking up its members comes to the same
(`Registry.members_of_instance`): where counted references are looked for, where the values
of a construction go, what a pattern binds, and what a call of a method passes on.
-/

namespace ProgramSafety

namespace Shape

def fieldType? (s : Shape) (name : String) : Option Ty :=
  (s.fields.find? (·.name == name)).map Field.type

def structFields? : Shape → Option (List (String × Ty))
  | structType fs => some (fs.map fun f => (f.name, f.type))
  | _ => none

end Shape

/-- What the binders of an alternative take: the payload as a whole, or a field of it. -/
def Alternative.selections (a : Alternative) : List (Option String) :=
  match a.bindings with
  | .none => []
  | .positional names => names.map fun _ => none
  | .named bs => bs.map fun b => some b.field.name

namespace Variant

variable {v : Variant} {a : Alternative} {field : Option String}

inductive Carries (v : Variant) : Option String → Ty → Prop where
  | whole {t : Ty} (hp : v.payload = .single t) : Carries v none t
  | part {fs : List Field} {f : Field} {name : String} (hp : v.payload = .fields fs)
      (hf : fs.find? (·.name == name) = some f) : Carries v (some name) f.type

def transfers (v : Variant) (args : Arguments) : List Transfer :=
  match args, v.payload with
  | .positional es, .single t => es.map fun e => ⟨e, t⟩
  | .named es, .fields _ => es.map fun (name, e) => ⟨e, v.boundType (some name)⟩
  | _, _ => []

/-- Bindings that fit the payload select something that is there. -/
theorem carries_boundType (hfits : Coverage.bindingProblem? v a = none)
    (hfield : field ∈ a.selections) : v.Carries field (v.boundType field) := by
  rcases Coverage.shape_of_bindingProblem? hfits with
    hnil | ⟨n, t, hb, hp⟩ | ⟨bs, fs, hb, hp, hfields⟩
  · have hlength : a.selections.length = a.binders.length := by
      rw [Alternative.selections, Alternative.binders]
      cases a.bindings <;> simp
    rw [hnil, List.length_nil, List.length_eq_zero_iff] at hlength
    simp [hlength] at hfield
  · obtain rfl : field = none := by simpa [Alternative.selections, hb] using hfield
    have htype : v.boundType none = t := by simp [boundType, hp]
    exact htype ▸ .whole hp
  · obtain ⟨b, hmem, rfl⟩ : ∃ b ∈ bs, some b.field.name = field := by
      simpa [Alternative.selections, hb] using hfield
    obtain ⟨f, hf⟩ := hfields b hmem
    have htype : v.boundType (some b.field.name) = f.type := by simp [boundType, hp, hf]
    exact htype ▸ .part hp hf

end Variant

section Lookup

variable (s : Subst)

theorem Field.typeIn?_eq (fields : List Field) (name : String) :
    Field.typeIn? fields s name =
      ((fields.map (Field.substitute s)).find? (·.name == name)).map Field.type := by
  rw [Field.typeIn?, List.find?_map, Option.map_map]
  rfl

theorem TypeDef.heldTypes_eq (d : TypeDef) (args : List Ty) :
    d.heldTypes args = (d.shape.substitute (d.subst args)).memberTypes := by
  rw [Shape.memberTypes_substitute, heldTypes]
  cases d.shape <;> simp [Shape.memberTypes, Shape.fields, Shape.variants]

theorem TypeDef.structFields?_eq (d : TypeDef) (args : List Ty) :
    d.structFields? args = (d.shape.substitute (d.subst args)).structFields? := by
  rw [structFields?]
  cases d.shape <;> simp [Shape.structFields?, Shape.substitute, Field.substitute]

theorem Variant.transfers_substitute (v : Variant) (args : Arguments) :
    (v.substitute s).transfers args =
      match args, v.payload with
      | .positional es, .single t => es.map fun e => ⟨e, t.substitute s⟩
      | .named es, .fields fs => es.map fun (name, e) =>
        ⟨e, (Field.typeIn? fs s name).getD .unknown⟩
      | _, _ => [] := by
  cases args <;> cases hp : v.payload <;>
    simp [transfers, substitute, boundType, Payload.map, hp, Field.typeIn?_eq]

end Lookup

namespace Context

variable {ctx : Context} {id : ℕ} {name : String} {args : List Ty} {d : TypeDef}

theorem fieldTransfers_eq (hd : ctx.registry.get? id = some d) (values : List (String × Expr)) :
    ctx.fieldTransfers (.adt id name args) values = values.map fun (field, e) =>
      ⟨e, ((d.concrete id args).shape.fieldType? field).getD (ctx.types.expr e)⟩ := by
  simp only [fieldTransfers, applied?_of_get? hd, Field.typeIn?_eq, TypeDef.concrete,
    Shape.fieldType?, Shape.fields_substitute]

theorem payloadTransfers_eq (hd : ctx.registry.get? id = some d) (variant : String)
    (values : Arguments) :
    ctx.payloadTransfers (.adt id name args) variant values =
      (((d.concrete id args).shape.variant? variant).map (·.transfers values)).getD [] := by
  simp only [payloadTransfers, applied?_of_get? hd, TypeDef.concrete, Shape.variant?_substitute]
  cases d.shape.variant? variant with
  | none => cases values <;> rfl
  | some v =>
      rw [Option.map_some, Option.map_some, Option.map_some, Option.getD_some,
        Variant.transfers_substitute]
      cases values <;> cases v.payload <;> rfl

theorem carries_binderType {t : Ty} {span : Span} {enum : String} {vs : List Variant}
    (hmatched : ctx.matched? t span = some (enum, vs)) (hnodup : (vs.map Variant.name).Nodup)
    {v : Variant} (hv : v ∈ vs) {a : Alternative} (hname : a.name = v.name)
    (hfits : Coverage.bindingProblem? v a = none) {field : Option String}
    (hfield : field ∈ a.selections) : v.Carries field (ctx.binderType t a.name field) := by
  have hfind : vs.find? (·.name == a.name) = some v :=
    (Coverage.find?_eq_some_iff hnodup).2 ⟨hv, hname.symm⟩
  rw [binderType_eq hmatched hfind]
  exact Variant.carries_boundType hfits hfield

theorem matched?_of_mem_variants {c : Concrete} {v : Variant} {span : Span}
    (hc : ctx.registry.instanceOf? (.adt id name args) = some c) (hv : v ∈ c.shape.variants) :
    ctx.matched? (.adt id name args) span = some (c.name, c.shape.variants) := by
  have henum : c.shape.isEnum = true := by
    cases hshape : c.shape with
    | enumType underlying vs => rfl
    | _ => simp [hshape, Shape.variants] at hv
  simp [matched?, hc, henum]

/-- Of an optional only what is there can be bound, as a whole. -/
theorem binderType_optional (ctx : Context) {u : Ty} {span : Span} {v : Variant} {a : Alternative}
    {field : Option String} (hv : v ∈ Coverage.optionalVariants u span) (hname : a.name = v.name)
    (hfits : Coverage.bindingProblem? v a = none) (hfield : field ∈ a.selections) :
    a.name = "Some" ∧ field = none ∧ ctx.binderType (.optional u) a.name field = u := by
  have hnodup : ["None", "Some"].Nodup := by decide
  have hcarries := ctx.carries_binderType (t := .optional u) rfl hnodup hv hname hfits hfield
  generalize hbound : ctx.binderType (.optional u) a.name field = bound at hcarries
  rcases List.mem_pair.1 hv with rfl | rfl
  · cases hcarries <;> contradiction
  · cases hcarries with
    | whole hp =>
        cases hp
        exact ⟨hname, rfl, rfl⟩
    | part hp => cases hp

end Context

namespace Registry

variable {r : Registry} {id : ℕ} {name : String} {args : List Ty} {d : TypeDef}

theorem methodSignature?_eq (hd : r.get? id = some d) (method : String) :
    r.methodSignature? (.adt id name args) method = (d.shape.method? method).map fun m =>
      let m' := m.substitute (d.subst args)
      ⟨d.qualifiedName ++ "." ++ m.name, m'.params, m'.ret, m.throws, m.span⟩ := by
  unfold methodSignature?
  cases hm : d.shape.method? method <;> simp [Ty.adt?, hd, hm]

/-- What the analyses read off a well-formed type, such as every type that is resolved, is
what its instance has. -/
theorem members_of_instance (o : Options) (requests : List Request) (signatures : Signatures)
    (types : TypeTable) (body : Body) {generics : List String} {id : ℕ} {name : String}
    {args : List Ty} (ht : (Ty.adt id name args).Formed (empty.run requests) generics) :
    let r := empty.run requests
    let ctx : Context := ⟨o, r, signatures, types, body⟩
    let t := Ty.adt id name args
    ∃ d c, r.get? id = some d ∧ d.instantiate id args = .ok c ∧
      -- where counted references are looked for
      d.heldTypes args = c.shape.memberTypes ∧ d.structFields? args = c.shape.structFields? ∧
      -- where the values of a construction go
      (∀ values, ctx.fieldTransfers t values = values.map fun (field, e) =>
        ⟨e, (c.shape.fieldType? field).getD (types.expr e)⟩) ∧
      (∀ variant values, ctx.payloadTransfers t variant values =
        ((c.shape.variant? variant).map (·.transfers values)).getD []) ∧
      -- what a pattern binds
      (∀ v ∈ c.shape.variants, ∀ a : Alternative, a.name = v.name →
        Coverage.bindingProblem? v a = none → ∀ field ∈ a.selections,
          v.Carries field (ctx.binderType t a.name field)) ∧
      (∀ (u : Ty) (span : Span), ∀ v ∈ Coverage.optionalVariants u span, ∀ a : Alternative,
        a.name = v.name → Coverage.bindingProblem? v a = none → ∀ field ∈ a.selections,
          a.name = "Some" ∧ field = none ∧ ctx.binderType (.optional u) a.name field = u) ∧
      -- what a call of a method passes on
      (∀ method, (r.methodSignature? t method).map (fun s => (s.params, s.ret, s.throws, s.span)) =
        (c.shape.method? method).map fun m => (m.params, m.ret, m.throws, m.span)) ∧
      ∀ method m, d.shape.method? method = some m →
        let own := Subst.ofPairs ((d.generics.zip args).filter fun p => p.1 ∉ m.generics)
        (r.methodSignature? t method).map (fun s => (s.params, s.ret)) =
          some (m.params.map (Ty.substitute own), m.ret.substitute own) := by
  intro r ctx t
  obtain ⟨d, hd, harity, hinstance⟩ := instanceOf?_of_formed ht
  -- Binders find their variant by its name, so the name must not be that of another.
  have hnodup : ((d.concrete id args).shape.variants.map Variant.name).Nodup := by
    rw [TypeDef.concrete, Shape.variants_substitute, List.map_map]
    exact ((wellFormed_empty.run requests).shapes id d hd).nodup_variants
  refine ⟨d, d.concrete id args, hd, TypeDef.instantiate_eq_ok_iff.2 ⟨harity, rfl⟩,
    d.heldTypes_eq args, d.structFields?_eq args, Context.fieldTransfers_eq hd,
    Context.payloadTransfers_eq hd, ?_, ?_, ?_, ?_⟩
  · intro v hv a hname hfits field hfield
    have hmatched : ctx.matched? t v.span = _ := Context.matched?_of_mem_variants hinstance hv
    exact Context.carries_binderType hmatched hnodup hv hname hfits hfield
  · intro u span v hv a hname hfits field hfield
    exact ctx.binderType_optional hv hname hfits hfield
  · intro method
    rw [methodSignature?_eq hd, TypeDef.concrete, Shape.method?_substitute, Option.map_map,
      Option.map_map]
    rfl
  · intro method m hm own
    rw [methodSignature?_eq hd, hm]
    have hown : own = (d.subst args).without m.generics := Subst.ofPairs_filter _ _
    rw [hown]
    rfl

end Registry

namespace Outcomes

/-- A method of a cell over `T` that has a parameter `T` of its own. -/
def moved : FunctionDecl where
  name := ⟨"moved", .nowhere⟩
  generics := ["T"]
  params := [⟨⟨"item", .nowhere⟩, .named "T"⟩, ⟨⟨"old", .nowhere⟩, .named "S"⟩]
  ret := some (.applied "Cell" [.named "S", .named "T"])
  throws := false
  body := none

def program : Program where
  decls := [.type (.classType
      ⟨⟨"Cell", .nowhere⟩, ["S", "T"], [⟨"item", .named "T", .nowhere⟩], [moved]⟩),
    .type (.enumType ⟨⟨"Outcome", .nowhere⟩, ["T", "E"], none,
      [⟨⟨"done", .nowhere⟩, .nowhere, none, .single (.named "T")⟩,
        ⟨⟨"failed", .nowhere⟩, .nowhere, none, .fields [⟨"cause", .named "E", .nowhere⟩]⟩]⟩)]

def registry : Registry := Registry.empty.run [.declare program, .close]

def context : Context := ⟨.default, registry, .empty, .empty, ⟨[], none, moved, ⟨.nowhere, []⟩⟩⟩

def cell : Ty := .adt 0 "Cell" [.bool, .str]

def outcome : Ty := .adt 1 "Outcome" [.int .i32, .str]

def movedMethod : Method :=
  ⟨"moved", ["T"], [.param "T", .param "S"], .adt 0 "Cell" [.param "S", .param "T"], false,
    .nowhere⟩

def cellDef : TypeDef :=
  ⟨"Cell", [], .nowhere, ["S", "T"], .classType [⟨"item", .param "T", .nowhere⟩] [movedMethod]⟩

def outcomeDef : TypeDef where
  name := "Outcome"
  space := []
  span := .nowhere
  generics := ["T", "E"]
  shape := .enumType none [⟨"done", .nowhere, none, none, .single (.param "T")⟩,
    ⟨"failed", .nowhere, none, none, .fields [⟨"cause", .param "E", .nowhere⟩]⟩]

theorem declared :
    registry.get? 0 = some cellDef ∧ registry.get? 1 = some outcomeDef ∧
      registry.resolve ⟨[], []⟩ (.applied "Cell" [.named "bool", .named "String"]) = .ok cell ∧
      registry.resolve ⟨[], []⟩ (.applied "Outcome" [.named "i32", .named "String"]) =
        .ok outcome := by
  refine ⟨?_, ?_, ?_, ?_⟩ <;> cbv

/-- What fails has a text as its cause, and what is moved into a cell keeps its type open. -/
theorem members_of_outcome_and_cell :
    cell.Formed registry [] ∧ outcome.Formed registry [] ∧
      context.binderType outcome "failed" (some "cause") = .str ∧
      (registry.methodSignature? cell "moved").map (fun s => (s.params, s.ret)) =
        some ([.param "T", .bool], .adt 0 "Cell" [.bool, .param "T"]) := by
  obtain ⟨hcellDef, houtcomeDef, hcell, houtcome⟩ := declared
  have hcell := Registry.formed_of_resolve hcell
  have houtcome := Registry.formed_of_resolve houtcome
  refine ⟨hcell, houtcome, ?_, ?_⟩
  · obtain ⟨d, c, hd, hc, -, -, -, -, hbound, -⟩ :=
      Registry.members_of_instance .default _ .empty .empty context.body houtcome
    obtain rfl := Option.some.inj (houtcomeDef.symm.trans hd)
    obtain rfl := Except.ok.inj hc
    have hcarries : Variant.Carries _ _ (context.binderType outcome "failed" (some "cause")) :=
      hbound ⟨"failed", .nowhere, none, none, .fields [⟨"cause", .str, .nowhere⟩]⟩ (by decide)
        ⟨.nowhere, "failed", .named [⟨⟨"cause", .nowhere⟩, ⟨"why", .nowhere⟩⟩]⟩ rfl (by decide) _
        (List.mem_singleton.2 rfl)
    generalize context.binderType outcome "failed" (some "cause") = u at hcarries ⊢
    cases hcarries with
    | part hp hf =>
        cases hp
        cases hf
        rfl
  · obtain ⟨d, c, hd, -, -, -, -, -, -, -, -, hmethods⟩ :=
      Registry.members_of_instance .default _ .empty .empty context.body hcell
    obtain rfl := Option.some.inj (hcellDef.symm.trans hd)
    exact hmethods "moved" movedMethod (by decide)

end Outcomes

end ProgramSafety
