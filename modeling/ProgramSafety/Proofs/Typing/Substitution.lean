import Mathlib.Data.List.Forall2
import ProgramSafety.Proofs.Typing.Formed
import ProgramSafety.Typing.Instances

/-!
# Substitution

What replacing type parameters does. `Ty.Replaced` and its companions for members and
definitions say that one thing is another with parameters replaced and nothing else
changed: names, places, values and the order of the members stay. Substitution is the only
such replacement (`Shape.replaced_iff`). The parameters that are left in a type come with
a replacement, or were not replaced (`Ty.occurs_param_substitute`), so nothing is left of
the parameters of a definition once it is applied to arguments without any
(`Ty.mem_of_occurs_substitute`). A well-formed type that applies a definition has an
instance (`Registry.instanceOf?_of_formed`).
-/

namespace ProgramSafety

namespace Subst

variable {generics names : List String} {args : List Ty} {n : String} {a : Ty}

theorem lookup_cons_eq_ite (m : String) (b : Ty) (pairs : List (String × Ty)) (n : String) :
    ((m, b) :: pairs).lookup n = if n = m then some b else pairs.lookup n := by
  rw [List.lookup_cons]
  split
  next heq => rw [if_pos (by simpa using heq)]
  next hne => rw [if_neg (by simpa using hne)]

theorem ofArgs_cons (g : String) (generics : List String) (a : Ty) (args : List Ty) (n : String) :
    ofArgs (g :: generics) (a :: args) n =
      (ofArgs generics args n).or (if n = g then some a else none) := by
  simp only [ofArgs, ofPairs, List.zip_cons_cons, List.reverse_cons, List.lookup_append,
    lookup_cons_eq_ite, List.lookup_nil]

theorem isSome_ofArgs_iff (hlength : generics.length = args.length) :
    (ofArgs generics args n).isSome ↔ n ∈ generics := by
  induction generics generalizing args with
  | nil => simp [ofArgs, ofPairs]
  | cons g generics ih =>
      obtain ⟨a, args, rfl⟩ := List.exists_cons_of_length_eq_add_one hlength.symm
      rw [ofArgs_cons, Option.isSome_or, Bool.or_eq_true, ih (Nat.succ.inj hlength), List.mem_cons]
      by_cases hn : n = g <;> simp [hn]

/-- A parameter stands for the argument at its last place. -/
theorem ofArgs_eq_some_iff (hlength : generics.length = args.length) :
    ofArgs generics args n = some a ↔
      ∃ i : ℕ, generics[i]? = some n ∧ args[i]? = some a ∧ n ∉ generics.drop (i + 1) := by
  induction generics generalizing args with
  | nil => simp [ofArgs, ofPairs]
  | cons g generics ih =>
      obtain ⟨b, args, rfl⟩ := List.exists_cons_of_length_eq_add_one hlength.symm
      have htail : generics.length = args.length := Nat.succ.inj hlength
      have hnone : ofArgs generics args n = none ↔ n ∉ generics := by
        rw [← isSome_ofArgs_iff htail, Option.not_isSome_iff_eq_none]
      rw [ofArgs_cons, Option.or_eq_some_iff, ih htail, hnone]
      constructor
      · rintro (⟨i, hn, ha, hlast⟩ | ⟨hlast, hhead⟩)
        · exact ⟨i + 1, hn, ha, hlast⟩
        · obtain ⟨rfl, rfl⟩ : n = g ∧ b = a := by simpa using hhead
          exact ⟨0, rfl, rfl, hlast⟩
      · rintro ⟨i, hn, ha, hlast⟩
        cases i with
        | zero =>
            obtain ⟨rfl, rfl⟩ : g = n ∧ b = a := ⟨Option.some.inj hn, Option.some.inj ha⟩
            exact Or.inr ⟨hlast, if_pos rfl⟩
        | succ i => exact Or.inl ⟨i, hn, ha, hlast⟩

theorem mem_args_of_ofArgs (h : Subst.ofArgs generics args n = some a) : a ∈ args := by
  obtain ⟨pre, post, hsplit, -⟩ := List.lookup_eq_some_iff.1 h
  have hmem : (n, a) ∈ (generics.zip args).reverse := by simp [hsplit]
  exact (List.of_mem_zip (List.mem_reverse.1 hmem)).2

/-- Leaving names alone is the same as leaving their pairs out. -/
theorem ofPairs_filter (pairs : List (String × Ty)) (names : List String) :
    ofPairs (pairs.filter fun p => p.1 ∉ names) = (ofPairs pairs).without names := by
  funext n
  rw [ofPairs, without, ← List.filter_reverse, ofPairs]
  induction pairs.reverse with
  | nil => exact (ite_self _).symm
  | cons p pairs ih =>
      obtain ⟨m, b⟩ := p
      rw [List.filter_cons, lookup_cons_eq_ite]
      by_cases hm : m ∈ names
      · rw [if_neg (by simpa using hm), ih]
        by_cases hn : n = m
        · simp [hn, hm]
        · simp [hn]
      · rw [if_pos (by simpa using hm), lookup_cons_eq_ite, ih]
        by_cases hn : n = m
        · simp [hn, hm]
        · simp [hn]

end Subst

/-! ## Replacing parameters -/

theorem forall₂_iff_eq_map {α β : Type} {R : α → β → Prop} {f : α → β}
    (h : ∀ a b, R a b ↔ b = f a) {as : List α} {bs : List β} :
    List.Forall₂ R as bs ↔ bs = as.map f := by
  have hR : R = fun a b => f a = b := by
    funext a b
    exact propext ((h a b).trans eq_comm)
  rw [hR, eq_comm, ← List.forall₂_map_left_iff, List.forall₂_eq_eq_eq]

inductive Ty.Replaced (s : Subst) : Ty → Ty → Prop where
  | given {n : String} {u : Ty} (h : s n = some u) : Replaced s (.param n) u
  | kept {n : String} (h : s n = none) : Replaced s (.param n) (.param n)
  | adt {id : ℕ} {name : String} {args args' : List Ty} (h : List.Forall₂ (Replaced s) args args') :
      Replaced s (.adt id name args) (.adt id name args')
  | wrap {w : Wrapper} {t t' : Ty} (h : Replaced s t t') : Replaced s (.wrap w t) (.wrap w t')
  | unknown : Replaced s .unknown .unknown
  | void : Replaced s .void .void
  | bool : Replaced s .bool .bool
  | int {t : IntType} : Replaced s (.int t) (.int t)
  | float {t : FloatType} : Replaced s (.float t) (.float t)
  | str : Replaced s .str .str

structure Field.Replaced (s : Subst) (f f' : Field) : Prop where
  name : f'.name = f.name
  type : f.type.Replaced s f'.type
  span : f'.span = f.span

/-- The parameters of the method itself stay. -/
structure Method.Replaced (s : Subst) (m m' : Method) : Prop where
  name : m'.name = m.name
  generics : m'.generics = m.generics
  params : List.Forall₂ (Ty.Replaced (s.without m.generics)) m.params m'.params
  ret : m.ret.Replaced (s.without m.generics) m'.ret
  throws : m'.throws = m.throws
  span : m'.span = m.span

inductive Payload.Replaced (s : Subst) : Payload Ty Field → Payload Ty Field → Prop where
  | unit : Replaced s .unit .unit
  | single {t t' : Ty} (h : t.Replaced s t') : Replaced s (.single t) (.single t')
  | fields {fs fs' : List Field} (h : List.Forall₂ (Field.Replaced s) fs fs') :
      Replaced s (.fields fs) (.fields fs')

structure Variant.Replaced (s : Subst) (v v' : Variant) : Prop where
  name : v'.name = v.name
  span : v'.span = v.span
  explicit : v'.explicit = v.explicit
  discriminant : v'.discriminant = v.discriminant
  payload : v.payload.Replaced s v'.payload

inductive Shape.Replaced (s : Subst) : Shape → Shape → Prop where
  | structType {fs fs' : List Field} (h : List.Forall₂ (Field.Replaced s) fs fs') :
      Replaced s (.structType fs) (.structType fs')
  | classType {fs fs' : List Field} {ms ms' : List Method}
      (hfields : List.Forall₂ (Field.Replaced s) fs fs')
      (hmethods : List.Forall₂ (Method.Replaced s) ms ms') :
      Replaced s (.classType fs ms) (.classType fs' ms')
  | enumType {underlying : Option IntType} {vs vs' : List Variant}
      (h : List.Forall₂ (Variant.Replaced s) vs vs') :
      Replaced s (.enumType underlying vs) (.enumType underlying vs')

section Replaced

variable {s : Subst}

namespace Ty

mutual

theorem replaced_iff : ∀ {t u : Ty}, t.Replaced s u ↔ u = t.substitute s
  | param n, u => by
    rw [substitute]
    constructor
    · rintro (h | h) <;> simp [h]
    · rintro rfl
      cases h : s n with
      | none => exact .kept h
      | some u => exact .given h
  | adt id name args, u => by
    rw [substitute]
    constructor
    · rintro ⟨⟩
      next h => rw [forall₂_replaced_iff.1 h]
    · rintro rfl
      exact .adt (forall₂_replaced_iff.2 rfl)
  | wrap w t, u => by
    rw [substitute]
    constructor
    · rintro ⟨⟩
      next h => rw [replaced_iff.1 h]
    · rintro rfl
      exact .wrap (replaced_iff.2 rfl)
  | unknown, u => ⟨by rintro ⟨⟩; rfl, by rintro rfl; exact .unknown⟩
  | void, u => ⟨by rintro ⟨⟩; rfl, by rintro rfl; exact .void⟩
  | bool, u => ⟨by rintro ⟨⟩; rfl, by rintro rfl; exact .bool⟩
  | int t, u => ⟨by rintro ⟨⟩; rfl, by rintro rfl; exact .int⟩
  | float t, u => ⟨by rintro ⟨⟩; rfl, by rintro rfl; exact .float⟩
  | str, u => ⟨by rintro ⟨⟩; rfl, by rintro rfl; exact .str⟩

theorem forall₂_replaced_iff : ∀ {ts us : List Ty},
    List.Forall₂ (Replaced s) ts us ↔ us = substituteList s ts
  | [], us => by rw [List.forall₂_nil_left_iff, substituteList]
  | t :: ts, us => by
    rw [List.forall₂_cons_left_iff, substituteList]
    constructor
    · rintro ⟨u, us, hu, hus, rfl⟩
      rw [replaced_iff.1 hu, forall₂_replaced_iff.1 hus]
    · rintro rfl
      exact ⟨_, _, replaced_iff.2 rfl, forall₂_replaced_iff.2 rfl, rfl⟩

end

end Ty

theorem Field.replaced_iff {f f' : Field} : f.Replaced s f' ↔ f' = f.substitute s := by
  constructor
  · rintro ⟨hname, htype, hspan⟩
    cases f'
    rw [Ty.replaced_iff] at htype
    simp_all [Field.substitute]
  · rintro rfl
    exact ⟨rfl, Ty.replaced_iff.2 rfl, rfl⟩

theorem Field.forall₂_replaced_iff {fs fs' : List Field} :
    List.Forall₂ (Field.Replaced s) fs fs' ↔ fs' = fs.map (Field.substitute s) :=
  forall₂_iff_eq_map (R := Field.Replaced s) fun _ _ => Field.replaced_iff

theorem Method.replaced_iff {m m' : Method} : m.Replaced s m' ↔ m' = m.substitute s := by
  constructor
  · rintro ⟨hname, hgenerics, hparams, hret, hthrows, hspan⟩
    cases m'
    rw [Ty.forall₂_replaced_iff, Ty.substituteList_eq_map] at hparams
    rw [Ty.replaced_iff] at hret
    simp_all [Method.substitute]
  · rintro rfl
    exact ⟨rfl, rfl, Ty.forall₂_replaced_iff.2 (Ty.substituteList_eq_map _ _).symm,
      Ty.replaced_iff.2 rfl, rfl, rfl⟩

theorem Payload.replaced_iff {p p' : Payload Ty Field} :
    p.Replaced s p' ↔ p' = p.map (Ty.substitute s) (Field.substitute s) := by
  constructor
  · rintro (_ | h | h)
    · rfl
    · rw [Ty.replaced_iff.1 h, Payload.map]
    · rw [Field.forall₂_replaced_iff.1 h, Payload.map]
  · rintro rfl
    cases p with
    | unit => exact .unit
    | single t => exact .single (Ty.replaced_iff.2 rfl)
    | fields fs => exact .fields (Field.forall₂_replaced_iff.2 rfl)

theorem Variant.replaced_iff {v v' : Variant} : v.Replaced s v' ↔ v' = v.substitute s := by
  constructor
  · rintro ⟨hname, hspan, hexplicit, hdiscriminant, hpayload⟩
    cases v'
    rw [Payload.replaced_iff] at hpayload
    simp_all [Variant.substitute]
  · rintro rfl
    exact ⟨rfl, rfl, rfl, rfl, Payload.replaced_iff.2 rfl⟩

/-- Substitution replaces parameters and does nothing else. -/
theorem Shape.replaced_iff {shape shape' : Shape} :
    shape.Replaced s shape' ↔ shape' = shape.substitute s := by
  have hmethods : ∀ {ms ms' : List Method}, List.Forall₂ (Method.Replaced s) ms ms' ↔
      ms' = ms.map (Method.substitute s) :=
    forall₂_iff_eq_map (R := Method.Replaced s) fun _ _ => Method.replaced_iff
  have hvariants : ∀ {vs vs' : List Variant}, List.Forall₂ (Variant.Replaced s) vs vs' ↔
      vs' = vs.map (Variant.substitute s) :=
    forall₂_iff_eq_map (R := Variant.Replaced s) fun _ _ => Variant.replaced_iff
  constructor
  · rintro (h | ⟨hf, hm⟩ | h)
    · rw [Field.forall₂_replaced_iff.1 h, Shape.substitute]
    · rw [Field.forall₂_replaced_iff.1 hf, hmethods.1 hm, Shape.substitute]
    · rw [hvariants.1 h, Shape.substitute]
  · rintro rfl
    cases shape with
    | structType fs => exact .structType (Field.forall₂_replaced_iff.2 rfl)
    | classType fs ms => exact .classType (Field.forall₂_replaced_iff.2 rfl) (hmethods.2 rfl)
    | enumType underlying vs => exact .enumType (hvariants.2 rfl)

end Replaced

/-! ## Parameters that are left -/

namespace Ty

theorem occurs_adt_iff {u : Ty} {id : ℕ} {name : String} {args : List Ty} :
    u.Occurs (adt id name args) ↔ u = adt id name args ∨ ∃ t ∈ args, u.Occurs t := by
  constructor
  · rintro (_ | ⟨ht, h⟩)
    · exact Or.inl rfl
    · exact Or.inr ⟨_, ht, h⟩
  · rintro (rfl | ⟨t, ht, h⟩)
    · exact .here
    · exact .arg ht h

theorem occurs_wrap_iff {u : Ty} {w : Wrapper} {t : Ty} :
    u.Occurs (wrap w t) ↔ u = wrap w t ∨ u.Occurs t := by
  constructor
  · rintro (_ | _ | h)
    · exact Or.inl rfl
    · exact Or.inr h
  · rintro (rfl | h)
    · exact .here
    · exact .operand h

mutual

theorem hasParams_iff : ∀ {t : Ty}, t.hasParams = true ↔ ∃ n, (param n).Occurs t
  | param n => by
    simp only [hasParams, true_iff]
    exact ⟨n, .here⟩
  | adt id name args => by
    simp only [hasParams, occurs_adt_iff, reduceCtorEq, false_or]
    exact anyHasParams_iff
  | wrap w t => by
    simp only [hasParams, occurs_wrap_iff, reduceCtorEq, false_or]
    exact hasParams_iff
  | unknown | void | bool | int _ | float _ | str => by
    simp only [hasParams, Bool.false_eq_true, false_iff]
    rintro ⟨n, _ | _⟩

theorem anyHasParams_iff : ∀ {ts : List Ty},
    anyHasParams ts = true ↔ ∃ n, ∃ t ∈ ts, (param n).Occurs t
  | [] => by simp [anyHasParams]
  | t :: ts => by
    rw [anyHasParams, Bool.or_eq_true, hasParams_iff, anyHasParams_iff]
    simp only [List.mem_cons, exists_eq_or_imp, exists_or]

end

variable {s : Subst} {n : String}

mutual

/-- A parameter that is left belongs to what a parameter was replaced by, which is itself
if it was not replaced. -/
theorem occurs_param_substitute : ∀ {t : Ty}, (param n).Occurs (t.substitute s) →
    ∃ m, (param m).Occurs t ∧ (param n).Occurs ((s m).getD (param m))
  | param m, h => ⟨m, .here, h⟩
  | adt id name args, h => by
    rw [substitute, occurs_adt_iff] at h
    obtain ⟨u, hu, h⟩ := h.resolve_left (by simp)
    obtain ⟨t, ht, m, hm, hn⟩ := occurs_param_substituteList hu h
    exact ⟨m, .arg ht hm, hn⟩
  | wrap w t, h => by
    rw [substitute, occurs_wrap_iff] at h
    obtain ⟨m, hm, hn⟩ := occurs_param_substitute (h.resolve_left (by simp))
    exact ⟨m, .operand hm, hn⟩
  | unknown, h | void, h | bool, h | int _, h | float _, h | str, h => by cases h

theorem occurs_param_substituteList : ∀ {ts : List Ty} {u : Ty}, u ∈ substituteList s ts →
    (param n).Occurs u →
      ∃ t ∈ ts, ∃ m, (param m).Occurs t ∧ (param n).Occurs ((s m).getD (param m))
  | t :: ts, u, hu, h => by
    rw [substituteList, List.mem_cons] at hu
    rcases hu with rfl | hu
    · exact ⟨t, List.mem_cons_self, occurs_param_substitute h⟩
    · obtain ⟨t', ht', hleft⟩ := occurs_param_substituteList hu h
      exact ⟨t', List.mem_cons_of_mem _ ht', hleft⟩

end

/-- Arguments without parameters leave the parameters that are not replaced. -/
theorem mem_of_occurs_substitute {generics own : List String} {args : List Ty} {t : Ty}
    (hlength : generics.length = args.length) (hargs : ∀ a ∈ args, ∀ m, ¬ (param m).Occurs a)
    (ht : ∀ m, (param m).Occurs t → m ∈ generics ++ own)
    (h : (param n).Occurs (t.substitute ((Subst.ofArgs generics args).without own))) :
    n ∈ own := by
  obtain ⟨m, hm, hn⟩ := occurs_param_substitute h
  by_cases hown : m ∈ own
  · rw [Subst.without, if_pos hown, Option.getD_none] at hn
    cases hn
    exact hown
  · have hmem : m ∈ generics := (List.mem_append.1 (ht m hm)).resolve_right hown
    obtain ⟨a, ha⟩ := Option.isSome_iff_exists.1 ((Subst.isSome_ofArgs_iff hlength).2 hmem)
    rw [Subst.without, if_neg hown, ha, Option.getD_some] at hn
    exact absurd hn (hargs a (Subst.mem_args_of_ofArgs ha) n)

end Ty

/-! ## Members -/

theorem Subst.without_nil (s : Subst) : s.without [] = s := by
  funext n
  simp [without]

namespace Shape

variable (s : Subst) (shape : Shape) (name : String)

theorem isEnum_substitute : (shape.substitute s).isEnum = shape.isEnum := by
  cases shape <;> rfl

theorem fields_substitute :
    (shape.substitute s).fields = shape.fields.map (Field.substitute s) := by
  cases shape <;> rfl

theorem methods_substitute :
    (shape.substitute s).methods = shape.methods.map (Method.substitute s) := by
  cases shape <;> rfl

theorem variants_substitute :
    (shape.substitute s).variants = shape.variants.map (Variant.substitute s) := by
  cases shape <;> rfl

theorem method?_substitute :
    (shape.substitute s).method? name = (shape.method? name).map (Method.substitute s) := by
  rw [method?, methods_substitute, List.find?_map]
  rfl

theorem variant?_substitute :
    (shape.substitute s).variant? name = (shape.variant? name).map (Variant.substitute s) := by
  rw [variant?, variants_substitute, List.find?_map]
  rfl

def memberTypes (s : Shape) : List Ty :=
  s.fields.map Field.type ++ s.variants.flatMap Variant.types

theorem memberTypes_substitute (s : Subst) (shape : Shape) :
    (shape.substitute s).memberTypes = shape.memberTypes.map (Ty.substitute s) := by
  have htypes : ∀ v : Variant, (v.substitute s).types = v.types.map (Ty.substitute s) := by
    intro v
    cases hp : v.payload <;>
      simp [Variant.types, Variant.substitute, Payload.map, Payload.items, Field.substitute, hp]
  cases shape with
  | structType fs | classType fs ms =>
      simp [memberTypes, substitute, fields, variants, Field.substitute, Function.comp_def]
  | enumType underlying vs =>
      simp [memberTypes, substitute, fields, variants, List.flatMap_map, List.map_flatMap, htypes]

end Shape

theorem Shape.Formed.memberTypes {r : Registry} {generics : List String} {shape : Shape} {t : Ty}
    (h : shape.Formed r generics) (ht : t ∈ shape.memberTypes) : t.Formed r generics := by
  rcases List.mem_append.1 ht with ht | ht
  · obtain ⟨f, hf, rfl⟩ := List.mem_map.1 ht
    exact h.fields f hf
  · obtain ⟨v, hv, ht⟩ := List.mem_flatMap.1 ht
    exact h.variants v hv t ht

/-! ## Instances -/

def TypeDef.concrete (d : TypeDef) (id : ℕ) (args : List Ty) : Concrete :=
  ⟨id, (Ty.adt id d.qualifiedName args).text, args, d.shape.substitute (d.subst args)⟩

theorem TypeDef.instantiate_eq_ok_iff {d : TypeDef} {id : ℕ} {args : List Ty} {c : Concrete} :
    d.instantiate id args = .ok c ↔ d.generics.length = args.length ∧ d.concrete id args = c := by
  unfold instantiate
  split
  next harity => simp [harity, concrete]
  next harity => simp [harity]

namespace Registry

variable {r : Registry} {t : Ty} {c : Concrete}

theorem instanceOf?_eq_some_iff :
    r.instanceOf? t = some c ↔ ∃ id name args d, t = .adt id name args ∧ r.get? id = some d ∧
      d.generics.length = args.length ∧ d.concrete id args = c := by
  have hmade : ∀ (d : TypeDef) (id : ℕ) (args : List Ty),
      (d.instantiate id args).toOption = some c ↔
        d.generics.length = args.length ∧ d.concrete id args = c := by
    intro d id args
    rw [← TypeDef.instantiate_eq_ok_iff]
    cases d.instantiate id args <;> simp [Except.toOption]
  cases t with
  | adt id name args => simp [instanceOf?, Ty.adt?, Option.bind_eq_some_iff, hmade]
  | _ => simp [instanceOf?, Ty.adt?]

theorem instanceOf?_of_formed {generics : List String} {id : ℕ} {name : String} {args : List Ty}
    (ht : (Ty.adt id name args).Formed r generics) :
    ∃ d, r.get? id = some d ∧ d.generics.length = args.length ∧
      r.instanceOf? (.adt id name args) = some (d.concrete id args) := by
  obtain ⟨d, hd, harity, -⟩ := ht.adt id name args .here
  exact ⟨d, hd, harity, instanceOf?_eq_some_iff.2 ⟨id, name, args, d, rfl, hd, harity, rfl⟩⟩

end Registry

end ProgramSafety
