import ProgramSafety.Proofs.Typing.Declared

/-!
# Renumbered registries

The numbers of definitions carry no meaning of their own. If a registry has the
definitions of another at the places that `σ` says (`Registry.MovesTo`), a written type
resolves in both to the same type up to `σ`, or fails in both with the same problem, as
long as the names that occur in it are found alike (`Registry.resolve_eq_map`). If all
names are found alike (`Registry.Renumbers`), the members of a declared type and the
problems with them are the same up to `σ`.
-/

namespace ProgramSafety

/-! ## Types -/

namespace Ty

mutual

def renumber (σ : ℕ → ℕ) : Ty → Ty
  | adt id name args => adt (σ id) name (renumberList σ args)
  | wrap w t => wrap w (t.renumber σ)
  | param n => param n
  | unknown => unknown
  | void => void
  | bool => bool
  | int t => int t
  | float t => float t
  | str => str

def renumberList (σ : ℕ → ℕ) : List Ty → List Ty
  | [] => []
  | t :: ts => t.renumber σ :: renumberList σ ts

end

variable {σ : ℕ → ℕ}

mutual

theorem renumber_id : ∀ t : Ty, t.renumber id = t
  | adt i name args => by rw [renumber, renumberList_id args, id]
  | wrap w t => by rw [renumber, renumber_id t]
  | param _ | unknown | void | bool | int _ | float _ | str => rfl

theorem renumberList_id : ∀ ts : List Ty, renumberList id ts = ts
  | [] => rfl
  | t :: ts => by rw [renumberList, renumber_id t, renumberList_id ts]

end

mutual

/-- A type is written with names, not with numbers. -/
theorem text_renumber : ∀ t : Ty, (t.renumber σ).text = t.text
  | adt i name [] => rfl
  | adt i name (a :: as) => by
    simp only [renumber, renumberList, text, text_renumber a, texts_renumberList as]
  | wrap w t => by rw [renumber, text, text, text_renumber t]
  | param _ | unknown | void | bool | int _ | float _ | str => rfl

theorem texts_renumberList : ∀ ts : List Ty, texts (renumberList σ ts) = texts ts
  | [] => rfl
  | t :: ts => by rw [renumberList, texts, texts, text_renumber t, texts_renumberList ts]

end

theorem int?_renumber (t : Ty) : (t.renumber σ).int? = t.int? := by cases t <;> rfl

theorem renumber_scalar? {name : String} {t : Ty} (h : scalar? name = some t) :
    t.renumber σ = t := by
  rcases leaf_of_scalar? h with rfl | rfl | rfl | ⟨i, rfl⟩ | ⟨f, rfl⟩ <;> rfl

end Ty

namespace TypeRef

inductive Occurs (u : TypeRef) : TypeRef → Prop where
  | here : Occurs u u
  | arg {t a : TypeRef} (ha : a ∈ t.args) (h : Occurs u a) : Occurs u t

end TypeRef

/-! ## Resolution -/

namespace Registry

variable {r r' : Registry} {σ : ℕ → ℕ} {scope : Scope}

/-- The definitions of `r` are in `r'` at the places that `σ` says, under the same names
and with the same parameters. -/
def MovesTo (σ : ℕ → ℕ) (r r' : Registry) : Prop :=
  ∀ id d, r.get? id = some d →
    ∃ d', r'.get? (σ id) = some d' ∧ d'.key = d.key ∧ d'.generics = d.generics

def FoundAlike (σ : ℕ → ℕ) (r r' : Registry) (scope : Scope) (t : TypeRef) : Prop :=
  r'.find? scope t = (r.find? scope t).map σ

theorem exists_get?_of_find? {t : TypeRef} {id : ℕ} (h : r.find? scope t = some id) :
    ∃ d, r.get? id = some d :=
  ⟨_, List.getElem?_eq_getElem (lt_of_find? h)⟩

theorem resolveDef_eq_error {t : TypeRef} (hfind : r.find? scope t = none) :
    r.resolveDef scope t = .error ⟨.unknownType t.text, t.span⟩ := by
  simp only [resolveDef, hfind]

theorem resolveDef_eq {t : TypeRef} {id : ℕ} {d : TypeDef} (hfind : r.find? scope t = some id)
    (hget : r.get? id = some d) :
    r.resolveDef scope t =
      if d.generics.length = t.args.length then .ok (id, d)
      else .error ⟨.genericArity d.qualifiedName d.generics.length t.args.length, t.span⟩ := by
  simp only [resolveDef, hfind, hget]

/-- A reference to a definition fails in both registries for the same reason, or leads to
the same definition. -/
theorem resolveDef_cases (hmoves : MovesTo σ r r') {t : TypeRef}
    (hfound : FoundAlike σ r r' scope t) :
    (∃ p, r.resolveDef scope t = .error p ∧ r'.resolveDef scope t = .error p) ∨
      ∃ id d d', r.resolveDef scope t = .ok (id, d) ∧ r'.resolveDef scope t = .ok (σ id, d') ∧
        d'.qualifiedName = d.qualifiedName := by
  cases hfind : r.find? scope t with
  | none =>
      have hfind' : r'.find? scope t = none := by rw [hfound, hfind]; rfl
      exact Or.inl ⟨_, resolveDef_eq_error hfind, resolveDef_eq_error hfind'⟩
  | some id =>
      have hfind' : r'.find? scope t = some (σ id) := by rw [hfound, hfind]; rfl
      obtain ⟨d, hd⟩ := exists_get?_of_find? hfind
      obtain ⟨d', hd', hkey, hgenerics⟩ := hmoves id d hd
      have hname := TypeDef.qualifiedName_eq hkey
      rw [resolveDef_eq hfind hd, resolveDef_eq hfind' hd', hgenerics, hname]
      split
      · exact Or.inr ⟨id, d, d', rfl, rfl, hname⟩
      · exact Or.inl ⟨_, rfl, rfl⟩

theorem renumber_reserved? {t : TypeRef} {s : Ty} (h : reserved? scope t = some (.plain s)) :
    s.renumber σ = s := by
  obtain ⟨rfl, -⟩ | hscalar := reserved?_plain_cases h
  · rfl
  · exact Ty.renumber_scalar? hscalar

mutual

/-- A written type means the same in both registries if the names in it do. -/
theorem resolve_eq_map (hmoves : MovesTo σ r r') : ∀ (t : TypeRef),
    (∀ u, u.Occurs t → reserved? scope u = none → FoundAlike σ r r' scope u) →
      r'.resolve scope t = (r.resolve scope t).map (Ty.renumber σ)
  | ⟨span, path, name, args⟩, hfound => by
    unfold resolve
    dsimp only
    split
    next s hreserved =>
      split
      · rw [Except.map, renumber_reserved? hreserved]
      · rfl
    next w hreserved =>
      split
      next a =>
        have ha := resolve_eq_map hmoves a fun u hu => hfound u (.arg (by simp) hu)
        rw [ha]
        cases r.resolve scope a <;> rfl
      next => rfl
    next hreserved =>
      have hargs := resolveList_eq_map hmoves args fun a ha u hu => hfound u (.arg ha hu)
      obtain ⟨p, hp, hp'⟩ | ⟨id, d, d', hd, hd', hname⟩ :=
        resolveDef_cases hmoves (hfound _ .here hreserved)
      · simp only [hp, hp']
        rfl
      · simp only [hd, hd', hargs, hname]
        cases r.resolveList scope args <;> rfl

theorem resolveList_eq_map (hmoves : MovesTo σ r r') : ∀ (ts : List TypeRef),
    (∀ t ∈ ts, ∀ u, u.Occurs t → reserved? scope u = none → FoundAlike σ r r' scope u) →
      r'.resolveList scope ts = (r.resolveList scope ts).map (Ty.renumberList σ)
  | [], _ => rfl
  | t :: ts, hfound => by
    have ht := resolve_eq_map hmoves t (hfound t List.mem_cons_self)
    have hts := resolveList_eq_map hmoves ts fun u hu => hfound u (List.mem_cons_of_mem _ hu)
    rw [resolveList, resolveList, ht, hts]
    cases r.resolve scope t with
    | error p => rfl
    | ok u => cases r.resolveList scope ts <;> rfl

end

end Registry

/-! ## Members -/

def Field.renumber (σ : ℕ → ℕ) (f : Field) : Field := { f with type := f.type.renumber σ }

def Method.renumber (σ : ℕ → ℕ) (m : Method) : Method :=
  { m with params := m.params.map (Ty.renumber σ), ret := m.ret.renumber σ }

def Variant.renumber (σ : ℕ → ℕ) (v : Variant) : Variant :=
  { v with payload := v.payload.map (Ty.renumber σ) (Field.renumber σ) }

def Shape.renumber (σ : ℕ → ℕ) : Shape → Shape
  | structType fs => structType (fs.map (Field.renumber σ))
  | classType fs ms => classType (fs.map (Field.renumber σ)) (ms.map (Method.renumber σ))
  | enumType underlying vs => enumType underlying (vs.map (Variant.renumber σ))

def TypeDef.renumber (σ : ℕ → ℕ) (d : TypeDef) : TypeDef :=
  { d with shape := d.shape.renumber σ }

/-- Numbers that stay the same leave the members as they are. -/
theorem Shape.renumber_id (s : Shape) : s.renumber id = s := by
  have htype : Ty.renumber id = id := funext Ty.renumber_id
  have hfield : Field.renumber id = id := funext fun f => by rw [Field.renumber, htype]; rfl
  have hmethod : Method.renumber id = id := funext fun m => by
    rw [Method.renumber, htype, List.map_id]
    rfl
  have hvariant : Variant.renumber id = id := funext fun v => by
    rw [Variant.renumber, htype, hfield, Payload.map_id_id]
    rfl
  cases s with
  | structType fs => rw [renumber, hfield, List.map_id]
  | classType fs ms => rw [renumber, hfield, hmethod, List.map_id, List.map_id]
  | enumType underlying vs => rw [renumber, hvariant, List.map_id]

/-- Values are counted without a look at the payloads. -/
theorem EnumValue.assign_map_renumber (σ : ℕ → ℕ) (t : IntType) (vs : List Variant) :
    assign t (vs.map (Variant.renumber σ)) =
      ((assign t vs).1.map (Variant.renumber σ), (assign t vs).2) := by
  have hfrom : ∀ next, assignFrom t next (vs.map (Variant.renumber σ)) =
      ((assignFrom t next vs).1.map (Variant.renumber σ), (assignFrom t next vs).2) := by
    intro next
    induction vs generalizing next with
    | nil => rfl
    | cons v vs ih =>
        have hexplicit : (v.renumber σ).explicit = v.explicit := rfl
        rw [List.map_cons, assignFrom, assignFrom, hexplicit]
        split
        · rw [ih]
          rfl
        · split
          · rw [ih]
            rfl
          · rw [ih]
            rfl
  exact hfrom (some 0)

namespace Registry

variable {r r' : Registry} {σ : ℕ → ℕ}

/-- `r'` is `r` with its definitions numbered anew, as far as names and parameters go. -/
structure Renumbers (σ : ℕ → ℕ) (r r' : Registry) : Prop where
  moves : MovesTo σ r r'
  lookup? : ∀ space name, r'.lookup? space name = (r.lookup? space name).map σ

namespace Renumbers

variable (h : Renumbers σ r r') (scope : Scope)

include h

theorem foundAlike (t : TypeRef) : FoundAlike σ r r' scope t := by
  unfold FoundAlike find?
  split
  · rw [List.map_findSome?]
    congr 1
    funext space
    exact h.lookup? space t.name
  · exact h.lookup? t.path t.name

theorem resolve (t : TypeRef) : r'.resolve scope t = (r.resolve scope t).map (Ty.renumber σ) :=
  resolve_eq_map h.moves t fun u _ _ => h.foundAlike scope u

theorem typeOf (t : TypeRef) : r'.typeOf scope t = (r.typeOf scope t).renumber σ := by
  rw [Registry.typeOf, Registry.typeOf, h.resolve]
  cases r.resolve scope t <;> rfl

theorem problemsOf (t : TypeRef) : r'.problemsOf scope t = r.problemsOf scope t := by
  rw [Registry.problemsOf, Registry.problemsOf, h.resolve]
  cases r.resolve scope t <;> rfl

theorem returnType (t : Option TypeRef) :
    r'.returnType scope t = (r.returnType scope t).renumber σ := by
  cases t with
  | none => rfl
  | some t => exact h.typeOf scope t

theorem field (f : FieldDecl) : r'.field scope f = (r.field scope f).renumber σ := by
  rw [Registry.field, h.typeOf]
  rfl

theorem fields (fs : List FieldDecl) :
    fs.map (r'.field scope) = (fs.map (r.field scope)).map (Field.renumber σ) := by
  rw [List.map_map]
  exact List.map_congr_left fun f _ => h.field scope f

theorem fieldProblems (fs : List FieldDecl) : r'.fieldProblems scope fs = r.fieldProblems scope fs :=
  List.flatMap_congr fun f _ => h.problemsOf scope f.type

theorem method (m : FunctionDecl) : r'.method scope m = (r.method scope m).renumber σ := by
  have hparams : m.params.map (fun p => r'.typeOf (methodScope scope m) p.type) =
      (m.params.map fun p => r.typeOf (methodScope scope m) p.type).map (Ty.renumber σ) := by
    rw [List.map_map]
    exact List.map_congr_left fun p _ => h.typeOf _ p.type
  simp only [Registry.method, hparams, h.returnType]
  rfl

theorem signatureProblems (f : FunctionDecl) :
    r'.signatureProblems scope f = r.signatureProblems scope f := by
  have hproblems : r'.problemsOf scope = r.problemsOf scope := funext (h.problemsOf scope)
  simp only [Registry.signatureProblems, hproblems]

theorem payload (p : Payload TypeRef FieldDecl) :
    r'.payload scope p = (r.payload scope p).map (Ty.renumber σ) (Field.renumber σ) := by
  cases p with
  | unit => rfl
  | single t => exact congrArg Payload.single (h.typeOf scope t)
  | fields fs => exact congrArg Payload.fields (h.fields scope fs)

theorem payloadProblems (p : Payload TypeRef FieldDecl) :
    r'.payloadProblems scope p = r.payloadProblems scope p := by
  cases p with
  | unit => rfl
  | single t => exact h.problemsOf scope t
  | fields fs => exact h.fieldProblems scope fs

theorem variant (v : VariantDecl) : r'.variant scope v = (r.variant scope v).renumber σ := by
  rw [Registry.variant, h.payload]
  rfl

theorem variantProblems (e : EnumDecl) (v : VariantDecl) :
    r'.variantProblems scope e v = r.variantProblems scope e v := by
  simp only [Registry.variantProblems, h.payloadProblems]

theorem variantsProblems (e : EnumDecl) (seen : List String) (vs : List VariantDecl) :
    r'.variantsProblems scope e seen vs = r.variantsProblems scope e seen vs := by
  induction vs generalizing seen with
  | nil => rfl
  | cons v vs ih => simp only [Registry.variantsProblems, h.variantProblems, ih]

theorem underlying (e : EnumDecl) : r'.underlying scope e = r.underlying scope e := by
  unfold Registry.underlying
  congr 1
  funext t
  rw [h.typeOf, Ty.int?_renumber]

theorem underlyingProblems (e : EnumDecl) :
    r'.underlyingProblems scope e = r.underlyingProblems scope e := by
  unfold Registry.underlyingProblems
  split
  · rfl
  next t _ =>
    rw [h.resolve]
    cases r.resolve scope t with
    | error p => rfl
    | ok u =>
        have htext : (u.renumber σ).text = u.text := u.text_renumber
        cases u with
        | adt id name args =>
            simp only [Except.map, Ty.renumber] at htext ⊢
            rw [htext]
        | wrap w u =>
            simp only [Except.map, Ty.renumber] at htext ⊢
            rw [htext]
        | _ => rfl

theorem enumVariants (e : EnumDecl) :
    r'.enumVariants scope e =
      ((r.enumVariants scope e).1.map (Variant.renumber σ), (r.enumVariants scope e).2) := by
  have hvariants : (distinctVariants [] e.variants).map (r'.variant scope) =
      ((distinctVariants [] e.variants).map (r.variant scope)).map (Variant.renumber σ) := by
    rw [List.map_map]
    exact List.map_congr_left fun v _ => h.variant scope v
  simp only [Registry.enumVariants, h.underlying, hvariants]
  split
  · exact EnumValue.assign_map_renumber σ _ _
  · rfl

/-- The members of a declared type are the same up to the numbers of definitions. -/
theorem shape (space : Namespace) (d : TypeDecl) :
    r'.shape space d = (r.shape space d).renumber σ := by
  cases d with
  | structType s => exact congrArg Shape.structType (h.fields _ s.fields)
  | classType c =>
      have hmethods : c.methods.map (r'.method ⟨space, c.generics⟩) =
          (c.methods.map (r.method ⟨space, c.generics⟩)).map (Method.renumber σ) := by
        rw [List.map_map]
        exact List.map_congr_left fun m _ => h.method _ m
      exact congrArg₂ Shape.classType (h.fields _ c.fields) hmethods
  | enumType e =>
      exact congrArg₂ Shape.enumType (h.underlying _ e)
        (congrArg Prod.fst (h.enumVariants ⟨space, e.generics⟩ e))

/-- The problems with the members of a declared type do not mention numbers. -/
theorem shapeProblems (space : Namespace) (d : TypeDecl) :
    r'.shapeProblems space d = r.shapeProblems space d := by
  cases d with
  | structType s => exact h.fieldProblems _ s.fields
  | classType c =>
      simp only [Registry.shapeProblems, h.fieldProblems, h.signatureProblems]
  | enumType e =>
      simp only [Registry.shapeProblems, h.underlyingProblems, h.variantsProblems,
        h.enumVariants]

end Renumbers

end Registry

end ProgramSafety
