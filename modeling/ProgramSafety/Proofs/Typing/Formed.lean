import Mathlib.Data.List.Nodup
import ProgramSafety.Typing.Declare

/-!
# Well-formed types

A type is well-formed over a registry if every definition that occurs in it is
registered, takes as many arguments as it is given and goes by its qualified name,
and if every type parameter that occurs in it is in scope (`Ty.Formed`). Written types
only ever resolve to well-formed ones (`Registry.formed_of_resolve`), and the members
of a declared type are well-formed over its own parameters
(`Registry.formed_shape`), whatever the registry.
-/

namespace ProgramSafety

namespace Ty

inductive Occurs (u : Ty) : Ty → Prop where
  | here : Occurs u u
  | arg {id : ℕ} {name : String} {args : List Ty} {t : Ty} (ht : t ∈ args) (h : Occurs u t) :
      Occurs u (adt id name args)
  | operand {w : Wrapper} {t : Ty} (h : Occurs u t) : Occurs u (wrap w t)

/-- What occurs in the type is registered or in scope. -/
structure Formed (r : Registry) (generics : List String) (t : Ty) : Prop where
  adt : ∀ id name args, (adt id name args).Occurs t →
    ∃ d, r.get? id = some d ∧ d.generics.length = args.length ∧ d.qualifiedName = name
  param : ∀ name, (param name).Occurs t → name ∈ generics

theorem leaf_of_scalar? {name : String} {t : Ty} (h : scalar? name = some t) :
    t = .void ∨ t = .bool ∨ t = .str ∨ (∃ i, t = .int i) ∨ ∃ f, t = .float f := by
  unfold scalar? at h
  split at h
  · simp_all
  · simp_all
  · simp_all
  · obtain ⟨i | f, -, rfl⟩ := Option.map_eq_some_iff.1 h
    · simp
    · simp

section Formed

variable {r : Registry} {generics : List String}

theorem formed_adt {id : ℕ} {d : TypeDef} {args : List Ty} (hd : r.get? id = some d)
    (harity : d.generics.length = args.length) (hargs : ∀ t ∈ args, t.Formed r generics) :
    (Ty.adt id d.qualifiedName args).Formed r generics where
  adt := by
    rintro _ _ _ (_ | ⟨ht, h⟩)
    · exact ⟨d, hd, harity, rfl⟩
    · exact (hargs _ ht).adt _ _ _ h
  param := by
    rintro _ (_ | ⟨ht, h⟩)
    exact (hargs _ ht).param _ h

theorem formed_param {name : String} (hname : name ∈ generics) :
    (Ty.param name).Formed r generics where
  adt := by rintro _ _ _ (_ | _)
  param := by
    rintro _ (_ | _)
    exact hname

theorem Formed.wrap {t : Ty} (ht : t.Formed r generics) (w : Wrapper) :
    (Ty.wrap w t).Formed r generics where
  adt := by
    rintro _ _ _ (_ | _ | h)
    exact ht.adt _ _ _ h
  param := by
    rintro _ (_ | _ | h)
    exact ht.param _ h

theorem formed_unknown : Ty.unknown.Formed r generics where
  adt := by rintro _ _ _ (_ | _)
  param := by rintro _ (_ | _)

theorem formed_of_scalar? {name : String} {t : Ty} (h : scalar? name = some t) :
    t.Formed r generics := by
  rcases leaf_of_scalar? h with rfl | rfl | rfl | ⟨i, rfl⟩ | ⟨f, rfl⟩ <;>
    exact ⟨by rintro _ _ _ (_ | _), by rintro _ (_ | _)⟩

end Formed

end Ty

/-! ## Resolution -/

theorem exists_of_map_eq_ok {ε α β : Type} {x : Except ε α} {f : α → β} {b : β}
    (h : x.map f = .ok b) : ∃ a, x = .ok a ∧ f a = b := by
  cases x with
  | error e => simp [Except.map] at h
  | ok a => exact ⟨a, rfl, by simpa [Except.map] using h⟩

namespace Registry

variable {r : Registry} {scope : Scope}

theorem of_resolveDef {t : TypeRef} {id : ℕ} {d : TypeDef} (h : r.resolveDef scope t = .ok (id, d)) :
    r.get? id = some d ∧ d.generics.length = t.args.length := by
  unfold resolveDef at h
  split at h
  · simp at h
  · split at h
    · simp at h
    next hd =>
      split at h
      next harity =>
        obtain ⟨rfl, rfl⟩ := by simpa using h
        exact ⟨hd, harity⟩
      next => simp at h

theorem reserved?_plain_cases {t : TypeRef} {s : Ty} (h : reserved? scope t = some (.plain s)) :
    (s = .param t.name ∧ t.name ∈ scope.generics) ∨ Ty.scalar? t.name = some s := by
  unfold reserved? at h
  split at h
  · simp at h
  · split at h
    next hname =>
      obtain rfl : .param t.name = s := by simpa using h
      exact Or.inl ⟨rfl, by simpa using hname⟩
    next =>
      split at h
      next hscalar =>
        obtain rfl := by simpa using h
        exact Or.inr hscalar
      next =>
        obtain ⟨w, -, hw⟩ := Option.map_eq_some_iff.1 h
        simp at hw

theorem of_reserved? {t : TypeRef} {s : Ty} (h : reserved? scope t = some (.plain s)) :
    s.Formed r scope.generics := by
  obtain ⟨rfl, hname⟩ | hscalar := reserved?_plain_cases h
  · exact Ty.formed_param hname
  · exact Ty.formed_of_scalar? hscalar

mutual

/-- A written type resolves to a well-formed type only. -/
theorem formed_of_resolve : ∀ {t : TypeRef} {u : Ty}, r.resolve scope t = .ok u →
    u.Formed r scope.generics
  | ⟨span, path, name, args⟩, u, h => by
    unfold resolve at h
    dsimp only at h
    split at h
    next s hreserved =>
      split at h
      · obtain rfl := by simpa using h
        exact of_reserved? hreserved
      · simp at h
    next w hreserved =>
      split at h
      next a =>
        obtain ⟨v, hv, rfl⟩ := exists_of_map_eq_ok h
        exact (formed_of_resolve hv).wrap w
      next => simp at h
    next =>
      split at h
      · simp at h
      next id d hd =>
        obtain ⟨us, hus, rfl⟩ := exists_of_map_eq_ok h
        obtain ⟨hget, harity⟩ := of_resolveDef hd
        obtain ⟨hlength, hformed⟩ := formed_of_resolveList hus
        exact Ty.formed_adt hget (harity.trans hlength.symm) hformed

theorem formed_of_resolveList : ∀ {ts : List TypeRef} {us : List Ty},
    r.resolveList scope ts = .ok us →
      us.length = ts.length ∧ ∀ u ∈ us, u.Formed r scope.generics
  | [], us, h => by
    obtain rfl : [] = us := by simpa [resolveList] using h
    simp
  | t :: ts, us, h => by
    unfold resolveList at h
    split at h
    · simp at h
    next u hu =>
      obtain ⟨vs, hvs, rfl⟩ := exists_of_map_eq_ok h
      obtain ⟨hlength, hformed⟩ := formed_of_resolveList hvs
      refine ⟨by simp [hlength], ?_⟩
      intro v hv
      rcases List.mem_cons.1 hv with rfl | hv
      · exact formed_of_resolve hu
      · exact hformed v hv

end

theorem formed_typeOf (r : Registry) (scope : Scope) (t : TypeRef) :
    (r.typeOf scope t).Formed r scope.generics := by
  unfold typeOf
  split
  next hu => exact formed_of_resolve hu
  next => exact Ty.formed_unknown

/-! ## Members -/

theorem formed_returnType (r : Registry) (scope : Scope) (t : Option TypeRef) :
    (r.returnType scope t).Formed r scope.generics := by
  cases t with
  | none => exact Ty.formed_of_scalar? (rfl : Ty.scalar? "void" = some .void)
  | some t => exact r.formed_typeOf scope t

end Registry

/-- The members of a definition with the given parameters are well-formed, and the
variants of an enum have names of their own. -/
structure Shape.Formed (r : Registry) (generics : List String) (s : Shape) : Prop where
  fields : ∀ f ∈ s.fields, f.type.Formed r generics
  methods : ∀ m ∈ s.methods, ∀ t ∈ m.ret :: m.params, t.Formed r (generics ++ m.generics)
  variants : ∀ v ∈ s.variants, ∀ t ∈ v.types, t.Formed r generics
  nodup_variants : (s.variants.map Variant.name).Nodup

namespace EnumValue

/-- Values are all that an enum over an integer type adds to its variants. -/
theorem map_assign (t : IntType) (vs : List Variant) :
    (assign t vs).1.map (fun v => (v.name, v.payload)) = vs.map fun v => (v.name, v.payload) := by
  have hfrom : ∀ next, (assignFrom t next vs).1.map (fun v => (v.name, v.payload)) =
      vs.map fun v => (v.name, v.payload) := by
    intro next
    fun_induction assignFrom t next vs <;> simp_all
  exact hfrom (some 0)

end EnumValue

namespace Registry

variable {r : Registry} {scope : Scope}

theorem nodup_distinctVariants (seen : List String) (vs : List VariantDecl) :
    ((distinctVariants seen vs).map (·.name.name)).Nodup ∧
      ∀ v ∈ distinctVariants seen vs, v.name.name ∉ seen := by
  fun_induction distinctVariants seen vs with
  | case1 => simp
  | case2 seen v vs hseen ih => exact ih
  | case3 seen v vs hseen ih =>
      refine ⟨?_, ?_⟩
      · rw [List.map_cons, List.nodup_cons]
        refine ⟨?_, ih.1⟩
        intro hmem
        obtain ⟨w, hw, hname⟩ := List.mem_map.1 hmem
        exact ih.2 w hw (hname ▸ List.mem_cons_self)
      · intro w hw
        rcases List.mem_cons.1 hw with rfl | hw
        · exact hseen
        · exact fun hmem => ih.2 w hw (List.mem_cons_of_mem _ hmem)

theorem map_enumVariants (r : Registry) (scope : Scope) (e : EnumDecl) :
    (r.enumVariants scope e).1.map (fun v => (v.name, v.payload)) =
      (distinctVariants [] e.variants).map fun v => (v.name.name, r.payload scope v.payload) := by
  rw [enumVariants]
  split
  · rw [EnumValue.map_assign, List.map_map]
    rfl
  · rw [List.map_map]
    rfl

theorem formed_payload {p : Payload TypeRef FieldDecl} {t : Ty}
    (ht : t ∈ (r.payload scope p).items (·.type)) : t.Formed r scope.generics := by
  cases p with
  | unit => simp [payload, Payload.map, Payload.items] at ht
  | single a =>
      obtain rfl : t = r.typeOf scope a := by
        simpa [payload, Payload.map, Payload.items] using ht
      exact r.formed_typeOf scope a
  | fields fs =>
      obtain ⟨f, -, rfl⟩ : ∃ f ∈ fs, (r.field scope f).type = t := by
        simpa [payload, Payload.map, Payload.items] using ht
      exact r.formed_typeOf scope f.type

/-- The members of a declared type are well-formed over its parameters. -/
theorem formed_shape (r : Registry) (space : Namespace) (d : TypeDecl) :
    (r.shape space d).Formed r d.generics := by
  have hfields : ∀ (fs : List FieldDecl), ∀ f ∈ fs.map (r.field ⟨space, d.generics⟩),
      f.type.Formed r d.generics := by
    intro fs f hf
    obtain ⟨decl, -, rfl⟩ := List.mem_map.1 hf
    exact r.formed_typeOf ⟨space, d.generics⟩ decl.type
  cases d with
  | structType s => exact ⟨hfields s.fields, by simp [shape, Shape.methods],
      by simp [shape, Shape.variants], by simp [shape, Shape.variants]⟩
  | classType c =>
      refine ⟨hfields c.fields, ?_, by simp [shape, Shape.variants],
        by simp [shape, Shape.variants]⟩
      intro m hm t ht
      obtain ⟨decl, -, rfl⟩ := List.mem_map.1 hm
      rcases List.mem_cons.1 ht with rfl | ht
      · exact r.formed_returnType (methodScope ⟨space, c.generics⟩ decl) decl.ret
      · obtain ⟨p, -, rfl⟩ := List.mem_map.1 ht
        exact r.formed_typeOf (methodScope ⟨space, c.generics⟩ decl) p.type
  | enumType e =>
      have hmap := r.map_enumVariants ⟨space, e.generics⟩ e
      refine ⟨by simp [shape, Shape.fields], by simp [shape, Shape.methods], ?_, ?_⟩
      · intro v hv t ht
        have hpair : (v.name, v.payload) ∈
            (r.enumVariants ⟨space, e.generics⟩ e).1.map fun v => (v.name, v.payload) :=
          List.mem_map.2 ⟨v, hv, rfl⟩
        rw [hmap] at hpair
        obtain ⟨decl, -, hdecl⟩ := List.mem_map.1 hpair
        obtain ⟨-, hpayload⟩ := Prod.mk.inj hdecl
        rw [Variant.types, ← hpayload] at ht
        exact formed_payload ht
      · have hnames := congrArg (List.map Prod.fst) hmap
        simp only [List.map_map, Function.comp_def] at hnames
        change ((r.enumVariants ⟨space, e.generics⟩ e).1.map Variant.name).Nodup
        rw [hnames]
        exact (nodup_distinctVariants [] e.variants).1

end Registry

end ProgramSafety
