import Mathlib.Data.Set.Insert
import ProgramSafety.Proofs.Typing.Substitution

/-!
# Laws of substitution

Parameters are replaced all at once: what a replacement brings in is not replaced again,
even if it goes by the same names. So two substitutions agree on a type exactly if they
agree at the parameters of the type (`Ty.substitute_eq_substitute_iff`), a second
substitution acts on the replacements of the first and on what the first has left alone
(`Ty.substitute_substitute`), and the parameters of the result are known in advance
(`Ty.params_substitute`).

The members of a definition follow their types, except that a method keeps its own
parameters. A replacement may bring a name into the method that is also one of these, and
then the second substitution does not reach it (`Shape.substitute_substitute_iff`).
-/

namespace ProgramSafety

namespace Ty

/-- Induction on types, all arguments of a definition at once. -/
@[elab_as_elim]
theorem ind {motive : Ty → Prop} (unknown : motive .unknown) (void : motive .void)
    (bool : motive .bool) (int : ∀ t, motive (.int t)) (float : ∀ t, motive (.float t))
    (str : motive .str)
    (adt : ∀ id name args, (∀ t ∈ args, motive t) → motive (.adt id name args))
    (param : ∀ n, motive (.param n)) (wrap : ∀ w t, motive t → motive (.wrap w t)) (t : Ty) :
    motive t :=
  @Ty.rec motive (fun ts => ∀ t ∈ ts, motive t) unknown void bool int float str adt param wrap
    (List.forall_mem_nil _) (fun _ _ ht hts => List.forall_mem_cons.2 ⟨ht, hts⟩) t

def params (t : Ty) : Set String := {n | (param n).Occurs t}

variable {s s' : Subst} {n : String}

theorem mem_params_param_iff {m : String} : n ∈ (param m).params ↔ n = m := by
  constructor
  · rintro ⟨⟩
    rfl
  · rintro rfl
    exact .here

theorem mem_params_adt_iff {id : ℕ} {name : String} {args : List Ty} :
    n ∈ (adt id name args).params ↔ ∃ t ∈ args, n ∈ t.params :=
  occurs_adt_iff.trans (or_iff_right (by simp))

theorem params_wrap (w : Wrapper) (t : Ty) : (wrap w t).params = t.params := by
  ext n
  exact occurs_wrap_iff.trans (or_iff_right (by simp))

theorem params_eq_empty_iff {t : Ty} : t.params = ∅ ↔ t.hasParams = false := by
  rw [Set.eq_empty_iff_forall_notMem, ← Bool.not_eq_true, hasParams_iff, not_exists]
  rfl

/-- Nothing but the replacements of its own parameters matters to a type. -/
theorem substitute_eq_substitute_iff {t : Ty} :
    t.substitute s = t.substitute s' ↔
      ∀ n ∈ t.params, (param n).substitute s = (param n).substitute s' := by
  induction t using Ty.ind with
  | param m => simp [mem_params_param_iff]
  | adt id name args ih =>
      simp only [substitute, substituteList_eq_map, adt.injEq, true_and, List.map_inj_left,
        mem_params_adt_iff]
      constructor
      · rintro h n ⟨t, ht, hn⟩
        exact (ih t ht).1 (h t ht) n hn
      · exact fun h t ht => (ih t ht).2 fun n hn => h n ⟨t, ht, hn⟩
  | wrap w t ih =>
      rw [params_wrap, ← ih, substitute, substitute, wrap.injEq]
      exact and_iff_right rfl
  | _ => exact iff_of_true rfl (by rintro n ⟨⟩)

theorem substitute_none (t : Ty) : t.substitute (fun _ => none) = t := by
  induction t using Ty.ind with
  | adt id name args ih =>
      rw [substitute, substituteList_eq_map, List.map_congr_left ih, List.map_id']
  | wrap w t ih => rw [substitute, ih]
  | _ => rfl

/-- A type is unchanged if its parameters are left alone. -/
theorem substitute_eq_self_iff {t : Ty} :
    t.substitute s = t ↔ ∀ n ∈ t.params, (param n).substitute s = param n :=
  calc t.substitute s = t
    _ ↔ t.substitute s = t.substitute fun _ => none := by rw [substitute_none]
    _ ↔ ∀ n ∈ t.params, (param n).substitute s = param n := substitute_eq_substitute_iff

end Ty

/-! ## One substitution after another -/

namespace Subst

def names (s : Subst) : Set String := {n | (s n).isSome}

/-- First one substitution and then another. The second acts on the replacements of the
first and on the names that the first leaves alone. -/
def andThen (s r : Subst) : Subst := fun n =>
  match s n with
  | some u => some (u.substitute r)
  | none => r n

/-- The same names with another substitution carried out in their replacements. -/
def mapImages (s r : Subst) : Subst := fun n => (s n).map (Ty.substitute r)

end Subst

namespace Ty

variable {s r : Subst} {n : String} {t u : Ty}

theorem param_substitute_andThen (s r : Subst) (n : String) :
    (param n).substitute (s.andThen r) = ((param n).substitute s).substitute r := by
  simp only [substitute, Subst.andThen]
  cases s n <;> rfl

theorem substitute_substitute (t : Ty) (s r : Subst) :
    (t.substitute s).substitute r = t.substitute (s.andThen r) := by
  induction t using Ty.ind with
  | param n => exact (param_substitute_andThen s r n).symm
  | adt id name args ih =>
      simp only [substitute, substituteList_eq_map, List.map_map, adt.injEq, true_and]
      exact List.map_congr_left ih
  | wrap w t ih => rw [substitute, substitute, substitute, ih]
  | _ => rfl

/-- Where the first substitution replaces every parameter, the second acts on the
replacements alone. -/
theorem substitute_substitute_of_subset (h : t.params ⊆ s.names) (r : Subst) :
    (t.substitute s).substitute r = t.substitute (s.mapImages r) := by
  rw [substitute_substitute, substitute_eq_substitute_iff]
  intro n hn
  obtain ⟨u, hu⟩ := Option.isSome_iff_exists.1 (h hn)
  simp [substitute, Subst.andThen, Subst.mapImages, hu]

theorem Occurs.substitute (h : u.Occurs t) (s : Subst) :
    (u.substitute s).Occurs (t.substitute s) := by
  induction h with
  | here => exact .here
  | arg ht _ ih =>
      rw [Ty.substitute, substituteList_eq_map]
      exact .arg (List.mem_map_of_mem ht) ih
  | operand _ ih =>
      rw [Ty.substitute]
      exact .operand ih

theorem Occurs.trans {v : Ty} (h : u.Occurs t) (h' : t.Occurs v) : u.Occurs v := by
  induction h' with
  | here => exact h
  | arg ht _ ih => exact .arg ht ih
  | operand _ ih => exact .operand ih

theorem mem_params_substitute_iff :
    n ∈ (t.substitute s).params ↔ ∃ m ∈ t.params, n ∈ ((param m).substitute s).params := by
  constructor
  · exact occurs_param_substitute
  · rintro ⟨m, hm, hn⟩
    exact Occurs.trans hn (hm.substitute s)

theorem params_substitute (t : Ty) (s : Subst) :
    (t.substitute s).params =
      t.params \ s.names ∪ {n | ∃ m ∈ t.params, ∃ u, s m = some u ∧ n ∈ u.params} := by
  ext n
  rw [mem_params_substitute_iff]
  constructor
  · rintro ⟨m, hm, hn⟩
    cases hs : s m with
    | none =>
        simp only [substitute, hs, Option.getD_none, mem_params_param_iff] at hn
        subst hn
        exact Or.inl ⟨hm, by simp [Subst.names, hs]⟩
    | some u =>
        simp only [substitute, hs, Option.getD_some] at hn
        exact Or.inr ⟨m, hm, u, hs, hn⟩
  · rintro (⟨hn, hs⟩ | ⟨m, hm, u, hs, hn⟩)
    · have hs : s n = none := by simpa [Subst.names] using hs
      exact ⟨n, hn, by simp [substitute, hs, mem_params_param_iff]⟩
    · exact ⟨m, hm, by simpa [substitute, hs] using hn⟩

end Ty

/-! ## Members -/

section Members

variable {s r : Subst}

theorem Ty.substitute_without_eq_iff {u : Ty} {own : List String} :
    u.substitute (r.without own) = u.substitute r ↔
      ∀ n ∈ u.params, n ∈ own → (param n).substitute r = param n := by
  rw [substitute_eq_substitute_iff]
  refine forall₂_congr fun n _ => ?_
  by_cases hn : n ∈ own
  · simp [substitute, Subst.without, hn, eq_comm]
  · simp [substitute, Subst.without, hn]

/-- With names set aside, two substitutions compose as long as the second leaves alone such
names in the replacements of the first. -/
theorem Ty.substitute_without_without_iff {t : Ty} {own : List String} :
    (t.substitute (s.without own)).substitute (r.without own) =
        t.substitute ((s.andThen r).without own) ↔
      ∀ k ∈ t.params, k ∉ own → ∀ u, s k = some u →
        ∀ n ∈ u.params, n ∈ own → (param n).substitute r = param n := by
  rw [substitute_substitute, substitute_eq_substitute_iff]
  -- A name set aside stays on both sides, and one that the first substitution leaves alone is
  -- up to the second on both. Only within a replacement can the sides differ.
  refine forall₂_congr fun k _ => ?_
  by_cases hk : k ∈ own
  · simp [substitute, Subst.andThen, Subst.without, hk]
  · cases hs : s k with
    | none => simp [substitute, Subst.andThen, Subst.without, hk, hs]
    | some u =>
        simpa [substitute, Subst.andThen, Subst.without, hk, hs] using substitute_without_eq_iff

theorem Field.substitute_substitute (f : Field) (s r : Subst) :
    (f.substitute s).substitute r = f.substitute (s.andThen r) := by
  simp [Field.substitute, Ty.substitute_substitute]

theorem Variant.substitute_substitute (v : Variant) (s r : Subst) :
    (v.substitute s).substitute r = v.substitute (s.andThen r) := by
  cases hp : v.payload <;>
    simp [Variant.substitute, Payload.map, hp, Ty.substitute_substitute,
      Field.substitute_substitute]

/-- Where the first substitution brings a parameter of the method's own into its types, the
second leaves that name alone. -/
def Method.Spared (m : Method) (s r : Subst) : Prop :=
  ∀ t ∈ m.ret :: m.params, ∀ k ∈ t.params, k ∉ m.generics → ∀ u, s k = some u →
    ∀ n ∈ u.params, n ∈ m.generics → (Ty.param n).substitute r = .param n

theorem Method.substitute_substitute_iff {m : Method} :
    (m.substitute s).substitute r = m.substitute (s.andThen r) ↔ m.Spared s r := by
  simp only [Spared, ← Ty.substitute_without_without_iff, List.forall_mem_cons]
  simp [Method.substitute, and_comm]

theorem Shape.substitute_substitute_iff {shape : Shape} :
    (shape.substitute s).substitute r = shape.substitute (s.andThen r) ↔
      ∀ m ∈ shape.methods, m.Spared s r := by
  simp only [← Method.substitute_substitute_iff]
  cases shape with
  | structType fs => simp [Shape.substitute, Shape.methods, Field.substitute_substitute]
  | classType fs ms => simp [Shape.substitute, Shape.methods, Field.substitute_substitute]
  | enumType underlying vs =>
      simp [Shape.substitute, Shape.methods, Variant.substitute_substitute]

end Members

/-! ## The laws together -/

/-- Substituting twice is substituting once, by the replacements of the first substitution
under the second and otherwise by the second. For a type all of whose parameters are
replaced the replacements are enough, and a type without parameters is unchanged by any
substitution. What is left are the parameters that were not replaced and those of the
replacements. The members of a definition compose like their types, unless the second
substitution has a replacement for a name that the first brings into a method with a
parameter of that name. -/
theorem Ty.substitution_composes (s r : Subst) :
    (∀ t : Ty, (t.substitute s).substitute r = t.substitute (s.andThen r)) ∧
    (∀ t : Ty, t.params ⊆ s.names →
      (t.substitute s).substitute r = t.substitute (s.mapImages r)) ∧
    (∀ t : Ty, t.hasParams = false → t.substitute s = t) ∧
    (∀ t : Ty, (t.substitute s).params =
      t.params \ s.names ∪ {n | ∃ m ∈ t.params, ∃ u, s m = some u ∧ n ∈ u.params}) ∧
    (∀ shape : Shape, (shape.substitute s).substitute r = shape.substitute (s.andThen r) ↔
      ∀ m ∈ shape.methods, m.Spared s r) := by
  refine ⟨fun t => t.substitute_substitute s r,
    fun t ht => substitute_substitute_of_subset ht r, fun t ht => ?_,
    fun t => t.params_substitute s, fun _ => Shape.substitute_substitute_iff⟩
  rw [substitute_eq_self_iff, params_eq_empty_iff.2 ht]
  exact fun n hn => absurd hn (Set.notMem_empty n)

namespace Exchange

def swap : Subst := .ofArgs ["K", "V"] [.param "V", .param "K"]

def fill : Subst := .ofArgs ["K", "V"] [.bool, .array (.param "K")]

def entry : Ty := .optional (.adt 0 "Entry" [.param "K", .array (.param "V")])

theorem params_entry : entry.params = {"K", "V"} := by
  ext n
  simp [entry, Ty.params_wrap, Ty.mem_params_adt_iff, Ty.mem_params_param_iff]

def table : Shape :=
  .classType [⟨"first", entry, ⟨0, 0⟩⟩]
    [⟨"fold", ["A"], [.param "V", .param "A"], .param "A", false, ⟨0, 0⟩⟩]

/-- The replacements go by the names that they replace, and are replaced only by the second
substitution. A replacement that goes by the name of a method's own parameter is out of the
reach of the second. -/
theorem substitution_composes_swap :
    entry.params ⊆ swap.names ∧
    (entry.substitute swap).substitute fill = entry.substitute (swap.mapImages fill) ∧
    entry.substitute (swap.mapImages fill) =
      .optional (.adt 0 "Entry" [.array (.param "K"), .array .bool]) ∧
    (Ty.array .bool).substitute swap = .array .bool ∧
    "K" ∈ (entry.substitute swap).params ∧
    (∀ m ∈ table.methods, m.Spared swap fill) ∧
    ¬ ∀ m ∈ table.methods, m.Spared (.ofArgs ["V"] [.param "A"]) (.ofArgs ["A"] [.bool]) := by
  obtain ⟨-, hall, hclosed, hparams, hshape⟩ := Ty.substitution_composes swap fill
  have hentry : entry.params ⊆ swap.names := by
    rw [params_entry]
    rintro n (rfl | rfl)
    · exact rfl
    · exact rfl
  refine ⟨hentry, hall entry hentry, by decide, hclosed _ rfl, ?_, (hshape table).1 (by decide),
    fun hspared => ?_⟩
  · rw [hparams, params_entry]
    exact Or.inr ⟨"V", by simp, .param "K", rfl, Ty.mem_params_param_iff.2 rfl⟩
  · obtain ⟨-, -, -, -, hshape⟩ :=
      Ty.substitution_composes (.ofArgs ["V"] [.param "A"]) (.ofArgs ["A"] [.bool])
    exact absurd ((hshape table).2 hspared) (by decide)

end Exchange

end ProgramSafety
