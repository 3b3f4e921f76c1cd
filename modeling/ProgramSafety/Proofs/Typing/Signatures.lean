import ProgramSafety.Proofs.Typing.Shadowing
import ProgramSafety.Typing.Signature

/-!
# Tables of signatures

A table of signatures keeps what it has: a function that is added is found unless there
was one of its name before (`Signatures.get?_add`). After some functions are added, the
names that are found are the old ones and those of the functions
(`Signatures.get?_addAll_eq_none_iff`), and if nothing is reported, every function is found
with its own signature (`Signatures.get?_addAll_of_silent`).
-/

namespace ProgramSafety

def Program.functionKeys (p : Program) : List (Namespace × String) :=
  p.functions.map fun x => (x.1, x.2.name.name)

namespace Signatures

variable {s : Signatures} {r : Registry} {f : FunctionEntry} {fs : List FunctionEntry}
  {space : Namespace} {name : String}

def keys (s : Signatures) : List (Namespace × String) := s.functions.map fun f => (f.space, f.name)

theorem get?_eq_none_iff : s.get? space name = none ↔ (space, name) ∉ s.keys := by
  rw [get?, Option.map_eq_none_iff, List.find?_eq_none, keys, List.mem_map]
  constructor
  · rintro hnone ⟨f, hf, hkey⟩
    obtain ⟨rfl, rfl⟩ := Prod.mk.inj hkey
    exact hnone f hf (by simp)
  · intro hnone f hf hsame
    obtain ⟨rfl, rfl⟩ : f.space = space ∧ f.name = name := by simpa using hsame
    exact hnone ⟨f, hf, rfl⟩

theorem find?_insert_of_neg {p : FunctionEntry → Bool} (hf : p f = false) :
    (insert f fs).find? p = fs.find? p := by
  induction fs with
  | nil => rw [insert, List.find?_cons_of_neg (by simp [hf])]
  | cons g gs ih =>
      rw [insert]
      split
      · rw [List.find?_cons_of_neg (by simp [hf])]
      · rw [List.find?_cons, List.find?_cons, ih]

theorem find?_insert_of_pos {p : FunctionEntry → Bool} (hf : p f = true)
    (hfs : fs.find? p = none) : (insert f fs).find? p = some f := by
  induction fs with
  | nil => rw [insert, List.find?_cons_of_pos hf]
  | cons g gs ih =>
      rw [insert]
      split
      · rw [List.find?_cons_of_pos hf]
      · have hg : p g = false := by simpa using List.find?_eq_none.1 hfs g List.mem_cons_self
        rw [List.find?_cons_of_neg (by simp [hg])] at hfs ⊢
        exact ih hfs

/-- Adding a function changes what is found under its own name, if nothing was. -/
theorem get?_add (s : Signatures) (r : Registry) (home space : Namespace) (f : FunctionDecl)
    (name : String) :
    (s.add r home f).1.get? space name =
      (s.get? space name).or
        (if space = home ∧ name = f.name.name then some (signature r home f) else none) := by
  unfold add
  split
  next previous hprevious =>
    by_cases hkey : space = home ∧ name = f.name.name
    · obtain ⟨rfl, rfl⟩ := hkey
      rw [hprevious]
      rfl
    · rw [if_neg hkey, Option.or_none]
  next hnone =>
    by_cases hkey : space = home ∧ name = f.name.name
    · obtain ⟨rfl, rfl⟩ := hkey
      rw [hnone, if_pos ⟨rfl, rfl⟩, get?, find?_insert_of_pos (by simp) (by simpa [get?] using hnone)]
      rfl
    · rw [if_neg hkey, Option.or_none, get?, find?_insert_of_neg]
      · rfl
      · rw [Bool.and_eq_false_iff, beq_eq_false_iff_ne, beq_eq_false_iff_ne]
        by_contra hsame
        rw [not_or, not_not, not_not] at hsame
        exact hkey ⟨hsame.1.symm, hsame.2.symm⟩

variable {g : Signature} {ds : List (Namespace × FunctionDecl)}

theorem get?_add_of_some (h : s.get? space name = some g) (home : Namespace) (f : FunctionDecl) :
    (s.add r home f).1.get? space name = some g := by
  rw [get?_add, h, Option.some_or]

theorem addAll_cons (s : Signatures) (r : Registry) (d : Namespace × FunctionDecl)
    (ds : List (Namespace × FunctionDecl)) :
    s.addAll r (d :: ds) =
      (((s.add r d.1 d.2).1.addAll r ds).1,
        (s.add r d.1 d.2).2 ++ ((s.add r d.1 d.2).1.addAll r ds).2) := rfl

theorem get?_addAll_of_some (h : s.get? space name = some g)
    (ds : List (Namespace × FunctionDecl)) : (s.addAll r ds).1.get? space name = some g := by
  induction ds generalizing s with
  | nil => exact h
  | cons d ds ih => exact ih (get?_add_of_some h d.1 d.2)

theorem get?_addAll_eq_none_iff :
    (s.addAll r ds).1.get? space name = none ↔
      (space, name) ∉ s.keys ∧ (space, name) ∉ ds.map fun x => (x.1, x.2.name.name) := by
  induction ds generalizing s with
  | nil => simp [addAll, get?_eq_none_iff]
  | cons d ds ih =>
      have hadd : (space, name) ∉ (s.add r d.1 d.2).1.keys ↔
          (space, name) ∉ s.keys ∧ (space, name) ≠ (d.1, d.2.name.name) := by
        rw [← get?_eq_none_iff, get?_add, Option.or_eq_none_iff, get?_eq_none_iff, ne_eq,
          Prod.mk.injEq]
        split
        next hkey => simp [hkey]
        next hkey => simp [hkey]
      have hrest := ih (s := (s.add r d.1 d.2).1)
      rw [hadd] at hrest
      rw [List.map_cons, List.mem_cons, not_or, ← and_assoc]
      exact hrest

/-- If nothing is reported, every function is found with its own signature, and its
written types resolve. -/
theorem get?_addAll_of_silent (hsilent : (s.addAll r ds).2 = []) {x : Namespace × FunctionDecl}
    (hx : x ∈ ds) :
    (s.addAll r ds).1.get? x.1 x.2.name.name = some (signature r x.1 x.2) ∧
      r.signatureProblems ⟨x.1, x.2.generics⟩ x.2 = [] := by
  induction ds generalizing s with
  | nil => cases hx
  | cons d ds ih =>
      rw [addAll_cons] at hsilent ⊢
      obtain ⟨hhead, htail⟩ := List.append_eq_nil_iff.1 hsilent
      rcases List.mem_cons.1 hx with rfl | hx
      · have hnone : s.get? x.1 x.2.name.name = none := by
          cases hget : s.get? x.1 x.2.name.name with
          | none => rfl
          | some previous => simp [add, hget] at hhead
        have hself : (s.add r x.1 x.2).1.get? x.1 x.2.name.name = some (signature r x.1 x.2) := by
          rw [get?_add, hnone, if_pos ⟨rfl, rfl⟩, Option.none_or]
        have hproblems : (s.add r x.1 x.2).2 = r.signatureProblems ⟨x.1, x.2.generics⟩ x.2 := by
          rw [add, hnone]
        exact ⟨get?_addAll_of_some hself ds, hproblems ▸ hhead⟩
      · exact ih htail hx

/-- What a name stands for as functions are added. -/
theorem widens_addAll (s : Signatures) (r : Registry) (ds : List (Namespace × FunctionDecl))
    (name : String) :
    Widens s.keys (ds.map fun x => (x.1, x.2.name.name)) name (s.get? · name)
      ((s.addAll r ds).1.get? · name) where
  keeps h := get?_addAll_of_some h ds
  before _ := get?_eq_none_iff
  after _ := get?_addAll_eq_none_iff

end Signatures

end ProgramSafety
