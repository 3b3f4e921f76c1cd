import Mathlib.Data.List.Perm.Basic
import ProgramSafety.Ownership.Lifetime

/-!
# Forests of scopes

The bindings of a body and the scopes they stand in form a forest. Bindings are
numbered in the order of their declaration, and a scope releases its own bindings at
its end, the last one first, after everything that its inner scopes release
(`ScopeForest.released`). Every binding inside a scope is released exactly once
(`ScopeForest.released_perm`).
-/

namespace ProgramSafety

/-- A name and the type it is declared with. The type of a caught failure is not
known. -/
structure Declaration where
  name : Ident
  type : Option Ty
deriving DecidableEq

def Declaration.paths (r : Registry) (d : Declaration) : List FieldPath :=
  match d.type with
  | none => [[]]
  | some t =>
    match r.kindOf t with
    | .sharedRef => [[]]
    | .value => r.countedPaths t
    | .weakRef | .rawPointer => []

/-- A binding, by declaration and number, together with the end of its scope. -/
structure Release where
  declaration : Declaration
  decl : ℕ
  scopeEnd : Span

/-- Bindings and scopes, from first to last. -/
inductive ScopeForest where
  | nil
  | binding (d : Declaration) (rest : ScopeForest)
  | scope (scopeEnd : Span) (inner rest : ScopeForest)

namespace ScopeForest

def append : ScopeForest → ScopeForest → ScopeForest
  | nil, g => g
  | binding d rest, g => binding d (rest.append g)
  | scope scopeEnd inner rest, g => scope scopeEnd inner (rest.append g)

instance : Append ScopeForest := ⟨append⟩

def ofDeclarations (ds : List Declaration) : ScopeForest := ds.foldr binding nil

def concat (fs : List ScopeForest) : ScopeForest := fs.foldr append nil

def declarations : ScopeForest → List Declaration
  | nil => []
  | binding d rest => d :: rest.declarations
  | scope _ inner rest => inner.declarations ++ rest.declarations

/-- The bindings outside the scopes of the forest, when the bindings of the forest
are numbered from `n` on. -/
def own : ScopeForest → ℕ → List (Declaration × ℕ)
  | nil, _ => []
  | binding d rest, n => (d, n) :: rest.own (n + 1)
  | scope _ inner rest, n => rest.own (n + inner.declarations.length)

/-- The bindings inside the scopes of the forest in the order of their release. -/
def released : ScopeForest → ℕ → List Release
  | nil, _ => []
  | binding _ rest, n => rest.released (n + 1)
  | scope scopeEnd inner rest, n =>
    inner.released n ++ (inner.own n).reverse.map (fun b => ⟨b.1, b.2, scopeEnd⟩) ++
      rest.released (n + inner.declarations.length)

variable (f g : ScopeForest) (n : ℕ)

theorem binding_append (d : Declaration) : binding d f ++ g = binding d (f ++ g) := rfl

theorem scope_append (scopeEnd : Span) (inner : ScopeForest) :
    scope scopeEnd inner f ++ g = scope scopeEnd inner (f ++ g) := rfl

theorem append_nil : f ++ nil = f := by
  induction f with
  | nil => rfl
  | binding d rest ih => rw [binding_append, ih]
  | scope scopeEnd inner rest _ ih => rw [scope_append, ih]

theorem declarations_append : (f ++ g).declarations = f.declarations ++ g.declarations := by
  induction f with
  | nil => rfl
  | binding d rest ih => rw [binding_append, declarations, ih, declarations, List.cons_append]
  | scope scopeEnd inner rest _ ih =>
      rw [scope_append, declarations, ih, declarations, List.append_assoc]

theorem own_append : (f ++ g).own n = f.own n ++ g.own (n + f.declarations.length) := by
  induction f generalizing n with
  | nil => rfl
  | binding d rest ih =>
      have hnext : n + 1 + rest.declarations.length =
          n + (binding d rest).declarations.length := by
        rw [declarations, List.length_cons]
        omega
      rw [binding_append, own, own, ih, hnext, List.cons_append]
  | scope scopeEnd inner rest _ ih =>
      rw [scope_append, own, own, ih, declarations, List.length_append, Nat.add_assoc]

theorem own_concat {fs : List ScopeForest} (hfs : ∀ f ∈ fs, ∀ n, f.own n = []) (n : ℕ) :
    (concat fs).own n = [] := by
  induction fs generalizing n with
  | nil => rfl
  | cons f fs ih =>
      have hf := hfs f List.mem_cons_self n
      have hrest := ih (fun g hg => hfs g (List.mem_cons_of_mem _ hg)) (n + f.declarations.length)
      exact (own_append f (concat fs) n).trans (by rw [hf, hrest]; rfl)

theorem released_append :
    (f ++ g).released n = f.released n ++ g.released (n + f.declarations.length) := by
  induction f generalizing n with
  | nil => rfl
  | binding d rest ih =>
      have hnext : n + 1 + rest.declarations.length =
          n + (binding d rest).declarations.length := by
        rw [declarations, List.length_cons]
        omega
      rw [binding_append, released, released, ih, hnext]
  | scope scopeEnd inner rest _ ih =>
      rw [scope_append, released, released, ih, declarations, List.length_append, Nat.add_assoc,
        ← List.append_assoc]

/-- Every binding of the forest is released by a scope of the forest once, or lies
outside of them. -/
theorem released_perm :
    ((f.released n).map (fun x => (x.declaration, x.decl)) ++ f.own n).Perm
      (f.declarations.zipIdx n) := by
  induction f generalizing n with
  | nil => exact List.Perm.refl _
  | binding d rest ih => exact List.perm_middle.trans ((ih (n + 1)).cons (d, n))
  | scope scopeEnd inner rest ihinner ihrest =>
      have hown : ((inner.own n).reverse.map fun b => (⟨b.1, b.2, scopeEnd⟩ : Release)).map
          (fun x => (x.declaration, x.decl)) = (inner.own n).reverse := by
        simp [Function.comp_def]
      rw [released, own, declarations, List.zipIdx_append, List.map_append, List.map_append, hown,
        List.append_assoc]
      have hinner := ((inner.own n).reverse_perm.append_left _).trans (ihinner n)
      exact hinner.append (ihrest _)

theorem nodup_decl_released : ((f.released n).map Release.decl).Nodup := by
  have hperm := (f.released_perm n).map Prod.snd
  rw [List.map_append, List.map_map, List.zipIdx_map_snd] at hperm
  have hnodup := hperm.nodup_iff.2 List.nodup_range'
  exact (List.nodup_append.1 hnodup).1

end ScopeForest

end ProgramSafety
