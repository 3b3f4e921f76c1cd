import Mathlib.Data.List.Flatten
import Mathlib.Data.List.Nodup
import Mathlib.Data.Set.Card

/-!
# Addresses in trees

An address leads from a tree down to something in it, saying at each step which part to go
to. Two equal subtrees of a tree have different addresses, so statements about occurrences
are statements about addresses. A `Layout` says what the parts of a tree are; bodies and
types are trees of this kind, by themselves and together with what is handed down from a
tree to its parts.

The addresses of a tree are listed once each (`Layout.mem_addresses_iff`,
`Layout.nodup_addresses`), so counting in the list of all subtrees counts occurrences
(`Layout.ncard_occurrences`).
-/

namespace ProgramSafety

/-- Which part to go to, from a tree down to something in it. -/
abbrev Address := List ℕ

/-- A kind of finite trees, given by their immediate parts. -/
structure Layout (α : Type) where
  parts : α → List α
  size : α → ℕ
  size_lt : ∀ {a b : α}, b ∈ parts a → size b < size a

namespace Layout

variable {α β : Type} (l : Layout α)

/-- What holds of a tree as soon as it holds of its parts holds of all. -/
theorem induction {motive : α → Prop} (step : ∀ a, (∀ b ∈ l.parts a, motive b) → motive a)
    (a : α) : motive a := by
  induction hsize : l.size a using Nat.strongRecOn generalizing a with
  | ind k ih =>
      subst hsize
      exact step a fun b hb => ih _ (l.size_lt hb) b rfl

def at? : α → Address → Option α
  | a, [] => some a
  | a, i :: p => (l.parts a)[i]?.bind fun b => at? b p

@[simp] theorem at?_nil (a : α) : l.at? a [] = some a := rfl

theorem at?_cons (a : α) (i : ℕ) (p : Address) :
    l.at? a (i :: p) = (l.parts a)[i]?.bind fun b => l.at? b p := rfl

theorem at?_append (a : α) (p q : Address) :
    l.at? a (p ++ q) = (l.at? a p).bind fun b => l.at? b q := by
  induction p generalizing a with
  | nil => rfl
  | cons i p ih =>
      rw [List.cons_append, at?_cons, at?_cons, Option.bind_assoc]
      exact congrArg _ (funext ih)

theorem at?_concat (a : α) (p : Address) (i : ℕ) :
    l.at? a (p ++ [i]) = (l.at? a p).bind fun b => (l.parts b)[i]? := by
  rw [at?_append]
  exact congrArg _ (funext fun b => Option.bind_fun_some _)

/-- A function that maps the parts of each tree to the parts of its image keeps addresses. -/
theorem at?_map {l : Layout α} {m : Layout β} {f : β → α}
    (hparts : ∀ b, l.parts (f b) = (m.parts b).map f) (b : β) (p : Address) :
    l.at? (f b) p = (m.at? b p).map f := by
  induction p generalizing b with
  | nil => rfl
  | cons i p ih =>
      rw [at?_cons, at?_cons, hparts, List.getElem?_map, Option.bind_map, Option.map_bind]
      exact congrArg _ (funext ih)

/-! ## All addresses -/

/-- The addresses of a tree, those inside of its parts first. -/
def addresses (a : α) : List Address :=
  ((l.parts a).attach.zipIdx.flatMap fun x => (addresses x.1.1).map (x.2 :: ·)) ++ [[]]
termination_by l.size a
decreasing_by exact l.size_lt x.1.2

theorem addresses_eq (a : α) :
    l.addresses a =
      ((l.parts a).zipIdx.flatMap fun x => (l.addresses x.1).map (x.2 :: ·)) ++ [[]] := by
  rw [addresses]
  conv_rhs => rw [← List.attach_map_subtype_val (l.parts a), List.zipIdx_map, List.flatMap_map]
  rfl

theorem mem_addresses_iff {a : α} {p : Address} : p ∈ l.addresses a ↔ l.at? a p ≠ none := by
  induction p generalizing a with
  | nil =>
      rw [addresses_eq]
      simp
  | cons i p ih =>
      rw [addresses_eq, List.mem_append, List.mem_flatMap, at?_cons]
      cases hpart : (l.parts a)[i]? with
      | none =>
          simp only [Option.bind_none, ne_eq, not_true_eq_false, iff_false]
          rintro (⟨⟨b, j⟩, hb, hp⟩ | hp)
          · obtain ⟨q, -, hq⟩ := List.mem_map.1 hp
            obtain ⟨rfl, -⟩ := List.cons.inj hq
            rw [List.mem_zipIdx_iff_getElem?, hpart] at hb
            cases hb
          · cases List.mem_singleton.1 hp
      | some b =>
          rw [Option.bind_some, ← ih]
          constructor
          · rintro (⟨⟨b', j⟩, hb, hp⟩ | hp)
            · obtain ⟨q, hmem, hq⟩ := List.mem_map.1 hp
              obtain ⟨rfl, rfl⟩ := List.cons.inj hq
              rw [List.mem_zipIdx_iff_getElem?, hpart] at hb
              exact Option.some.inj hb ▸ hmem
            · cases List.mem_singleton.1 hp
          · intro hmem
            exact Or.inl ⟨(b, i), List.mem_zipIdx_iff_getElem?.2 hpart,
              List.mem_map.2 ⟨p, hmem, rfl⟩⟩

theorem nodup_addresses (a : α) : (l.addresses a).Nodup := by
  induction a using l.induction with
  | step a ih =>
      have hindices : (l.parts a).zipIdx.Pairwise fun x y => x.2 ≠ y.2 := by
        rw [← List.pairwise_map (f := Prod.snd), List.zipIdx_map_snd]
        exact List.nodup_range'
      have hparts : ((l.parts a).zipIdx.flatMap fun x =>
          (l.addresses x.1).map (x.2 :: ·)).Nodup := by
        refine List.nodup_flatMap.2 ⟨?_, hindices.imp ?_⟩
        · intro x hx
          exact (ih x.1 (List.fst_mem_of_mem_zipIdx hx)).map (List.cons_injective)
        · intro x y hne p hx hy
          obtain ⟨q, -, rfl⟩ := List.mem_map.1 hx
          obtain ⟨q', -, heq⟩ := List.mem_map.1 hy
          exact hne (List.cons.inj heq).1.symm
      rw [addresses_eq]
      refine List.nodup_append.2 ⟨hparts, List.nodup_singleton _, ?_⟩
      rintro p hp q hq rfl
      rw [List.mem_singleton.1 hq] at hp
      obtain ⟨x, -, hx⟩ := List.mem_flatMap.1 hp
      simp at hx

/-! ## All subtrees -/

def subtrees (a : α) : List α := (l.addresses a).filterMap (l.at? a)

theorem subtrees_eq (a : α) : l.subtrees a = (l.parts a).flatMap l.subtrees ++ [a] := by
  have hpart : ∀ x ∈ (l.parts a).zipIdx,
      ((l.addresses x.1).map (x.2 :: ·)).filterMap (l.at? a) = l.subtrees x.1 := by
    intro x hx
    rw [List.filterMap_map, subtrees]
    congr 1
    funext p
    rw [Function.comp_apply, at?_cons, List.mem_zipIdx_iff_getElem?.1 hx, Option.bind_some]
  rw [subtrees, addresses_eq, List.filterMap_append, List.filterMap_flatMap,
    List.flatMap_congr hpart, ← List.flatMap_map Prod.fst, List.zipIdx_map_fst]
  rfl

theorem filterMap_subtrees (a : α) (g : α → Option β) :
    (l.subtrees a).filterMap g =
      ((l.parts a).flatMap fun b => (l.subtrees b).filterMap g) ++ (g a).toList := by
  rw [subtrees_eq, List.filterMap_append, List.filterMap_flatMap,
    List.filterMap_eq_flatMap_toList g [a], List.flatMap_singleton]

/-- What the subtrees of a tree give is found by going through the addresses. -/
theorem filterMap_subtrees_eq_addresses (a : α) (g : α → Option β) :
    (l.subtrees a).filterMap g = (l.addresses a).filterMap fun p => (l.at? a p).bind g := by
  rw [subtrees, List.filterMap_filterMap]

theorem mem_filterMap_subtrees_iff {a : α} {g : α → Option β} {b : β} :
    b ∈ (l.subtrees a).filterMap g ↔ ∃ p, (l.at? a p).bind g = some b := by
  rw [filterMap_subtrees_eq_addresses, List.mem_filterMap]
  constructor
  · rintro ⟨p, -, hp⟩
    exact ⟨p, hp⟩
  · rintro ⟨p, hp⟩
    refine ⟨p, l.mem_addresses_iff.2 ?_, hp⟩
    intro hnone
    rw [hnone] at hp
    cases hp

/-- The occurrences that give something of some kind are as many as the list of all that the
subtrees give has of it. -/
theorem ncard_occurrences (a : α) (g : α → Option β) (f : β → Bool) :
    {p | ∃ b, (l.at? a p).bind g = some b ∧ f b = true}.ncard =
      ((l.subtrees a).filterMap g).countP f := by
  have hset : {p | ∃ b, (l.at? a p).bind g = some b ∧ f b = true} =
      (((l.addresses a).filter fun p =>
        (((l.at? a p).bind g).map f).getD false).toFinset : Set Address) := by
    ext p
    rw [Set.mem_ofPred_eq, List.coe_toFinset, Set.mem_ofPred_eq, List.mem_filter, mem_addresses_iff]
    cases l.at? a p with
    | none => simp
    | some x => cases hx : g x <;> simp [hx]
  rw [hset, Set.ncard_coe_finset, List.toFinset_card_of_nodup ((l.nodup_addresses a).filter _),
    filterMap_subtrees_eq_addresses, List.countP_filterMap, List.countP_eq_length_filter]

end Layout

end ProgramSafety
