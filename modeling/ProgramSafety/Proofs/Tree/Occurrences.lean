import ProgramSafety.Proofs.Tree.Address
import ProgramSafety.Proofs.Tree.Regions

/-!
# Occurrences in a body

A body is a tree of fragments, and a fragment may occur in it more than once. The tour leaves
each occurrence once, in the order of the addresses (`Fragment.filterMap_left_visits`), in a
setting that depends on the way down to it. `Region.OpenedAlong` says of an address alone that
it goes through a region, and the setting is marked exactly if it does
(`Fragment.mark_iff_openedAlong`). In contrast to `Block.DistinctIds.mark_iff` this asks
nothing of the ids.
-/

namespace ProgramSafety

namespace Fragment

noncomputable def layout : Layout Fragment := ⟨inside, size, size_lt_of_mem_inside⟩

/-- The tree of a fragment with the settings that the tour hands down to the parts. -/
noncomputable def placed : Layout (Setting × Fragment) where
  parts x := x.2.parts x.1
  size x := x.2.size
  size_lt := size_lt_of_mem_parts

theorem layout_at?_eq (here : Setting) (n : Fragment) (p : Address) :
    layout.at? n p = (placed.at? (here, n) p).map Prod.snd :=
  Layout.at?_map (f := Prod.snd) (fun x => (map_snd_parts x.1 x.2).symm) (here, n) p

end Fragment

def Visit.left? (v : Visit) : Option (Setting × Fragment) :=
  v.event.leftFragment?.map (v.setting, ·)

/-- The tour leaves every occurrence of a fragment once. -/
theorem Fragment.filterMap_left_visits (here : Setting) (n : Fragment) :
    (n.visits (fun _ => true) here).filterMap Visit.left? = placed.subtrees (here, n) := by
  induction n using Fragment.induction generalizing here with
  | step n ih =>
      have hparts : (n.parts here).flatMap
          (fun p => (p.2.visits (fun _ => true) p.1).filterMap Visit.left?) =
            (n.parts here).flatMap placed.subtrees :=
        List.flatMap_congr fun p hp => ih here p hp p.1
      rw [visits_eq, toured_all, Layout.subtrees_eq, List.filterMap_append, List.filterMap_cons,
        List.filterMap_flatMap, hparts]
      simp [Visit.left?, placed]

/-! ## Regions along an address -/

/-- On the way down to the address some statement is met, and its block is entered, that opens
a region. -/
def Region.OpenedAlong (region : Region) (n : Fragment) (p : Address) : Prop :=
  ∃ q i s b, q ++ [i] <+: p ∧ Fragment.layout.at? n q = some (.stmt s) ∧
    region.opened? s = some b ∧ Fragment.layout.at? n (q ++ [i]) = some (.block .plain b)

namespace Fragment

variable {region : Region} {n m : Fragment} {p : Address} {i : ℕ} {here setting : Setting}

theorem not_openedAlong_nil : ¬ region.OpenedAlong n [] := by
  rintro ⟨q, i, -, -, hle, -⟩
  simp at hle

/-- A region is opened right here or further down. -/
theorem openedAlong_cons_iff (hm : n.inside[i]? = some m) :
    region.OpenedAlong n (i :: p) ↔
      (∃ s b, n = .stmt s ∧ region.opened? s = some b ∧ m = .block .plain b) ∨
        region.OpenedAlong m p := by
  have hat : ∀ q, layout.at? n (i :: q) = layout.at? m q := by
    intro q
    rw [Layout.at?_cons]
    change (n.inside[i]?.bind _) = _
    rw [hm, Option.bind_some]
  constructor
  · rintro ⟨q, j, s, b, hle, hs, hopen, hb⟩
    cases q with
    | nil =>
        obtain ⟨rfl, -⟩ := List.cons_prefix_cons.1 hle
        refine Or.inl ⟨s, b, Option.some.inj hs, hopen, ?_⟩
        have hblock := hat [] ▸ hb
        exact Option.some.inj hblock
    | cons k q =>
        obtain ⟨rfl, hrest⟩ := List.cons_prefix_cons.1 hle
        exact Or.inr ⟨q, j, s, b, hrest, hat q ▸ hs, hopen, hat (q ++ [j]) ▸ hb⟩
  · rintro (⟨s, b, rfl, hopen, rfl⟩ | ⟨q, j, s, b, hle, hs, hopen, hb⟩)
    · exact ⟨[], i, s, b, by simp, rfl, hopen, hat []⟩
    · exact ⟨i :: q, j, s, b, List.cons_prefix_cons.2 ⟨rfl, hle⟩, (hat q).trans hs, hopen,
        (hat (q ++ [j])).trans hb⟩

/-- An occurrence is visited in a marked setting if the tour begins in one or goes through a
region on its way. -/
theorem mark_iff_openedAlong (region : Region)
    (hp : placed.at? (here, n) p = some (setting, m)) :
    region.mark setting = true ↔ region.mark here = true ∨ region.OpenedAlong n p := by
  induction p generalizing here n with
  | nil =>
      obtain ⟨rfl, -⟩ := Prod.mk.inj (Option.some.inj hp)
      simp [not_openedAlong_nil]
  | cons i p ih =>
      obtain ⟨x, hx, hp⟩ := Option.bind_eq_some_iff.1 hp
      have hpart : x ∈ n.parts here := List.mem_of_getElem? hx
      have hinside : n.inside[i]? = some x.2 := by
        rw [← map_snd_parts here, List.getElem?_map]
        exact congrArg _ hx
      rw [ih hp, region.mark_parts hpart, openedAlong_cons_iff hinside, or_assoc]

end Fragment

namespace Block

noncomputable def at? (b : Block) (p : Address) : Option Fragment :=
  Fragment.layout.at? (.block .body b) p

end Block

end ProgramSafety
