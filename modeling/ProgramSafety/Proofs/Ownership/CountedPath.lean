import Mathlib.Computability.Primrec.List
import Mathlib.Data.List.Nodup
import Mathlib.Data.List.Permutation
import ProgramSafety.Ownership.CountedPath
import ProgramSafety.Typing.Declare

/-!
# What the search for counted paths finds

`r.Holds t` is the least notion of holding a counted reference, and
`r.CountedPath t p` says that the fields `p` lead from `t` to a counted reference
or to an inline value that holds one. Both look at types and not at definitions,
so they are not disturbed by a definition that occurs inside one of its own
instances.

The search enters every definition at most once on the way down. To compare the
two, `HoldsVia` and `PathVia` record the definitions that are entered, outermost
first: a path is found exactly when it can be followed without entering a
definition twice (`Registry.mem_countedPaths_iff`). Paths that need the same
definition twice exist, and are lost.
-/

namespace ProgramSafety

namespace Registry

def structFieldsOf? (r : Registry) : Ty → Option (List (String × Ty))
  | .adt id _ args => (r.get? id).bind (·.structFields? args)
  | _ => none

/-- Values of the type hold a counted reference, directly or inside an optional, a
payload or a field that they hold inline. -/
inductive Holds (r : Registry) : Ty → Prop where
  | shared {t : Ty} (hk : r.kindOf t = .sharedRef) : Holds r t
  | optional {t : Ty} (hk : r.kindOf t = .value) (ht : Holds r t) : Holds r (.optional t)
  | held {id : ℕ} {name : String} {args : List Ty} {d : TypeDef} {u : Ty}
      (hk : r.kindOfDef id = .value) (hd : r.get? id = some d) (hu : u ∈ d.heldTypes args)
      (ht : Holds r u) : Holds r (.adt id name args)

/-- The path leads through struct fields to a counted reference, or to an inline
value other than a struct that holds one. -/
inductive CountedPath (r : Registry) : Ty → FieldPath → Prop where
  | shared {t : Ty} (hk : r.kindOf t = .sharedRef) : CountedPath r t []
  | whole {t : Ty} (hk : r.kindOf t = .value) (hs : r.structFieldsOf? t = none)
      (ht : r.Holds t) : CountedPath r t []
  | field {t u : Ty} {fields : List (String × Ty)} {name : String} {p : FieldPath}
      (hs : r.structFieldsOf? t = some fields) (hu : (name, u) ∈ fields)
      (hp : CountedPath r u p) : CountedPath r t (name :: p)

/-- `Holds`, with the definitions entered on the way. -/
inductive HoldsVia (r : Registry) : Ty → List ℕ → Prop where
  | shared {t : Ty} (hk : r.kindOf t = .sharedRef) : HoldsVia r t []
  | optional {t : Ty} {ids : List ℕ} (hk : r.kindOf t = .value) (ht : HoldsVia r t ids) :
      HoldsVia r (.optional t) ids
  | held {id : ℕ} {name : String} {args : List Ty} {d : TypeDef} {u : Ty} {ids : List ℕ}
      (hk : r.kindOfDef id = .value) (hd : r.get? id = some d) (hu : u ∈ d.heldTypes args)
      (ht : HoldsVia r u ids) : HoldsVia r (.adt id name args) (id :: ids)

inductive PathVia (r : Registry) : Ty → FieldPath → List ℕ → Prop where
  | shared {t : Ty} (hk : r.kindOf t = .sharedRef) : PathVia r t [] []
  | whole {t : Ty} {ids : List ℕ} (hk : r.kindOf t = .value) (hs : r.structFieldsOf? t = none)
      (ht : r.HoldsVia t ids) : PathVia r t [] ids
  | field {id : ℕ} {tname : String} {args : List Ty} {u : Ty} {fields : List (String × Ty)}
      {name : String} {p : FieldPath} {ids : List ℕ}
      (hs : r.structFieldsOf? (.adt id tname args) = some fields) (hu : (name, u) ∈ fields)
      (hp : PathVia r u p ids) : PathVia r (.adt id tname args) (name :: p) (id :: ids)

variable {r : Registry} {t u : Ty} {p : FieldPath} {id : ℕ} {ids unseen : List ℕ}

theorem holds_iff_exists_holdsVia : r.Holds t ↔ ∃ ids, r.HoldsVia t ids := by
  constructor
  · intro h
    induction h with
    | shared hk => exact ⟨[], .shared hk⟩
    | optional hk ht ih =>
        obtain ⟨ids, hids⟩ := ih
        exact ⟨ids, .optional hk hids⟩
    | held hk hd hu ht ih =>
        obtain ⟨ids, hids⟩ := ih
        exact ⟨_, .held hk hd hu hids⟩
  · rintro ⟨ids, h⟩
    induction h with
    | shared hk => exact .shared hk
    | optional hk ht ih => exact .optional hk ih
    | held hk hd hu ht ih => exact .held hk hd hu ih

/-! ## Entering definitions once -/

/-- The definitions can be entered one after another, none of them twice. -/
def Enterable (unseen ids : List ℕ) : Prop := ids.Nodup ∧ ∀ i ∈ ids, i ∈ unseen

theorem enterable_nil : Enterable unseen [] := ⟨List.nodup_nil, by simp⟩

theorem enterable_cons (hunseen : unseen.Nodup) :
    Enterable unseen (id :: ids) ↔ id ∈ unseen ∧ Enterable (unseen.erase id) ids := by
  constructor
  · rintro ⟨hnodup, hmem⟩
    obtain ⟨hid, hids⟩ := List.nodup_cons.1 hnodup
    refine ⟨hmem id (by simp), hids, fun i hi => ?_⟩
    have hne : i ≠ id := by
      rintro rfl
      exact hid hi
    exact (List.mem_erase_of_ne hne).2 (hmem i (by simp [hi]))
  · rintro ⟨hid, hids, hmem⟩
    have hnot : id ∉ ids := fun hi =>
      ((List.Nodup.mem_erase_iff hunseen).1 (hmem id hi)).1 rfl
    refine ⟨List.nodup_cons.2 ⟨hnot, hids⟩, fun i hi => ?_⟩
    rcases List.mem_cons.1 hi with rfl | hi
    · exact hid
    · exact List.mem_of_mem_erase (hmem i hi)

/-! ## The search -/

theorem kindOf_optional (t : Ty) : r.kindOf (.optional t) = r.kindOf t := rfl

theorem kindOf_adt (id : ℕ) (name : String) (args : List Ty) :
    r.kindOf (.adt id name args) = r.kindOfDef id := rfl

theorem HoldsVia.kindOf (h : r.HoldsVia t ids) :
    r.kindOf t = .sharedRef ∨ r.kindOf t = .value := by
  cases h with
  | shared hk => exact Or.inl hk
  | optional hk => exact Or.inr hk
  | held hk => exact Or.inr hk

theorem holdsVia_optional_iff (hk : r.kindOf t = .value) :
    r.HoldsVia (.optional t) ids ↔ r.HoldsVia t ids := by
  constructor
  · intro h
    cases h with
    | shared hk' => rw [kindOf_optional, hk] at hk'; cases hk'
    | optional _ ht => exact ht
  · exact .optional hk

theorem holdsVia_adt_iff {name : String} {args : List Ty} (hk : r.kindOfDef id = .value) :
    r.HoldsVia (.adt id name args) ids ↔
      ∃ d u ids', r.get? id = some d ∧ u ∈ d.heldTypes args ∧ r.HoldsVia u ids' ∧
        ids = id :: ids' := by
  constructor
  · intro h
    cases h with
    | shared hk' => rw [kindOf_adt, hk] at hk'; cases hk'
    | held _ hd hu ht => exact ⟨_, _, _, hd, hu, ht, rfl⟩
  · rintro ⟨d, u, ids', hd, hu, ht, rfl⟩
    exact .held hk hd hu ht

theorem holdsCounted_iff (hunseen : unseen.Nodup) :
    r.holdsCounted unseen t = true ↔ ∃ ids, r.HoldsVia t ids ∧ Enterable unseen ids := by
  fun_induction r.holdsCounted unseen t with
  | case1 unseen t hk => simpa using ⟨[], .shared hk, enterable_nil⟩
  | case2 unseen t hk =>
      simp only [Bool.false_eq_true, false_iff, not_exists, not_and]
      intro ids h
      rcases h.kindOf with hk' | hk' <;> rw [hk] at hk' <;> cases hk'
  | case3 unseen t hk =>
      simp only [Bool.false_eq_true, false_iff, not_exists, not_and]
      intro ids h
      rcases h.kindOf with hk' | hk' <;> rw [hk] at hk' <;> cases hk'
  | case4 unseen u hk ih =>
      rw [kindOf_optional] at hk
      simp only [ih hunseen, holdsVia_optional_iff hk]
  | case5 unseen id name args hid d hd hk ih =>
      rw [kindOf_adt] at hk
      rw [List.any_eq_true]
      constructor
      · rintro ⟨u, hu, hc⟩
        obtain ⟨ids, ht, hids⟩ := (ih u (hunseen.erase id)).1 hc
        exact ⟨id :: ids, .held hk hd hu ht, (enterable_cons hunseen).2 ⟨hid, hids⟩⟩
      · rintro ⟨ids, h, hids⟩
        obtain ⟨d', u, ids', hd', hu, ht, rfl⟩ := (holdsVia_adt_iff hk).1 h
        obtain rfl : d = d' := Option.some.inj (hd.symm.trans hd')
        exact ⟨u, hu, (ih u (hunseen.erase id)).2 ⟨ids', ht, ((enterable_cons hunseen).1 hids).2⟩⟩
  | case6 unseen id name args hid hd hk =>
      simp only [Bool.false_eq_true, false_iff, not_exists, not_and]
      intro ids h
      obtain ⟨d, u, ids', hd', -⟩ := (holdsVia_adt_iff hk).1 h
      rw [hd] at hd'
      cases hd'
  | case7 unseen id name args hid hk =>
      simp only [Bool.false_eq_true, false_iff, not_exists, not_and]
      intro ids h hids
      obtain ⟨d, u, ids', hd', hu, ht, rfl⟩ := (holdsVia_adt_iff hk).1 h
      exact hid ((enterable_cons hunseen).1 hids).1
  | case8 unseen t hk hopt hadt =>
      simp only [Bool.false_eq_true, false_iff, not_exists, not_and]
      intro ids h
      cases h with
      | shared hk' => rw [hk] at hk'; cases hk'
      | optional => exact absurd rfl (hopt _)
      | held => exact absurd rfl (hadt _ _ _)

theorem mem_wholePath_iff :
    p ∈ r.wholePath unseen t ↔ p = [] ∧ r.holdsCounted unseen t = true := by
  unfold wholePath
  split
  · next hc => simp [hc]
  · next hc => simp [hc]

theorem kindOf_of_structFieldsOf? {fields : List (String × Ty)}
    (hs : r.structFieldsOf? t = some fields) : r.kindOf t = .value := by
  cases t with
  | adt id name args =>
      obtain ⟨d, hd, hfields⟩ := Option.bind_eq_some_iff.1 hs
      unfold TypeDef.structFields? at hfields
      split at hfields
      · next hshape => simp [kindOf_adt, kindOfDef, hd, hshape, Shape.kind]
      · cases hfields
  | _ => cases hs

theorem PathVia.kindOf (h : r.PathVia t p ids) :
    r.kindOf t = .sharedRef ∨ r.kindOf t = .value := by
  cases h with
  | shared hk => exact Or.inl hk
  | whole hk => exact Or.inr hk
  | field hs => exact Or.inr (kindOf_of_structFieldsOf? hs)

theorem pathVia_shared_iff (hk : r.kindOf t = .sharedRef) :
    r.PathVia t p ids ↔ p = [] ∧ ids = [] := by
  constructor
  · intro h
    cases h with
    | shared => exact ⟨rfl, rfl⟩
    | whole hk' => rw [hk] at hk'; cases hk'
    | field hs => rw [kindOf_of_structFieldsOf? hs] at hk; cases hk
  · rintro ⟨rfl, rfl⟩
    exact .shared hk

theorem pathVia_whole_iff (hk : r.kindOf t = .value) (hs : r.structFieldsOf? t = none) :
    r.PathVia t p ids ↔ p = [] ∧ r.HoldsVia t ids := by
  constructor
  · intro h
    cases h with
    | shared hk' => rw [hk] at hk'; cases hk'
    | whole _ _ ht => exact ⟨rfl, ht⟩
    | field hs' => rw [hs] at hs'; cases hs'
  · rintro ⟨rfl, ht⟩
    exact .whole hk hs ht

theorem pathVia_struct_iff {tname : String} {args : List Ty} {fields : List (String × Ty)}
    (hs : r.structFieldsOf? (.adt id tname args) = some fields) :
    r.PathVia (.adt id tname args) p ids ↔
      ∃ name u p' ids', (name, u) ∈ fields ∧ r.PathVia u p' ids' ∧
        p = name :: p' ∧ ids = id :: ids' := by
  constructor
  · intro h
    cases h with
    | shared hk => rw [kindOf_of_structFieldsOf? hs] at hk; cases hk
    | whole _ hs' => rw [hs] at hs'; cases hs'
    | field hs' hu hp =>
        obtain rfl := Option.some.inj (hs.symm.trans hs')
        exact ⟨_, _, _, _, hu, hp, rfl, rfl⟩
  · rintro ⟨name, u, p', ids', hu, hp, rfl, rfl⟩
    exact .field hs hu hp

theorem mem_wholePath_iff_pathVia (hunseen : unseen.Nodup) (hk : r.kindOf t = .value)
    (hs : r.structFieldsOf? t = none) :
    p ∈ r.wholePath unseen t ↔ ∃ ids, r.PathVia t p ids ∧ Enterable unseen ids := by
  simp only [mem_wholePath_iff, holdsCounted_iff hunseen, pathVia_whole_iff hk hs, and_assoc,
    exists_and_left]

theorem mem_pathsWithin_iff (hunseen : unseen.Nodup) :
    p ∈ r.pathsWithin unseen t ↔ ∃ ids, r.PathVia t p ids ∧ Enterable unseen ids := by
  fun_induction r.pathsWithin unseen t generalizing p with
  | case1 unseen t hk => simp [pathVia_shared_iff hk, enterable_nil]
  | case2 unseen t hk =>
      simp only [List.not_mem_nil, false_iff, not_exists, not_and]
      intro ids h
      rcases h.kindOf with hk' | hk' <;> rw [hk] at hk' <;> cases hk'
  | case3 unseen t hk =>
      simp only [List.not_mem_nil, false_iff, not_exists, not_and]
      intro ids h
      rcases h.kindOf with hk' | hk' <;> rw [hk] at hk' <;> cases hk'
  | case4 unseen id tname args fields hs hid hk ih =>
      simp only [List.mem_flatMap, List.mem_map]
      constructor
      · rintro ⟨⟨name, u⟩, hu, p', hp', rfl⟩
        obtain ⟨ids, hvia, hids⟩ := (ih u (hunseen.erase id)).1 hp'
        exact ⟨id :: ids, .field hs hu hvia, (enterable_cons hunseen).2 ⟨hid, hids⟩⟩
      · rintro ⟨ids, h, hids⟩
        obtain ⟨name, u, p', ids', hu, hvia, rfl, rfl⟩ := (pathVia_struct_iff hs).1 h
        have hp' := (ih u (hunseen.erase id)).2 ⟨ids', hvia, ((enterable_cons hunseen).1 hids).2⟩
        exact ⟨(name, u), hu, p', hp', rfl⟩
  | case5 unseen id tname args fields hs hid hk =>
      simp only [List.not_mem_nil, false_iff, not_exists, not_and]
      intro ids h hids
      obtain ⟨name, u, p', ids', -, -, -, rfl⟩ := (pathVia_struct_iff hs).1 h
      exact hid ((enterable_cons hunseen).1 hids).1
  | case6 unseen id tname args hs hk => exact mem_wholePath_iff_pathVia hunseen hk hs
  | case7 unseen t hk hadt =>
      have hs : r.structFieldsOf? t = none := by
        cases t with
        | adt id name args => exact absurd rfl (hadt id name args)
        | _ => rfl
      exact mem_wholePath_iff_pathVia hunseen hk hs

/-! ## Found and lost paths -/

theorem HoldsVia.lt_length (h : r.HoldsVia t ids) : ∀ i ∈ ids, i < r.defs.length := by
  induction h with
  | shared => simp
  | optional _ _ ih => exact ih
  | held _ hd _ _ ih =>
      intro i hi
      rcases List.mem_cons.1 hi with rfl | hi
      · exact (List.getElem?_eq_some_iff.1 hd).1
      · exact ih i hi

theorem PathVia.lt_length (h : r.PathVia t p ids) : ∀ i ∈ ids, i < r.defs.length := by
  induction h with
  | shared => simp
  | whole _ _ ht => exact ht.lt_length
  | field hs _ _ ih =>
      obtain ⟨d, hd, -⟩ := Option.bind_eq_some_iff.1 hs
      intro i hi
      rcases List.mem_cons.1 hi with rfl | hi
      · exact (List.getElem?_eq_some_iff.1 hd).1
      · exact ih i hi

/-- A path is found exactly when it can be followed without entering a definition
twice. -/
theorem mem_countedPaths_iff :
    p ∈ r.countedPaths t ↔ ∃ ids, r.PathVia t p ids ∧ ids.Nodup := by
  rw [countedPaths, mem_pathsWithin_iff List.nodup_range]
  constructor
  · rintro ⟨ids, h, hids, -⟩
    exact ⟨ids, h, hids⟩
  · rintro ⟨ids, h, hids⟩
    exact ⟨ids, h, hids, fun i hi => List.mem_range.2 (h.lt_length i hi)⟩

theorem pathsWithin_of_sharedRef (hk : r.kindOf t = .sharedRef) :
    r.pathsWithin unseen t = [[]] := by
  unfold pathsWithin
  rw [hk]

theorem pathsWithin_of_whole (hk : r.kindOf t = .value) (hs : r.structFieldsOf? t = none) :
    r.pathsWithin unseen t = r.wholePath unseen t := by
  unfold pathsWithin
  rw [hk]
  cases t with
  | adt id name args =>
      have hfields : (r.get? id).bind (·.structFields? args) = none := hs
      simp only [hfields]
  | _ => rfl

theorem countedPaths_of_whole (hk : r.kindOf t = .value) (hs : r.structFieldsOf? t = none) :
    r.countedPaths t = r.wholePath (List.range r.defs.length) t :=
  pathsWithin_of_whole hk hs

/-- When the counted paths of a type are found. A path with its end in a counted
reference, or in an inline value that holds one, is found exactly when it can be
followed without entering a definition twice; the same goes for a type that is not
a struct and holds a counted reference as a whole. -/
theorem countedPaths_complete_iff (r : Registry) (t : Ty) :
    (∀ p, r.CountedPath t p →
        (p ∈ r.countedPaths t ↔ ∃ ids, r.PathVia t p ids ∧ ids.Nodup)) ∧
      (r.kindOf t = .value → r.structFieldsOf? t = none → r.Holds t →
        (r.countedPaths t = [[]] ↔ ∃ ids, r.HoldsVia t ids ∧ ids.Nodup)) := by
  refine ⟨fun p _ => mem_countedPaths_iff, fun hk hs _ => ?_⟩
  have hmem : [] ∈ r.countedPaths t ↔ ∃ ids, r.HoldsVia t ids ∧ ids.Nodup := by
    simp only [mem_countedPaths_iff, pathVia_whole_iff hk hs, true_and]
  rw [← hmem, countedPaths_of_whole hk hs, wholePath]
  split
  · simp
  · simp

/-! ## Nested instances

A struct and an enum with a parameter, and a list node. -/

def nestingProgram : Program :=
  ⟨[.type (.classType ⟨⟨"Cell", ⟨0, 0⟩⟩, [], [], []⟩),
    .type (.structType ⟨⟨"Box", ⟨0, 0⟩⟩, ["T"], [⟨"item", .named "T", ⟨0, 0⟩⟩]⟩),
    .type (.enumType ⟨⟨"Slot", ⟨0, 0⟩⟩, ["T"], none,
      [⟨⟨"full", ⟨0, 0⟩⟩, ⟨0, 0⟩, none, .single (.named "T")⟩]⟩),
    .type (.structType ⟨⟨"Node", ⟨0, 0⟩⟩, [],
      [⟨"next", .applied "Optional" [.named "Node"], ⟨0, 0⟩⟩,
       ⟨"data", .named "Cell", ⟨0, 0⟩⟩]⟩)]⟩

def nesting : Registry := (empty.declare nestingProgram).1

def cell : Ty := .adt 0 "Cell" []

def boxOf (t : Ty) : Ty := .adt 1 "Box" [t]

def slotOf (t : Ty) : Ty := .adt 2 "Slot" [t]

def node : Ty := .adt 3 "Node" []

theorem kindOf_cell : nesting.kindOf cell = .sharedRef := by decide

theorem structFieldsOf?_node :
    nesting.structFieldsOf? node = some [("next", .optional node), ("data", cell)] := by
  decide +kernel

theorem exists_heldTypes {args : List Ty}
    (h : (r.get? id).any (fun d => u ∈ d.heldTypes args) = true) :
    ∃ d, r.get? id = some d ∧ u ∈ d.heldTypes args := by
  obtain ⟨d, hd, hu⟩ := (Option.any_eq_true _ _).1 h
  exact ⟨d, hd, of_decide_eq_true hu⟩

theorem holds_optional_node : nesting.Holds (.optional node) := by
  obtain ⟨d, hd, hcell⟩ : ∃ d, nesting.get? 3 = some d ∧ cell ∈ d.heldTypes [] :=
    exists_heldTypes (by decide +kernel)
  exact .optional (by decide +kernel) (.held (by decide +kernel) hd hcell (.shared kindOf_cell))

/-- The node of a list: its data is found, and so is the list behind an optional. -/
theorem countedPaths_node_found :
    (nesting.CountedPath node ["data"] ∧
        (["data"] ∈ nesting.countedPaths node ↔
          ∃ ids, nesting.PathVia node ["data"] ids ∧ ids.Nodup)) ∧
      (nesting.Holds (.optional node) ∧
        (nesting.countedPaths (.optional node) = [[]] ↔
          ∃ ids, nesting.HoldsVia (.optional node) ids ∧ ids.Nodup)) := by
  have hdata : nesting.CountedPath node ["data"] :=
    .field structFieldsOf?_node (by simp) (.shared kindOf_cell)
  exact ⟨⟨hdata, (countedPaths_complete_iff nesting node).1 _ hdata⟩, holds_optional_node,
    (countedPaths_complete_iff nesting (.optional node)).2 (by decide) (by decide)
      holds_optional_node⟩

/-- Three counted references that are lost: in a struct inside another instance of
the struct, behind an optional that leads back to its own struct, and in an enum
inside another instance of the enum. -/
theorem countedPaths_nested_lost :
    (nesting.typeOf .root (.applied "Box" [.applied "Box" [.named "Cell"]]) = boxOf (boxOf cell) ∧
        nesting.CountedPath (boxOf (boxOf cell)) ["item", "item"] ∧
        ["item", "item"] ∉ nesting.countedPaths (boxOf (boxOf cell))) ∧
      (nesting.typeOf .root (.named "Node") = node ∧
        nesting.CountedPath node ["next"] ∧ ["next"] ∉ nesting.countedPaths node) ∧
      (nesting.typeOf .root (.applied "Slot" [.applied "Slot" [.named "Cell"]]) =
          slotOf (slotOf cell) ∧
        nesting.kindOf (slotOf (slotOf cell)) = .value ∧
        nesting.structFieldsOf? (slotOf (slotOf cell)) = none ∧
        nesting.Holds (slotOf (slotOf cell)) ∧
        nesting.countedPaths (slotOf (slotOf cell)) ≠ [[]]) := by
  refine ⟨⟨by decide +kernel, ?_, ?_⟩, ⟨by decide +kernel, ?_, ?_⟩,
    by decide +kernel, by decide +kernel, by decide +kernel, ?_, ?_⟩
  · have houter : nesting.structFieldsOf? (boxOf (boxOf cell)) = some [("item", boxOf cell)] := by
      decide +kernel
    have hinner : nesting.structFieldsOf? (boxOf cell) = some [("item", cell)] := by
      decide +kernel
    exact .field houter (by simp) (.field hinner (by simp) (.shared kindOf_cell))
  · have hpaths : nesting.countedPaths (boxOf (boxOf cell)) = [] := by cbv
    simp [hpaths]
  · exact .field structFieldsOf?_node (by simp)
      (.whole (by decide +kernel) (by decide +kernel) holds_optional_node)
  · have hpaths : nesting.countedPaths node = [["data"]] := by cbv
    simp [hpaths]
  · obtain ⟨d, hd, houter⟩ : ∃ d, nesting.get? 2 = some d ∧
        slotOf cell ∈ d.heldTypes [slotOf cell] := exists_heldTypes (by decide +kernel)
    obtain ⟨d', hd', hinner⟩ : ∃ d, nesting.get? 2 = some d ∧ cell ∈ d.heldTypes [cell] :=
      exists_heldTypes (by decide +kernel)
    exact .held (by decide +kernel) hd houter
      (.held (by decide +kernel) hd' hinner (.shared kindOf_cell))
  · have hpaths : nesting.countedPaths (slotOf (slotOf cell)) = [] := by cbv
    simp [hpaths]

end Registry

end ProgramSafety
