import Mathlib.Data.List.Induction
import ProgramSafety.Proofs.Analysis.Obligations

/-!
# Tables of annotations

Besides its ledgers, an annotation record has tables that give one value to a node:
instances, routes and match plans. A finding enters at most one value, and a later value
replaces an earlier one. `Table` says so once for all of them.
-/

namespace ProgramSafety

/-- A table of the annotations, with the entry that a finding makes in it. -/
structure Table (β : Type) where
  read : Annotations → Std.TreeMap ℕ β
  entry? : Finding → Option (ℕ × β)
  read_empty : read .empty = ∅
  read_record : ∀ a f, read (a.record f) =
    match entry? f with
    | some (node, value) => (read a).insert node value
    | none => read a

namespace Table

def instances : Table Concrete where
  read := Annotations.instances
  entry?
    | .instantiated node i => some (node, i)
    | _ => none
  read_empty := rfl
  read_record a f := by cases f <;> rfl

def routes : Table Route where
  read := Annotations.routes
  entry?
    | .routed node route => some (node, route)
    | _ => none
  read_empty := rfl
  read_record a f := by cases f <;> rfl

def plans : Table (List (List String)) where
  read := Annotations.plans
  entry?
    | .plan node arms => some (node, arms)
    | _ => none
  read_empty := rfl
  read_record a f := by cases f <;> rfl

variable {β : Type} {table : Table β} {fs : List Finding} {f : Finding} {node : ℕ} {value : β}

theorem getElem?_record (table : Table β) (a : Annotations) (f : Finding) (node : ℕ) :
    (table.read (a.record f))[node]? =
      match table.entry? f with
      | some (key, value) => if key = node then some value else (table.read a)[node]?
      | none => (table.read a)[node]? := by
  rw [table.read_record]
  cases table.entry? f with
  | none => rfl
  | some entry => simp [Std.TreeMap.getElem?_insert]

def entryAt? (table : Table β) (node : ℕ) (f : Finding) : Option β :=
  match table.entry? f with
  | some (key, value) => if key = node then some value else none
  | none => none

/-- The last entry of a node counts. -/
theorem getElem?_ofFindings (table : Table β) (fs : List Finding) (node : ℕ) :
    (table.read (.ofFindings fs))[node]? = (fs.filterMap (table.entryAt? node)).getLast? := by
  induction fs using List.reverseRecOn with
  | nil =>
      have hempty : table.read (.ofFindings []) = ∅ := table.read_empty
      simp [hempty]
  | append_singleton fs f ih =>
      rw [Annotations.ofFindings_concat, getElem?_record, List.filterMap_append, ih,
        List.filterMap_cons, List.filterMap_nil, entryAt?]
      cases table.entry? f with
      | none => simp
      | some entry =>
          obtain ⟨key, value⟩ := entry
          by_cases hkey : key = node
          · simp [hkey]
          · simp [hkey]

/-- What stands in a table was entered by a finding. -/
theorem exists_entry_of_getElem? (h : (table.read (.ofFindings fs))[node]? = some value) :
    ∃ f ∈ fs, table.entry? f = some (node, value) := by
  induction fs using List.reverseRecOn with
  | nil =>
      have hempty : table.read (.ofFindings []) = ∅ := table.read_empty
      simp [hempty] at h
  | append_singleton fs f ih =>
      rw [Annotations.ofFindings_concat, getElem?_record] at h
      have hearlier : (table.read (.ofFindings fs))[node]? = some value →
          ∃ f' ∈ fs ++ [f], table.entry? f' = some (node, value) := by
        intro h
        obtain ⟨f', hf', hentry⟩ := ih h
        exact ⟨f', List.mem_append_left _ hf', hentry⟩
      split at h
      next key value' hentry =>
        split at h
        next hkey =>
          obtain rfl : value' = value := by simpa using h
          exact ⟨f, by simp, hkey ▸ hentry⟩
        next => exact hearlier h
      next => exact hearlier h

/-- A node with an entry is in the table. -/
theorem exists_getElem?_of_entry (hf : f ∈ fs) (hentry : table.entry? f = some (node, value)) :
    ∃ value', (table.read (.ofFindings fs))[node]? = some value' := by
  induction fs using List.reverseRecOn with
  | nil => simp at hf
  | append_singleton fs last ih =>
      rw [Annotations.ofFindings_concat, getElem?_record]
      rcases List.mem_append.1 hf with hf | hf
      · split
        · split
          · exact ⟨_, rfl⟩
          · exact ih hf
        · exact ih hf
      · obtain rfl := List.mem_singleton.1 hf
        simp [hentry]

/-- A node whose entries all agree has that value. -/
theorem getElem?_eq_some (table : Table β) (hf : f ∈ fs)
    (hentry : table.entry? f = some (node, value))
    (hagree : ∀ f' ∈ fs, ∀ value', table.entry? f' = some (node, value') → value' = value) :
    (table.read (.ofFindings fs))[node]? = some value := by
  obtain ⟨value', h⟩ := exists_getElem?_of_entry hf hentry
  obtain ⟨f', hf', hentry'⟩ := exists_entry_of_getElem? h
  rw [h, hagree f' hf' value' hentry']

theorem getElem?_eq_none (table : Table β)
    (hnone : ∀ f ∈ fs, ∀ value, table.entry? f ≠ some (node, value)) :
    (table.read (.ofFindings fs))[node]? = none := by
  rw [← Option.not_isSome_iff_eq_none, Option.isSome_iff_exists]
  rintro ⟨value, h⟩
  obtain ⟨f, hf, hentry⟩ := exists_entry_of_getElem? h
  exact hnone f hf value hentry

end Table

end ProgramSafety
