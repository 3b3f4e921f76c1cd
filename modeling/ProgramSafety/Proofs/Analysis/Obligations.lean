import Mathlib.Data.List.Induction
import ProgramSafety.Proofs.Analysis.Markers

/-!
# Recorded obligations

The items of a ledger, read from first to last, are the items added to it without
those that it had already, and the index of a key lists the items of that key.
The obligations of a body are therefore its obligation findings without
repetitions, in the order in which they were found.
-/

namespace ProgramSafety

namespace Ledger

variable {κ α : Type} [Ord κ] [DecidableEq κ] {keyed : Keyed κ α} {l : Ledger κ α}

/-- The index of every key lists the items of that key, in their order. -/
structure Faithful (keyed : Keyed κ α) (l : Ledger κ α) : Prop where
  indexed : l.Indexed
  itemsAt_eq : ∀ k, l.itemsAt k = l.items.toList.filter (keyed.key · = k)

theorem faithful_empty [Std.TransOrd κ] : (empty : Ledger κ α).Faithful keyed :=
  ⟨indexed_empty, itemsAt_empty⟩

theorem Faithful.toList_add (hl : l.Faithful keyed) (a : α) :
    (l.add keyed a).items.toList =
      if (l.items.toList.filter (keyed.key · = keyed.key a)).any (keyed.same · a) then
        l.items.toList
      else l.items.toList ++ [a] := by
  rw [← hl.itemsAt_eq, add]
  split
  · rfl
  · exact Array.toList_push

theorem Faithful.add [Std.TransOrd κ] [Std.LawfulEqOrd κ] (hl : l.Faithful keyed) (a : α) :
    (l.add keyed a).Faithful keyed := by
  refine ⟨hl.indexed.add keyed a, fun k => ?_⟩
  rw [itemsAt_add keyed a hl.indexed, hl.toList_add, Keyed.append, hl.itemsAt_eq]
  by_cases hk : keyed.key a = k
  · subst hk
    rw [if_pos rfl]
    split
    · rfl
    · simp
  · rw [if_neg hk]
    split
    · rfl
    · simp [hk]

end Ledger

/-! ## First occurrences -/

section FirstOccurrences

variable {α β ι κ : Type} [BEq α] [LawfulBEq α] [BEq β] [LawfulBEq β]

theorem eraseDups_concat (xs : List α) (a : α) :
    (xs ++ [a]).eraseDups = if a ∈ xs then xs.eraseDups else xs.eraseDups ++ [a] := by
  rw [List.eraseDups_append]
  by_cases ha : a ∈ xs
  · simp [List.removeAll, ha]
  · simp [List.removeAll, ha, List.eraseDups_cons]

theorem filter_eraseDups (p : α → Bool) (xs : List α) :
    xs.eraseDups.filter p = (xs.filter p).eraseDups := by
  induction xs using List.reverseRecOn with
  | nil => rfl
  | append_singleton xs a ih =>
      rw [eraseDups_concat, List.filter_append]
      by_cases hp : p a = true
      · have hmem : a ∈ xs.filter p ↔ a ∈ xs := by simp [hp]
        have hsingle : [a].filter p = [a] := by simp [hp]
        rw [hsingle, eraseDups_concat, ← ih]
        by_cases ha : a ∈ xs
        · rw [if_pos ha, if_pos (hmem.2 ha)]
        · rw [if_neg ha, if_neg (mt hmem.1 ha), List.filter_append, hsingle]
      · have hsingle : [a].filter p = [] := by simp [hp]
        rw [hsingle, List.append_nil, ← ih]
        split
        · rfl
        · rw [List.filter_append, hsingle, List.append_nil]

theorem eraseDups_map {f : α → β} (hf : Function.Injective f) (xs : List α) :
    (xs.map f).eraseDups = xs.eraseDups.map f := by
  induction xs using List.reverseRecOn with
  | nil => rfl
  | append_singleton xs a ih =>
      rw [List.map_append, List.map_singleton, eraseDups_concat, eraseDups_concat, ih]
      simp only [List.mem_map_of_injective hf]
      split
      · rfl
      · rw [List.map_append, List.map_singleton]

/-- Lists with keys of their own keep their own first occurrences. -/
theorem eraseDups_flatMap {f : ι → List α} {key : ι → κ} {keyOf : α → κ}
    (hkey : ∀ i, ∀ a ∈ f i, keyOf a = key i) {is : List ι} (his : (is.map key).Nodup) :
    (is.flatMap f).eraseDups = is.flatMap fun i => (f i).eraseDups := by
  induction is with
  | nil => rfl
  | cons i is ih =>
      rw [List.map_cons, List.nodup_cons] at his
      have hdisjoint : (is.flatMap f).removeAll (f i) = is.flatMap f := by
        rw [List.removeAll, List.filter_eq_self]
        intro a ha
        obtain ⟨j, hj, ha⟩ := List.mem_flatMap.1 ha
        have hnot : a ∉ f i := fun hai =>
          his.1 (List.mem_map.2 ⟨j, hj, (hkey j a ha).symm.trans (hkey i a hai)⟩)
        simpa using hnot
      rw [List.flatMap_cons, List.flatMap_cons, List.eraseDups_append, hdisjoint, ih his.2]

end FirstOccurrences

/-- Where every list has a key of its own, the items of a key are the items of one
list. -/
theorem filter_flatMap_key {ι κ α : Type} [DecidableEq κ] {f : ι → List α} {key : ι → κ}
    {keyOf : α → κ} (hkey : ∀ i, ∀ a ∈ f i, keyOf a = key i) {is : List ι}
    (his : (is.map key).Nodup) {i : ι} (hi : i ∈ is) :
    (is.flatMap f).filter (keyOf · = key i) = f i := by
  have hnone : ∀ js : List ι, key i ∉ js.map key → (js.flatMap f).filter (keyOf · = key i) = [] := by
    intro js hjs
    rw [List.filter_eq_nil_iff]
    intro a ha hsame
    obtain ⟨j, hj, ha⟩ := List.mem_flatMap.1 ha
    have hij : key j = key i := (hkey j a ha).symm.trans (by simpa using hsame)
    exact hjs (List.mem_map.2 ⟨j, hj, hij⟩)
  have hall : (f i).filter (keyOf · = key i) = f i :=
    List.filter_eq_self.2 fun a ha => by simpa using hkey i a ha
  obtain ⟨pre, post, rfl⟩ := List.append_of_mem hi
  rw [List.map_append, List.map_cons, List.nodup_append, List.nodup_cons] at his
  obtain ⟨-, ⟨hpost, -⟩, hpre⟩ := his
  have hpre' : key i ∉ pre.map key := fun hmem => hpre _ hmem _ (by simp) rfl
  rw [List.flatMap_append, List.flatMap_cons, List.filter_append, List.filter_append,
    hnone pre hpre', hnone post hpost, hall, List.nil_append, List.append_nil]

def Finding.obligation? : Finding → Option Obligation
  | .obligation o => some o
  | _ => none

def Finding.bound? : Finding → Option Ident
  | .bound name => some name
  | _ => none

namespace Annotations

variable {a : Annotations}

theorem faithful_record (ha : a.obligations.Faithful Obligation.keyed) (f : Finding) :
    (a.record f).obligations.Faithful Obligation.keyed := by
  cases f with
  | obligation o => exact ha.add o
  | _ => exact ha

theorem ofFindings_concat (fs : List Finding) (f : Finding) :
    ofFindings (fs ++ [f]) = (ofFindings fs).record f := by
  rw [ofFindings, List.foldl_append]
  rfl

theorem faithful_ofFindings (fs : List Finding) :
    (ofFindings fs).obligations.Faithful Obligation.keyed := by
  induction fs using List.reverseRecOn with
  | nil => exact Ledger.faithful_empty
  | append_singleton fs f ih =>
      rw [ofFindings_concat]
      exact faithful_record ih f

theorem toList_oblige (ha : a.obligations.Faithful Obligation.keyed) (o : Obligation) :
    (a.oblige o).obligations.items.toList =
      if o ∈ a.obligations.items.toList then a.obligations.items.toList
      else a.obligations.items.toList ++ [o] := by
  have hany : ((a.obligations.items.toList.filter
      (Obligation.keyed.key · = Obligation.keyed.key o)).any (Obligation.keyed.same · o) = true) ↔
        o ∈ a.obligations.items.toList := by
    simp only [List.any_eq_true, List.mem_filter, Obligation.keyed, beq_iff_eq]
    constructor
    · rintro ⟨x, ⟨hx, -⟩, rfl⟩
      exact hx
    · intro ho
      exact ⟨o, ⟨ho, by simp⟩, rfl⟩
  rw [oblige, ha.toList_add]
  simp only [hany]

/-- The obligations are the obligation findings, each where it is found first. -/
theorem obligations_ofFindings (fs : List Finding) :
    (ofFindings fs).obligations.items.toList = (fs.filterMap Finding.obligation?).eraseDups := by
  induction fs using List.reverseRecOn with
  | nil => rfl
  | append_singleton fs f ih =>
      rw [ofFindings_concat, List.filterMap_append]
      cases f with
      | obligation o =>
          have hsingle : [Finding.obligation o].filterMap Finding.obligation? = [o] := rfl
          rw [hsingle, eraseDups_concat, record, toList_oblige (faithful_ofFindings fs), ih]
          simp only [List.mem_eraseDups]
      | _ => exact ih.trans (congrArg List.eraseDups (List.append_nil _).symm)

theorem bindings_ofFindings (fs : List Finding) :
    (ofFindings fs).bindings = fs.filterMap Finding.bound? := by
  induction fs using List.reverseRecOn with
  | nil => rfl
  | append_singleton fs f ih =>
      rw [ofFindings_concat, List.filterMap_append, ← ih]
      cases f with
      | bound name => rfl
      | _ => exact (List.append_nil _).symm

theorem obligationsAt_ofFindings (fs : List Finding) (node : ℕ) :
    (ofFindings fs).obligationsAt node =
      ((fs.filterMap Finding.obligation?).filter (·.anchor = .node node)).eraseDups := by
  rw [obligationsAt, (faithful_ofFindings fs).itemsAt_eq, obligations_ofFindings,
    filter_eraseDups]
  rfl

end Annotations

end ProgramSafety
