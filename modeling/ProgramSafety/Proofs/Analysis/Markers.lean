import Mathlib.Data.List.Basic
import ProgramSafety.Analysis.Annotations

/-!
# The markers of a node

A ledger is an array with an index into it. Looked at through `itemsAt` it is
nothing but one list per key, to which an item is appended unless the list has it
(`Ledger.itemsAt_add`). The markers of a node are therefore decided by the marker
findings of that node alone, and a single such finding is what the node carries.
-/

namespace ProgramSafety

def Keyed.append {κ α : Type} (keyed : Keyed κ α) (as : List α) (a : α) : List α :=
  if as.any (keyed.same · a) then as else as ++ [a]

namespace Ledger

variable {κ α : Type} [Ord κ] {l : Ledger κ α}

def Indexed (l : Ledger κ α) : Prop := ∀ k, ∀ i ∈ l.positions k, i < l.items.size

section Empty

variable [Std.TransOrd κ]

theorem positions_empty (k : κ) : (empty : Ledger κ α).positions k = [] :=
  Std.TreeMap.getD_emptyc

theorem indexed_empty : (empty : Ledger κ α).Indexed := by
  intro k i hi
  simp [positions_empty] at hi

@[simp] theorem itemsAt_empty (k : κ) : (empty : Ledger κ α).itemsAt k = [] := by
  rw [itemsAt, positions_empty, List.filterMap_nil]

end Empty

/-- An item behind the end of the array does not show at the positions before it. -/
theorem filterMap_push {items : Array α} {a : α} {is : List Nat}
    (his : ∀ i ∈ is, i < items.size) :
    is.filterMap ((items.push a)[·]?) = is.filterMap (items[·]?) := by
  apply List.filterMap_congr
  intro i hi
  rw [Array.getElem?_push, if_neg (Nat.ne_of_lt (his i hi))]

variable [Std.TransOrd κ] [Std.LawfulEqOrd κ] [DecidableEq κ] (keyed : Keyed κ α) (a : α)

theorem positions_add (l : Ledger κ α) (k : κ) :
    (l.add keyed a).positions k =
      if keyed.key a = k ∧ (l.itemsAt k).any (keyed.same · a) = false then
        l.positions k ++ [l.items.size]
      else l.positions k := by
  by_cases hany : (l.itemsAt (keyed.key a)).any (keyed.same · a) = true
  · rw [add, if_pos hany, if_neg]
    rintro ⟨rfl, hnone⟩
    exact Bool.false_ne_true (hnone.symm.trans hany)
  · rw [add, if_neg hany, positions, Std.TreeMap.getD_insert]
    by_cases hk : keyed.key a = k
    · subst hk
      simp [positions, Bool.eq_false_iff.2 hany]
    · simp [positions, hk]

theorem Indexed.add (hl : l.Indexed) : (l.add keyed a).Indexed := by
  intro k i hi
  have hsize : l.items.size ≤ (l.add keyed a).items.size := by
    rw [Ledger.add]
    split <;> simp
  rw [positions_add] at hi
  split at hi
  next hnew =>
    obtain ⟨rfl, hnone⟩ := hnew
    rw [Ledger.add, if_neg (by simp [hnone]), Array.size_push]
    rcases List.mem_append.1 hi with hi | hi
    · exact Nat.lt_succ_of_lt (hl _ i hi)
    · rw [List.mem_singleton.1 hi]
      exact Nat.lt_succ_self _
  next => exact Nat.lt_of_lt_of_le (hl k i hi) hsize

/-- Adding an item changes the items of its key only. -/
theorem itemsAt_add (hl : l.Indexed) (k : κ) :
    (l.add keyed a).itemsAt k =
      if keyed.key a = k then keyed.append (l.itemsAt k) a else l.itemsAt k := by
  by_cases hany : (l.itemsAt (keyed.key a)).any (keyed.same · a) = true
  · rw [Ledger.add, if_pos hany]
    split
    next hk =>
      subst hk
      rw [Keyed.append, if_pos hany]
    next => rfl
  · have hitems : (l.add keyed a).items = l.items.push a := by
      rw [Ledger.add, if_neg hany]
    rw [itemsAt, hitems, positions_add]
    by_cases hk : keyed.key a = k
    · subst hk
      rw [if_pos ⟨rfl, Bool.eq_false_iff.2 hany⟩, if_pos rfl, Keyed.append, if_neg hany,
        List.filterMap_append, filterMap_push (hl _), itemsAt]
      simp
    · rw [if_neg (fun h => hk h.1), if_neg hk, filterMap_push (hl k), itemsAt]

end Ledger

def Finding.markerAt? (node : Nat) : Finding → Option Marker
  | .marker m => if m.node = node then some m else none
  | _ => none

namespace Annotations

variable {a : Annotations}

theorem indexed_record (ha : a.markers.Indexed) (f : Finding) : (a.record f).markers.Indexed := by
  cases f with
  | marker m => exact ha.add Marker.keyed m
  | _ => exact ha

theorem markersAt_record (ha : a.markers.Indexed) (node : Nat) (f : Finding) :
    (a.record f).markersAt node =
      (f.markerAt? node).toList.foldl Marker.keyed.append (a.markersAt node) := by
  cases f with
  | marker m =>
      have hkey : Marker.keyed.key m = m.node := rfl
      rw [markersAt, record, mark, Ledger.itemsAt_add Marker.keyed m ha, hkey, Finding.markerAt?]
      by_cases hnode : m.node = node
      · rw [if_pos hnode, if_pos hnode]
        rfl
      · rw [if_neg hnode, if_neg hnode]
        rfl
  | _ => rfl

theorem markersAt_foldl_record (ha : a.markers.Indexed) (node : Nat) (fs : List Finding) :
    (fs.foldl record a).markersAt node =
      (fs.filterMap (Finding.markerAt? node)).foldl Marker.keyed.append (a.markersAt node) := by
  induction fs generalizing a with
  | nil => rfl
  | cons f fs ih =>
      rw [List.foldl_cons, ih (indexed_record ha f), markersAt_record ha, List.filterMap_cons]
      cases f.markerAt? node <;> rfl

theorem markersAt_ofFindings (node : Nat) (fs : List Finding) :
    (ofFindings fs).markersAt node =
      (fs.filterMap (Finding.markerAt? node)).foldl Marker.keyed.append [] := by
  have hempty : empty.markersAt node = [] := Ledger.itemsAt_empty node
  rw [ofFindings, markersAt_foldl_record Ledger.indexed_empty, hempty]

/-- A node with a single marker finding carries that marker and no other. -/
theorem markersAt_ofFindings_eq_singleton {node : Nat} {fs : List Finding} {m : Marker}
    (hfs : fs.filterMap (Finding.markerAt? node) = [m]) :
    (ofFindings fs).markersAt node = [m] := by
  rw [markersAt_ofFindings, hfs]
  rfl

end Annotations

end ProgramSafety
