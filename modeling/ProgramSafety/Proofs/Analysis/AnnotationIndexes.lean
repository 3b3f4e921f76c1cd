import ProgramSafety.Proofs.Analysis.Merging
import ProgramSafety.Proofs.Number.FloatValues

/-!
# Indexes of annotations

A ledger looks for an item among the items of its key before it adds it. As long as comparing
items is transitive, the ledger has the items that were added without those that equal an
earlier one of the same key, whether the earlier one was kept or not (`Ledger.toList_ofList`).
Obligations are compared as they are. Markers that carry a folded value are compared by the
numbers they carry, so a marker with a NaN equals nothing, not even itself, and is added
whenever it comes. Any other item that was added before is not added again
(`Ledger.add_eq_self`).
-/

namespace ProgramSafety

/-! ## First items -/

namespace Keyed

variable {κ α : Type}

def Transitive (keyed : Keyed κ α) : Prop :=
  ∀ ⦃a b c⦄, keyed.same a b = true → keyed.same b c = true → keyed.same a c = true

variable [DecidableEq κ]

/-- The item equals one of the given items of the same key. -/
def repeats (keyed : Keyed κ α) (earlier : List α) (a : α) : Bool :=
  earlier.any fun b => keyed.key b = keyed.key a && keyed.same b a

/-- The items that equal none before them of the same key, the given ones being before all. -/
def firstsAfter (keyed : Keyed κ α) (earlier : List α) : List α → List α
  | [] => []
  | a :: as =>
    if keyed.repeats earlier a then keyed.firstsAfter (earlier ++ [a]) as
    else a :: keyed.firstsAfter (earlier ++ [a]) as

def firsts (keyed : Keyed κ α) (as : List α) : List α := keyed.firstsAfter [] as

variable {keyed : Keyed κ α}

theorem repeats_iff {as : List α} {a : α} : keyed.repeats as a = true ↔
    ∃ b ∈ as, keyed.key b = keyed.key a ∧ keyed.same b a = true := by
  simp [repeats]

theorem repeats_append (as bs : List α) (a : α) :
    keyed.repeats (as ++ bs) a = (keyed.repeats as a || keyed.repeats bs a) :=
  List.any_append

theorem firstsAfter_concat (earlier as : List α) (a : α) :
    keyed.firstsAfter earlier (as ++ [a]) =
      keyed.firstsAfter earlier as ++ if keyed.repeats (earlier ++ as) a then [] else [a] := by
  induction as generalizing earlier with
  | nil => simp [firstsAfter]
  | cons b as ih =>
      have hearlier : earlier ++ [b] ++ as = earlier ++ b :: as := by simp
      rw [List.cons_append, firstsAfter, firstsAfter, ih, hearlier]
      split <;> rfl

theorem firsts_concat (as : List α) (a : α) :
    keyed.firsts (as ++ [a]) = keyed.firsts as ++ if keyed.repeats as a then [] else [a] :=
  firstsAfter_concat [] as a

/-- An item that equals an item equals one of the first ones. -/
theorem repeats_firsts (htrans : keyed.Transitive) (as : List α) (a : α) :
    keyed.repeats (keyed.firsts as) a = keyed.repeats as a := by
  induction as using List.reverseRecOn with
  | nil => rfl
  | append_singleton as b ih =>
      rw [firsts_concat, repeats_append, repeats_append, ih]
      split
      next hb =>
        -- The item `b` is not a first one, so what equals `b` equals an item before it.
        have habsorb : keyed.repeats [b] a = true → keyed.repeats as a = true := by
          intro ha
          obtain ⟨c, hc, hkey, hsame⟩ := repeats_iff.1 hb
          obtain ⟨d, hd, hkey', hsame'⟩ := repeats_iff.1 ha
          obtain rfl := List.mem_singleton.1 hd
          exact repeats_iff.2 ⟨c, hc, hkey.trans hkey', htrans hsame hsame'⟩
        have hnil : keyed.repeats [] a = false := rfl
        rw [hnil, Bool.or_false]
        exact (Bool.or_eq_left_iff_imp.2 habsorb).symm
      next => rfl

end Keyed

namespace Ledger

variable {κ α : Type} [Ord κ] [DecidableEq κ] {keyed : Keyed κ α} {l : Ledger κ α}

theorem Faithful.any_itemsAt (hl : l.Faithful keyed) (a : α) :
    (l.itemsAt (keyed.key a)).any (keyed.same · a) = keyed.repeats l.items.toList a := by
  rw [hl.itemsAt_eq, List.any_filter, Keyed.repeats]

variable [Std.TransOrd κ] [Std.LawfulEqOrd κ]

/-- The items of a ledger are those that were added, without repetitions. -/
theorem toList_ofList (htrans : keyed.Transitive) (as : List α) :
    (ofList keyed as).items.toList = keyed.firsts as := by
  induction as using List.reverseRecOn with
  | nil => rfl
  | append_singleton as a ih =>
      have hany := (faithful_ofList keyed as).any_itemsAt a
      rw [ih, Keyed.repeats_firsts htrans] at hany
      rw [ofList_concat, add, Keyed.firsts_concat, ← ih, hany]
      split
      · rw [List.append_nil]
      · exact Array.toList_push

/-- An item that equals itself is not added a second time. -/
theorem add_eq_self (htrans : keyed.Transitive) {as : List α} {a : α} (ha : a ∈ as)
    (hself : keyed.same a a = true) : (ofList keyed as).add keyed a = ofList keyed as := by
  have hany := (faithful_ofList keyed as).any_itemsAt a
  rw [toList_ofList htrans, Keyed.repeats_firsts htrans] at hany
  rw [add, if_pos (hany.trans (Keyed.repeats_iff.2 ⟨a, ha, rfl, hself⟩))]

end Ledger

/-! ## Equality of obligations and markers -/

theorem Obligation.keyed_transitive : Obligation.keyed.Transitive := by
  intro a b c h h'
  exact beq_iff_eq.2 ((beq_iff_eq.1 h).trans (beq_iff_eq.1 h'))

/-- The binding whose scope an obligation is about. -/
def Obligation.decl? : Obligation → Option ℕ
  | release _ decl _ _ | retainBinder decl _ => some decl
  | _ => none

namespace Marker

def NanFree : Marker → Prop
  | foldedCast _ _ value => value ≠ some (.float .nan)
  | _ => True

theorem sameValue_trans {v w x : Option Scalar} (h : sameValue v w = true)
    (h' : sameValue w x = true) : sameValue v x = true := by
  cases w with
  | none => cases v <;> cases x <;> simp_all [sameValue]
  | some b =>
      cases v with
      | none => cases h
      | some a =>
          cases x with
          | none => cases h'
          | some c => exact Scalar.same_trans h h'

/-- Equal markers differ in the folded value at most. -/
theorem same_cases {m m' : Marker} (h : m.same m' = true) :
    m = m' ∨ ∃ node form v v',
      m = foldedCast node form v ∧ m' = foldedCast node form v' ∧ sameValue v v' = true := by
  cases m with
  | foldedCast node form v =>
      cases m' with
      | foldedCast node' form' v' =>
          simp only [same, Bool.and_eq_true, beq_iff_eq] at h
          obtain ⟨⟨rfl, rfl⟩, hvalue⟩ := h
          exact .inr ⟨node, form, v, v', rfl, rfl, hvalue⟩
      | _ => exact .inl (beq_iff_eq.1 h)
  | _ => exact .inl (beq_iff_eq.1 h)

theorem keyed_transitive : Marker.keyed.Transitive := by
  intro a b c h h'
  rcases same_cases h with rfl | ⟨node, form, v, w, rfl, rfl, hvalue⟩
  · exact h'
  · rcases same_cases h' with rfl | ⟨_, _, _, x, ⟨⟩, rfl, hvalue'⟩
    · exact h
    · change (node == node && form == form && sameValue v x) = true
      simp [sameValue_trans hvalue hvalue']

theorem same_self_iff {m : Marker} : m.same m = true ↔ m.NanFree := by
  cases m with
  | foldedCast node form value =>
      cases value with
      | none => simp [same, sameValue, NanFree]
      | some a => simp [same, sameValue, NanFree, Scalar.same_self_iff]
  | _ => simp [same, NanFree]

end Marker

/-! ## Recorded findings -/

namespace Annotations

/-- Reading by node or by binding gives what is recorded there, and the positions that the
indexes hold are positions of items. -/
structure Consistent (a : Annotations) : Prop where
  obligationsAt_eq : ∀ node,
    a.obligationsAt node = a.obligations.items.toList.filter (·.node? = some node)
  obligationsOf_eq : ∀ decl,
    a.obligationsOf decl = a.obligations.items.toList.filter (·.decl? = some decl)
  markersAt_eq : ∀ node, a.markersAt node = a.markers.items.toList.filter (·.node = node)
  obligation_lt : ∀ anchor, ∀ i ∈ a.obligations.positions anchor, i < a.obligations.items.size
  marker_lt : ∀ node, ∀ i ∈ a.markers.positions node, i < a.markers.items.size

theorem consistent_ofFindings (fs : List Finding) : (ofFindings fs).Consistent := by
  have hobligations := faithful_ofFindings fs
  have hmarkers : (ofFindings fs).markers.Faithful Marker.keyed := by
    rw [markers_ofFindings]
    exact Ledger.faithful_ofList _ _
  refine ⟨fun node => ?_, fun decl => ?_, hmarkers.itemsAt_eq, hobligations.indexed,
    hmarkers.indexed⟩
  · have hnode : ∀ o : Obligation, o.anchor = .node node ↔ o.node? = some node := by
      intro o
      cases o <;> simp [Obligation.anchor, Obligation.node?]
    refine (hobligations.itemsAt_eq (.node node)).trans (List.filter_congr fun o _ => ?_)
    exact decide_eq_decide.2 (hnode o)
  · have hdecl : ∀ o : Obligation, o.anchor = .binding decl ↔ o.decl? = some decl := by
      intro o
      cases o <;> simp [Obligation.anchor, Obligation.decl?]
    refine (obligationsOf_ofFindings fs decl).trans (List.filter_congr fun o _ => ?_)
    exact decide_eq_decide.2 (hdecl o)

theorem oblige_eq_self {fs : List Finding} {o : Obligation} (ho : .obligation o ∈ fs) :
    (ofFindings fs).oblige o = ofFindings fs := by
  have hmem : o ∈ fs.filterMap Finding.obligation? := List.mem_filterMap.2 ⟨_, ho, rfl⟩
  have hadd := Ledger.add_eq_self Obligation.keyed_transitive hmem (beq_self_eq_true o)
  rw [← obligations_ofFindings_eq_ofList] at hadd
  rw [oblige, hadd]

theorem mark_eq_self {fs : List Finding} {m : Marker} (hm : .marker m ∈ fs) (hnan : m.NanFree) :
    (ofFindings fs).mark m = ofFindings fs := by
  have hmem : m ∈ fs.filterMap Finding.marker? := List.mem_filterMap.2 ⟨_, hm, rfl⟩
  have hadd := Ledger.add_eq_self Marker.keyed_transitive hmem (Marker.same_self_iff.2 hnan)
  rw [← markers_ofFindings] at hadd
  rw [mark, hadd]

/-- Whatever is entered in whatever order, bindings are numbered as they come, obligations and
markers are listed without those that equal an earlier one of the same key, the indexes agree
with these lists, and entering an obligation or a marker without NaN again changes nothing. -/
theorem indexes_consistent (fs : List Finding) :
    (ofFindings fs).bindings = fs.filterMap Finding.bound? ∧
    (ofFindings fs).obligations.items.toList =
      Obligation.keyed.firsts (fs.filterMap Finding.obligation?) ∧
    (ofFindings fs).markers.items.toList = Marker.keyed.firsts (fs.filterMap Finding.marker?) ∧
    (ofFindings fs).Consistent ∧
    (∀ o, .obligation o ∈ fs → (ofFindings fs).oblige o = ofFindings fs) ∧
    ∀ m, .marker m ∈ fs → m.NanFree → (ofFindings fs).mark m = ofFindings fs := by
  refine ⟨bindings_ofFindings fs, ?_, ?_, consistent_ofFindings fs, fun o => oblige_eq_self,
    fun m => mark_eq_self⟩
  · rw [obligations_ofFindings_eq_ofList, Ledger.toList_ofList Obligation.keyed_transitive]
  · rw [markers_ofFindings, Ledger.toList_ofList Marker.keyed_transitive]

/-- Two bindings of one name, the first released twice, and both zeros at one node. -/
def repeatedFindings : List Finding :=
  [.bound ⟨"a", 0, 1⟩, .bound ⟨"a", 4, 1⟩,
    .obligation (.release "a" 0 none ⟨9, 0⟩),
    .marker (.foldedCast 3 .fallible (some (.float (.finite false 0 0)))),
    .obligation (.retain 3),
    .obligation (.release "a" 1 none ⟨9, 0⟩),
    .marker (.bounds 3),
    .marker (.foldedCast 3 .fallible (some (.float (.finite true 0 0)))),
    .obligation (.release "a" 0 none ⟨9, 0⟩),
    .obligation (.retain 3)]

theorem indexes_consistent_repeatedFindings :
    (ofFindings repeatedFindings).obligations.items.toList =
      [.release "a" 0 none ⟨9, 0⟩, .retain 3, .release "a" 1 none ⟨9, 0⟩] ∧
    (ofFindings repeatedFindings).obligationsOf 0 = [.release "a" 0 none ⟨9, 0⟩] ∧
    (ofFindings repeatedFindings).markersAt 3 =
      [.foldedCast 3 .fallible (some (.float (.finite false 0 0))), .bounds 3] ∧
    (ofFindings repeatedFindings).mark (.bounds 3) = ofFindings repeatedFindings := by
  obtain ⟨-, hobligations, hmarkers, hindexes, -, hmark⟩ := indexes_consistent repeatedFindings
  rw [hindexes.obligationsOf_eq, hindexes.markersAt_eq, hobligations, hmarkers]
  exact ⟨by decide, by decide, by decide, hmark _ (by simp [repeatedFindings]) trivial⟩

end Annotations

end ProgramSafety
