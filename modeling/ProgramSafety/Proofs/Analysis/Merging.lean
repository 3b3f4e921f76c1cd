import ProgramSafety.Proofs.Analysis.Tables
import ProgramSafety.Proofs.Ownership.Renumbering

/-!
# Annotations of several lists of findings

What the annotations say about a node depends on the findings at that node only
(`Annotations.sameAt_of_filter_eq`). The items of a ledger are those of a first list of
findings followed by those of a second, if the lists have no key in common
(`Ledger.toList_ofList_append`).
-/

namespace ProgramSafety

/-! ## The annotations of a node -/

def Finding.isAt (node : ℕ) : Finding → Bool
  | problem _ | bound _ => false
  | instantiated id _ | plan id _ | routed id _ => id = node
  | marker m => m.node = node
  | obligation o => o.anchor = .node node

theorem Finding.Belongs.isAt_eq_false {nodes decls : Set ℕ} {f : Finding} {node : ℕ}
    (h : f.Belongs nodes decls) (hnode : node ∉ nodes) : f.isAt node = false := by
  have hne : ∀ id ∈ nodes, decide (id = node) = false := by
    intro id hid
    exact decide_eq_false fun heq => hnode (heq ▸ hid)
  cases f with
  | problem | bound => rfl
  | instantiated id | plan id | routed id => exact hne id h
  | marker m => exact hne m.node h
  | obligation o =>
      refine decide_eq_false fun hanchor => hnode ?_
      rwa [Belongs, hanchor] at h

theorem Finding.isAt_shift (node k : ℕ) (f : Finding) : (f.shift k).isAt node = f.isAt node := by
  cases f with
  | obligation o => cases o <;> simp [shift, isAt, Obligation.shift, Obligation.anchor]
  | _ => rfl

theorem Finding.shift_of_isAt {node : ℕ} {f : Finding} (h : f.isAt node = true) (k : ℕ) :
    f.shift k = f := by
  cases f with
  | obligation o =>
      exact congrArg Finding.obligation (Obligation.shift_of_node (of_decide_eq_true h) k)
  | _ => rfl

theorem Finding.filter_isAt_map_shift (fs : List Finding) (node k : ℕ) :
    (fs.map (Finding.shift k)).filter (·.isAt node) = fs.filter (·.isAt node) := by
  have hshift : (fun f : Finding => f.isAt node) ∘ Finding.shift k = (·.isAt node) := by
    funext f
    exact f.isAt_shift node k
  rw [List.filter_map, hshift]
  calc (fs.filter (·.isAt node)).map (Finding.shift k) = (fs.filter (·.isAt node)).map id :=
        List.map_congr_left fun f hf => Finding.shift_of_isAt (List.mem_filter.1 hf).2 k
    _ = fs.filter (·.isAt node) := List.map_id _

theorem Finding.filter_isAt_eq_nil {fs : List Finding} {nodes decls : Set ℕ} {node : ℕ}
    (hfs : ∀ f ∈ fs, f.Belongs nodes decls) (hnode : node ∉ nodes) :
    fs.filter (·.isAt node) = [] := by
  rw [List.filter_eq_nil_iff]
  intro f hf
  simp [(hfs f hf).isAt_eq_false hnode]

structure Annotations.SameAt (node : ℕ) (a b : Annotations) : Prop where
  obligations : a.obligationsAt node = b.obligationsAt node
  markers : a.markersAt node = b.markersAt node
  instances : a.instances[node]? = b.instances[node]?
  plans : a.plans[node]? = b.plans[node]?
  routes : a.routes[node]? = b.routes[node]?

theorem Annotations.SameAt.symm {node : ℕ} {a b : Annotations} (h : a.SameAt node b) :
    b.SameAt node a :=
  ⟨h.obligations.symm, h.markers.symm, h.instances.symm, h.plans.symm, h.routes.symm⟩

theorem Annotations.SameAt.trans {node : ℕ} {a b c : Annotations} (h : a.SameAt node b)
    (h' : b.SameAt node c) : a.SameAt node c :=
  ⟨h.obligations.trans h'.obligations, h.markers.trans h'.markers, h.instances.trans h'.instances,
    h.plans.trans h'.plans, h.routes.trans h'.routes⟩

namespace Annotations

variable {fs gs : List Finding} {node : ℕ}

theorem filterMap_filter_isAt {β : Type} {g : Finding → Option β} (fs : List Finding)
    (hg : ∀ f : Finding, f.isAt node = false → g f = none) :
    (fs.filter (·.isAt node)).filterMap g = fs.filterMap g := by
  rw [List.filterMap_filter]
  congr 1
  funext f
  cases hat : f.isAt node with
  | true => rfl
  | false => exact (hg f hat).symm

theorem sameAt_of_filter_eq (h : fs.filter (·.isAt node) = gs.filter (·.isAt node)) :
    (ofFindings fs).SameAt node (ofFindings gs) := by
  have hview : ∀ {β : Type} {g : Finding → Option β},
      (∀ f : Finding, f.isAt node = false → g f = none) → fs.filterMap g = gs.filterMap g := by
    intro β g hg
    rw [← filterMap_filter_isAt fs hg, h, filterMap_filter_isAt gs hg]
  have htable : ∀ {β : Type} (table : Table β),
      (∀ f : Finding, f.isAt node = false → table.entryAt? node f = none) →
        (table.read (ofFindings fs))[node]? = (table.read (ofFindings gs))[node]? := by
    intro β table hnone
    rw [table.getElem?_ofFindings, table.getElem?_ofFindings, hview hnone]
  refine ⟨?_, ?_, htable .instances fun f hf => ?_, htable .plans fun f hf => ?_,
    htable .routes fun f hf => ?_⟩
  · rw [obligationsAt_ofFindings, obligationsAt_ofFindings, List.filter_filterMap,
      List.filter_filterMap]
    refine congrArg List.eraseDups (hview fun f hf => ?_)
    cases f with
    | obligation o =>
        have hne : ¬ o.anchor = .node node := of_decide_eq_false hf
        simp [Finding.obligation?, hne]
    | _ => rfl
  · rw [markersAt_ofFindings, markersAt_ofFindings]
    refine congrArg (List.foldl Marker.keyed.append []) (hview fun f hf => ?_)
    cases f with
    | marker m => exact if_neg (of_decide_eq_false hf)
    | _ => rfl
  · cases f with
    | instantiated id i => exact if_neg (of_decide_eq_false hf)
    | _ => rfl
  · cases f with
    | plan id arms => exact if_neg (of_decide_eq_false hf)
    | _ => rfl
  · cases f with
    | routed id route => exact if_neg (of_decide_eq_false hf)
    | _ => rfl

end Annotations

/-! ## Ledgers -/

namespace Ledger

variable {κ α : Type} [Ord κ] {keyed : Keyed κ α} {as bs : List α}

def ofList (keyed : Keyed κ α) (as : List α) : Ledger κ α := as.foldl (·.add keyed ·) empty

theorem ofList_concat (keyed : Keyed κ α) (as : List α) (a : α) :
    ofList keyed (as ++ [a]) = (ofList keyed as).add keyed a := by
  rw [ofList, List.foldl_append]
  rfl

variable [DecidableEq κ] [Std.TransOrd κ] [Std.LawfulEqOrd κ]

theorem faithful_ofList (keyed : Keyed κ α) (as : List α) : (ofList keyed as).Faithful keyed := by
  induction as using List.reverseRecOn with
  | nil => exact faithful_empty
  | append_singleton as a ih =>
      rw [ofList_concat]
      exact ih.add a

theorem mem_of_mem_ofList {a : α} (ha : a ∈ (ofList keyed as).items.toList) : a ∈ as := by
  induction as using List.reverseRecOn with
  | nil => cases ha
  | append_singleton as b ih =>
      rw [ofList_concat, (faithful_ofList keyed as).toList_add] at ha
      split at ha
      · exact List.mem_append_left _ (ih ha)
      · rcases List.mem_append.1 ha with ha | ha
        · exact List.mem_append_left _ (ih ha)
        · exact List.mem_append_right _ ha

/-- Items under other keys follow the items before them. -/
theorem toList_ofList_append (hkeys : ∀ a ∈ as, ∀ b ∈ bs, keyed.key a ≠ keyed.key b) :
    (ofList keyed (as ++ bs)).items.toList =
      (ofList keyed as).items.toList ++ (ofList keyed bs).items.toList := by
  induction bs using List.reverseRecOn with
  | nil => simp [ofList, empty]
  | append_singleton bs b ih =>
      have hrest := ih fun a ha b hb => hkeys a ha b (List.mem_append_left _ hb)
      have hnone : (ofList keyed as).items.toList.filter (keyed.key · = keyed.key b) = [] := by
        rw [List.filter_eq_nil_iff]
        intro a ha
        have hne := hkeys a (mem_of_mem_ofList ha) b (by simp)
        simpa using hne
      rw [← List.append_assoc, ofList_concat, ofList_concat, (faithful_ofList _ _).toList_add,
        (faithful_ofList _ _).toList_add, hrest, List.filter_append, hnone, List.nil_append]
      split
      · rfl
      · rw [List.append_assoc]

end Ledger

def Finding.marker? : Finding → Option Marker
  | marker m => some m
  | _ => none

namespace Annotations

/-- A part of the annotations that one kind of finding enters into is made of the findings of
that kind. -/
theorem read_ofFindings {β γ : Type} {read : Annotations → β} {pick : Finding → Option γ}
    {enter : β → γ → β}
    (hrecord : ∀ a f, read (record a f) = (pick f).elim (read a) (enter (read a)))
    (fs : List Finding) :
    read (ofFindings fs) = (fs.filterMap pick).foldl enter (read empty) := by
  induction fs using List.reverseRecOn with
  | nil => rfl
  | append_singleton fs f ih =>
      rw [ofFindings_concat, hrecord, ih, List.filterMap_append, List.foldl_append]
      cases hf : pick f <;> simp [hf]

theorem markers_ofFindings (fs : List Finding) :
    (ofFindings fs).markers = .ofList Marker.keyed (fs.filterMap Finding.marker?) :=
  read_ofFindings (fun _ f => by cases f <;> rfl) fs

theorem obligations_ofFindings_eq_ofList (fs : List Finding) :
    (ofFindings fs).obligations = .ofList Obligation.keyed (fs.filterMap Finding.obligation?) :=
  read_ofFindings (fun _ f => by cases f <;> rfl) fs

theorem obligationsOf_ofFindings (fs : List Finding) (decl : ℕ) :
    (ofFindings fs).obligationsOf decl =
      (ofFindings fs).obligations.items.toList.filter (·.anchor = .binding decl) :=
  (faithful_ofFindings fs).itemsAt_eq (.binding decl)

end Annotations

end ProgramSafety
