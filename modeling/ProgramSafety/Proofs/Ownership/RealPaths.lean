import ProgramSafety.Proofs.Ownership.CountedPath

/-!
# Counted paths are real

Work on the references of a value follows its counted paths, so a path that leads
nowhere, or to something that is not counted, would touch what is no reference.
`r.Leads t p u` says what a path is, apart from any search: one field after another of
nothing but structs, with the arguments of each struct put in for its parameters. Every
path that the search finds leads to exactly one type, which is counted, and is found
once (`Registry.countedPaths_real`).

Fields of one struct that have one name would make a path lead to two types and be found
twice; registration does not refuse them, so `Registry.DistinctFields` is assumed.
-/

namespace ProgramSafety

namespace Registry

def DistinctFields (r : Registry) : Prop :=
  ∀ d ∈ r.defs, ∀ fs, d.shape = .structType fs → (fs.map Field.name).Nodup

inductive IsStruct (r : Registry) : Ty → Prop where
  | intro {id : ℕ} {tname : String} {args : List Ty} {d : TypeDef} {fs : List Field}
      (hd : r.get? id = some d) (hshape : d.shape = .structType fs) :
      IsStruct r (.adt id tname args)

inductive Leads (r : Registry) : Ty → FieldPath → Ty → Prop where
  | here {t : Ty} : Leads r t [] t
  | field {id : ℕ} {tname name : String} {args : List Ty} {d : TypeDef} {fs : List Field}
      {f : Field} {p : FieldPath} {u : Ty} (hd : r.get? id = some d)
      (hshape : d.shape = .structType fs) (hf : f ∈ fs) (hname : f.name = name)
      (hp : Leads r (f.type.substitute (d.subst args)) p u) :
      Leads r (.adt id tname args) (name :: p) u

/-- Values of the type are counted as a whole: they are counted references, or other
inline values than structs and hold one. -/
def IsCounted (r : Registry) (t : Ty) : Prop :=
  r.kindOf t = .sharedRef ∨ r.kindOf t = .value ∧ ¬ r.IsStruct t ∧ r.Holds t

variable {r : Registry} {t u v : Ty} {p q : FieldPath} {id : ℕ} {ids unseen : List ℕ}

theorem distinctFields_of_forall (h : ∀ d ∈ r.defs, (d.shape.fields.map Field.name).Nodup) :
    r.DistinctFields := by
  intro d hd fs hshape
  have hnodup := h d hd
  rwa [hshape] at hnodup

/-! ## Structs -/

theorem structFieldsOf?_eq_some_iff {tname : String} {args : List Ty}
    {fields : List (String × Ty)} :
    r.structFieldsOf? (.adt id tname args) = some fields ↔
      ∃ d fs, r.get? id = some d ∧ d.shape = .structType fs ∧
        fields = fs.map fun f => (f.name, f.type.substitute (d.subst args)) := by
  constructor
  · intro hs
    obtain ⟨d, hd, hfields⟩ := Option.bind_eq_some_iff.1 hs
    unfold TypeDef.structFields? at hfields
    split at hfields
    next fs hshape => exact ⟨d, fs, hd, hshape, (Option.some.inj hfields).symm⟩
    next => cases hfields
  · rintro ⟨d, fs, hd, hshape, rfl⟩
    simp [structFieldsOf?, hd, TypeDef.structFields?, hshape]

theorem isStruct_iff : r.IsStruct t ↔ r.structFieldsOf? t ≠ none := by
  constructor
  · rintro ⟨hd, hshape⟩
    rw [structFieldsOf?_eq_some_iff.2 ⟨_, _, hd, hshape, rfl⟩]
    exact Option.some_ne_none _
  · intro hs
    obtain ⟨fields, hfields⟩ := Option.ne_none_iff_exists'.1 hs
    cases t with
    | adt id tname args =>
        obtain ⟨d, fs, hd, hshape, -⟩ := structFieldsOf?_eq_some_iff.1 hfields
        exact .intro hd hshape
    | _ => cases hfields

/-- The fields of a struct with arguments have distinct names, too. -/
theorem DistinctFields.nodup_structFieldsOf? (hfields : r.DistinctFields) {tname : String}
    {args : List Ty} {fields : List (String × Ty)}
    (hs : r.structFieldsOf? (.adt id tname args) = some fields) :
    (fields.map Prod.fst).Nodup := by
  obtain ⟨d, fs, hd, hshape, rfl⟩ := structFieldsOf?_eq_some_iff.1 hs
  rw [List.map_map]
  exact hfields d (List.mem_of_getElem? hd) fs hshape

/-! ## Where a path leads -/

theorem Leads.append_iff : r.Leads t (p ++ q) u ↔ ∃ v, r.Leads t p v ∧ r.Leads v q u := by
  constructor
  · intro h
    induction p generalizing t with
    | nil => exact ⟨t, .here, h⟩
    | cons name p ih =>
        cases h with
        | field hd hshape hf hname hp =>
            obtain ⟨v, hv, hu⟩ := ih hp
            exact ⟨v, .field hd hshape hf hname hv, hu⟩
  · rintro ⟨v, hv, hu⟩
    induction hv with
    | here => exact hu
    | field hd hshape hf hname _ ih => exact .field hd hshape hf hname (ih hu)

theorem Leads.isStruct (h : r.Leads t p u) (hp : p ≠ []) : r.IsStruct t := by
  cases h with
  | here => exact absurd rfl hp
  | field hd hshape => exact .intro hd hshape

theorem Leads.unique (hfields : r.DistinctFields) (hu : r.Leads t p u) (hv : r.Leads t p v) :
    u = v := by
  induction hu with
  | here =>
      cases hv with
      | here => rfl
  | field hd hshape hf hname _ ih =>
      cases hv with
      | field hd' hshape' hf' hname' hp' =>
          obtain rfl := Option.some.inj (hd.symm.trans hd')
          obtain rfl := Shape.structType.inj (hshape.symm.trans hshape')
          have hnodup := hfields _ (List.mem_of_getElem? hd) _ hshape
          obtain rfl := List.inj_on_of_nodup_map hnodup hf hf' (hname.trans hname'.symm)
          exact ih hp'

/-- A path that can be followed leads to something counted. -/
theorem PathVia.exists_leads (h : r.PathVia t p ids) : ∃ u, r.Leads t p u ∧ r.IsCounted u := by
  induction h with
  | shared hk => exact ⟨_, .here, Or.inl hk⟩
  | @whole t ids hk hs ht =>
      have hno : ¬ r.IsStruct t := fun h => isStruct_iff.1 h hs
      exact ⟨t, .here, Or.inr ⟨hk, hno, holds_iff_exists_holdsVia.2 ⟨ids, ht⟩⟩⟩
  | field hs hu _ ih =>
      obtain ⟨d, fs, hd, hshape, rfl⟩ := structFieldsOf?_eq_some_iff.1 hs
      obtain ⟨f, hf, hfield⟩ := List.mem_map.1 hu
      obtain ⟨hname, rfl⟩ := Prod.mk.inj hfield
      obtain ⟨v, hv, hcounted⟩ := ih
      exact ⟨v, .field hd hshape hf hname hv, hcounted⟩

/-! ## Every path is found once -/

theorem nodup_wholePath : (r.wholePath unseen t).Nodup := by
  unfold wholePath
  split
  · exact List.nodup_singleton _
  · exact List.nodup_nil

theorem nodup_pathsWithin (hfields : r.DistinctFields) (unseen : List ℕ) (t : Ty) :
    (r.pathsWithin unseen t).Nodup := by
  fun_induction r.pathsWithin unseen t with
  | case1 => exact List.nodup_singleton _
  | case2 | case3 | case5 => exact List.nodup_nil
  | case4 unseen id tname args fields hs hid hk ih =>
      have hs : r.structFieldsOf? (.adt id tname args) = some fields := hs
      rw [List.nodup_flatMap]
      refine ⟨fun f _ => (ih f.2).map List.cons_injective, ?_⟩
      -- The paths of different fields differ in the first name.
      refine (List.pairwise_map.1 (hfields.nodup_structFieldsOf? hs)).imp ?_
      intro f g hne p hp hp'
      obtain ⟨q, -, rfl⟩ := List.mem_map.1 hp
      obtain ⟨q', -, hcons⟩ := List.mem_map.1 hp'
      exact hne (List.cons.inj hcons).1.symm
  | case6 | case7 => exact nodup_wholePath

/-! ## The empty path -/

theorem countedPaths_of_sharedRef (hk : r.kindOf t = .sharedRef) : r.countedPaths t = [[]] :=
  pathsWithin_of_sharedRef hk

theorem countedPaths_of_nil_mem (h : [] ∈ r.countedPaths t) :
    r.IsCounted t ∧ r.countedPaths t = [[]] := by
  obtain ⟨ids, hvia, -⟩ := mem_countedPaths_iff.1 h
  obtain ⟨u, hleads, hcounted⟩ := hvia.exists_leads
  cases hleads
  refine ⟨hcounted, ?_⟩
  rcases hcounted with hk | ⟨hk, hno, -⟩
  · exact countedPaths_of_sharedRef hk
  · have hs : r.structFieldsOf? t = none := by simpa [isStruct_iff] using hno
    rw [countedPaths_of_whole hk hs] at h ⊢
    rw [wholePath, if_pos (mem_wholePath_iff.1 h).2]

/-- The counted paths of a type exist: each leads, through structs only, to one type,
and that type is a counted reference or an inline value other than a struct that holds
one. No path is found twice, and the empty path is found only for a type that is counted
as a whole, which then has no other. -/
theorem countedPaths_real (hfields : r.DistinctFields) (t : Ty) :
    (∀ p ∈ r.countedPaths t, ∃ u, r.Leads t p u ∧ r.IsCounted u ∧ (∀ v, r.Leads t p v → v = u) ∧
      ∀ q rest, p = q ++ rest → rest ≠ [] → ∃ v, r.Leads t q v ∧ r.IsStruct v) ∧
    (r.countedPaths t).Nodup ∧
    ([] ∈ r.countedPaths t → r.IsCounted t ∧ r.countedPaths t = [[]]) := by
  refine ⟨fun p hp => ?_, nodup_pathsWithin hfields _ t, countedPaths_of_nil_mem⟩
  obtain ⟨ids, hvia, -⟩ := mem_countedPaths_iff.1 hp
  obtain ⟨u, hleads, hcounted⟩ := hvia.exists_leads
  refine ⟨u, hleads, hcounted, fun v hv => hv.unique hfields hleads, ?_⟩
  rintro q rest rfl hrest
  obtain ⟨v, hv, hu⟩ := Leads.append_iff.1 hleads
  exact ⟨v, hv, hu.isStruct hrest⟩

theorem distinctFields_nesting : nesting.DistinctFields :=
  distinctFields_of_forall (by decide)

/-- A path through two structs, the second put in for a parameter of the first. -/
theorem countedPaths_real_boxOf_node :
    nesting.countedPaths (boxOf node) = [["item", "data"]] ∧
    (∃ u, nesting.Leads (boxOf node) ["item", "data"] u ∧ nesting.IsCounted u) ∧
    ∃ v, nesting.Leads (boxOf node) ["item"] v ∧ nesting.IsStruct v := by
  have hpaths : nesting.countedPaths (boxOf node) = [["item", "data"]] := by cbv
  obtain ⟨hreal, -⟩ := countedPaths_real distinctFields_nesting (boxOf node)
  obtain ⟨u, hleads, hcounted, -, hinner⟩ := hreal ["item", "data"] (by simp [hpaths])
  exact ⟨hpaths, ⟨u, hleads, hcounted⟩, hinner ["item"] ["data"] rfl (by simp)⟩

end Registry

end ProgramSafety
