import ProgramSafety.Proofs.Store.View

/-!
# Overwrites

An overwrite is refused, for one of the reasons that `Heap.FieldRefused` and
`Heap.ItemRefused` list, or it puts the new value in the place of the old one and drops
the old one (`Heap.setField_cases`, `Heap.setElement_cases`). The strong handles of the
object and of the value that is outside change places with it. An appended item takes no
value's place (`Heap.push_cases`).
-/

namespace ProgramSafety.Heap

inductive FieldRefused (s : Heap) (h : Handle) (name : String) : Fault → Prop where
  | dead (he : s.get? h = none) : FieldRefused s h name (.danglingHandle h.index)
  | isArray {n : ℕ} {items : List Value} (he : s.get? h = some ⟨n, .array items⟩) :
      FieldRefused s h name (.kindMismatch .classInstance)
  | noField {n : ℕ} {c : String} {fields : List (String × Value)}
      (he : s.get? h = some ⟨n, .classInstance c fields⟩) (hname : ∀ p ∈ fields, p.1 ≠ name) :
      FieldRefused s h name (.unknownField name)

inductive ItemRefused (s : Heap) (h : Handle) (index : Int) : Fault → Prop where
  | dead (he : s.get? h = none) : ItemRefused s h index (.danglingHandle h.index)
  | isInstance {n : ℕ} {c : String} {fields : List (String × Value)}
      (he : s.get? h = some ⟨n, .classInstance c fields⟩) :
      ItemRefused s h index (.kindMismatch .array)
  | outside {n : ℕ} {items : List Value} (he : s.get? h = some ⟨n, .array items⟩)
      (hindex : ¬ (0 ≤ index ∧ index < items.length)) :
      ItemRefused s h index (.outOfBounds index items.length)

variable {s : Heap} {h : Handle} {f : Fault} {v : Value}

/-! ## Refusals -/

theorem replaceField_eq_none_iff {name : String} {fields : List (String × Value)} :
    replaceField name v fields = none ↔ ∀ p ∈ fields, p.1 ≠ name := by
  induction fields with
  | nil => simp [replaceField]
  | cons p fields ih =>
      obtain ⟨n, old⟩ := p
      rw [replaceField, List.forall_mem_cons]
      split
      next hname => simp [hname]
      next hname =>
        rw [Option.map_eq_none_iff, ih]
        exact (and_iff_right hname).symm

theorem checkIndex_eq_error {index : Int} {length : ℕ} (hindex : ¬ (0 ≤ index ∧ index < length)) :
    checkIndex index length = .error (.outOfBounds index length) := if_neg hindex

theorem setField_of_refused {name : String} (hf : s.FieldRefused h name f) (v : Value) :
    setField h name v s = .error f s := by
  cases hf with
  | dead he => simp only [setField, he]
  | isArray he => simp only [setField, he]
  | noField he hname => simp only [setField, he, replaceField_eq_none_iff.2 hname]

theorem setElement_of_refused {index : Int} (hf : s.ItemRefused h index f) (v : Value) :
    setElement h index v s = .error f s := by
  cases hf with
  | dead he => simp only [setElement, he]
  | isInstance he => simp only [setElement, he]
  | outside he hindex => simp only [setElement, he, checkIndex_eq_error hindex]

/-! ## What a write does -/

/-- The first field of the name is overwritten and the others stay where they are. -/
theorem replaceField_eq_some {name : String} {old : Value} {fields fields' : List (String × Value)}
    (hrep : replaceField name v fields = some (old, fields')) :
    ∃ before after, fields = before ++ (name, old) :: after ∧
      fields' = before ++ (name, v) :: after ∧ ∀ p ∈ before, p.1 ≠ name := by
  induction fields generalizing fields' with
  | nil => simp [replaceField] at hrep
  | cons p fields ih =>
      obtain ⟨n, u⟩ := p
      unfold replaceField at hrep
      split at hrep
      next hname =>
        cases hrep
        exact ⟨[], fields, by rw [hname, List.nil_append], by rw [hname, List.nil_append], by simp⟩
      next hname =>
        obtain ⟨⟨old', fs⟩, hfs, heq⟩ := Option.map_eq_some_iff.1 hrep
        cases heq
        obtain ⟨before, after, rfl, rfl, hbefore⟩ := ih hfs
        exact ⟨(n, u) :: before, after, rfl, rfl, List.forall_mem_cons.2 ⟨hname, hbefore⟩⟩

theorem setField_cases (h : Handle) (name : String) (v : Value) (s : Heap) :
    (∃ f, s.FieldRefused h name f) ∨
      ∃ n c fields old fields', s.get? h = some ⟨n, .classInstance c fields⟩ ∧
        replaceField name v fields = some (old, fields') ∧
        setField h name v s = drop old (s.setEntry h ⟨n, .classInstance c fields'⟩) := by
  cases he : s.get? h with
  | none => exact Or.inl ⟨_, .dead he⟩
  | some e =>
      obtain ⟨n, o⟩ := e
      cases o with
      | array items => exact Or.inl ⟨_, .isArray he⟩
      | classInstance c fields =>
          cases hrep : replaceField name v fields with
          | none => exact Or.inl ⟨_, .noField he (replaceField_eq_none_iff.1 hrep)⟩
          | some p =>
              exact Or.inr ⟨n, c, fields, p.1, p.2, rfl, hrep,
                by simp only [setField, he, hrep]⟩

theorem setElement_cases (h : Handle) (index : Int) (v : Value) (s : Heap) :
    (∃ f, s.ItemRefused h index f) ∨
      ∃ n items old, s.get? h = some ⟨n, .array items⟩ ∧ 0 ≤ index ∧
        items[index.toNat]? = some old ∧
        setElement h index v s =
          drop old (s.setEntry h ⟨n, .array (items.set index.toNat v)⟩) := by
  cases he : s.get? h with
  | none => exact Or.inl ⟨_, .dead he⟩
  | some e =>
      obtain ⟨n, o⟩ := e
      cases o with
      | classInstance c fields => exact Or.inl ⟨_, .isInstance he⟩
      | array items =>
          by_cases hindex : 0 ≤ index ∧ index < items.length
          · have hok : checkIndex index items.length = .ok index.toNat := if_pos hindex
            have hold : items[index.toNat]? = some items[index.toNat] :=
              List.getElem?_eq_getElem (by omega)
            exact Or.inr ⟨n, items, _, rfl, hindex.1, hold,
              by simp only [setElement, he, hok, hold]⟩
          · exact Or.inl ⟨_, .outside he hindex⟩

theorem push_cases (h : Handle) (v : Value) (s : Heap) :
    (∃ f, push h v s = .error f s) ∨
      ∃ n items, s.get? h = some ⟨n, .array items⟩ ∧
        push h v s = .ok () (s.setEntry h ⟨n, .array (items ++ [v])⟩) := by
  cases he : s.get? h with
  | none => exact Or.inl ⟨_, by simp only [push, he]; rfl⟩
  | some e =>
      obtain ⟨n, o⟩ := e
      cases o with
      | classInstance c fields => exact Or.inl ⟨_, by simp only [push, he]; rfl⟩
      | array items => exact Or.inr ⟨n, items, rfl, by simp only [push, he]⟩

/-! ## Handles that change places -/

theorem handles_replaceField {name : String} {v old : Value} {fields fields' : List (String × Value)}
    (hrep : replaceField name v fields = some (old, fields')) (c : String) :
    (↑old.handles + ↑(Object.classInstance c fields').handles : Multiset Handle) =
      ↑v.handles + ↑(Object.classInstance c fields).handles := by
  obtain ⟨before, after, rfl, rfl, -⟩ := replaceField_eq_some hrep
  have hsplit : ∀ w : Value,
      ((Object.classInstance c (before ++ (name, w) :: after)).handles : Multiset Handle) =
        ↑w.handles + (↑(Object.classInstance c before).handles +
          ↑(Object.classInstance c after).handles) := by
    intro w
    simpa [Object.handles, Object.contents] using List.perm_append_comm_assoc _ _ _
  rw [hsplit, hsplit, add_left_comm]

theorem handles_array_set {items : List Value} {i : ℕ} {old : Value} (hold : items[i]? = some old)
    (v : Value) :
    (↑old.handles + ↑(Object.array (items.set i v)).handles : Multiset Handle) =
      ↑v.handles + ↑(Object.array items).handles := by
  induction items generalizing i with
  | nil => simp at hold
  | cons u items ih =>
      have hcons : ∀ (w : Value) (ws : List Value),
          ((Object.array (w :: ws)).handles : Multiset Handle) =
            ↑w.handles + ↑(Object.array ws).handles := by
        intro w ws
        simp [Object.handles, Object.contents]
      cases i with
      | zero =>
          obtain rfl : u = old := by simpa using hold
          rw [List.set_cons_zero, hcons, hcons, add_left_comm]
      | succ i =>
          rw [List.set_cons_succ, hcons, hcons, add_left_comm, ih (by simpa using hold),
            add_left_comm]

theorem handles_array_append (items : List Value) (v : Value) :
    ((Object.array (items ++ [v])).handles : Multiset Handle) =
      ↑v.handles + ↑(Object.array items).handles := by
  simp [Object.handles, Object.contents, add_comm]

end ProgramSafety.Heap
