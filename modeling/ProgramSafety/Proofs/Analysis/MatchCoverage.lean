import Mathlib.Data.List.Nodup
import ProgramSafety.Analysis.Coverage

/-!
# What the arms of a match handle

A variant is handled by the first arm whose pattern takes it, and by no other arm
(`Coverage.handles_iff`). In a match without problems every variant is taken by some
pattern (`Coverage.exists_takes_of_problems_eq_nil`), and every alternative names a
variant and binds its payload in the way it is declared
(`Coverage.bindingProblem?_of_problems_eq_nil`).
-/

namespace ProgramSafety

/-- The pattern matches the values of a variant. -/
def Pattern.takes (name : String) : Pattern → Bool
  | catchAll _ => true
  | variants _ alternatives => alternatives.any (·.name == name)

def Alternative.binders (a : Alternative) : List Ident :=
  match a.bindings with
  | .none => []
  | .positional names => names
  | .named fields => fields.map FieldBinding.binder

/-- The bindings are possible for a payload: none at all, or as many as there are for a
payload without names, or distinct ones of its fields. -/
def Bindings.Fits : Bindings → Payload Ty Field → Prop
  | .none, _ => True
  | .positional names, .unit => names = []
  | .named fields, .unit => fields = []
  | .positional names, .single _ => names.length = 1
  | .named _, .single _ => False
  | .positional _, .fields _ => False
  | .named fields, .fields fs =>
    (fields.map fun b => b.field.name).Nodup ∧ ∀ b ∈ fields, ∃ f ∈ fs, f.name = b.field.name

def Coverage.Handles (arms : List (List String)) (i : ℕ) (name : String) : Prop :=
  ∃ handled, arms[i]? = some handled ∧ name ∈ handled

namespace Coverage

variable {enum name : String} {vs : List Variant} {covered : List String} {caught : Bool}
  {span : Span} {p : Pattern} {ps : List Pattern} {a : Alternative} {as : List Alternative}

/-! ## One arm -/

theorem mem_uncovered_iff {names : List String} :
    name ∈ uncovered covered names ↔ name ∈ names ∧ name ∉ covered := by
  fun_induction uncovered covered names with
  | case1 => simp
  | case2 covered n ns hn ih =>
      rw [ih, List.mem_cons]
      constructor
      · rintro ⟨hmem, hnot⟩
        exact ⟨Or.inr hmem, hnot⟩
      · rintro ⟨rfl | hmem, hnot⟩
        · exact absurd (by simpa using hn) hnot
        · exact ⟨hmem, hnot⟩
  | case3 covered n ns hn ih =>
      rw [List.mem_cons, ih, List.mem_cons, List.mem_cons]
      constructor
      · rintro (rfl | ⟨hmem, hnot⟩)
        · exact ⟨Or.inl rfl, by simpa using hn⟩
        · exact ⟨Or.inr hmem, fun h => hnot (Or.inr h)⟩
      · rintro ⟨rfl | hmem, hnot⟩
        · exact Or.inl rfl
        · by_cases heq : name = n
          · exact Or.inl heq
          · exact Or.inr ⟨hmem, by simp [heq, hnot]⟩

theorem exists_find?_iff : (∃ v, vs.find? (·.name == name) = some v) ↔
    name ∈ vs.map Variant.name := by
  rw [← Option.isSome_iff_exists, List.find?_isSome]
  simp

theorem mem_ofAlternatives_iff : name ∈ (ofAlternatives enum vs covered as).1 ↔
    name ∈ vs.map Variant.name ∧ name ∉ covered ∧ as.any (·.name == name) = true := by
  induction as generalizing covered with
  | nil => simp [ofAlternatives]
  | cons a as ih =>
      rw [ofAlternatives, List.any_cons, Bool.or_eq_true, beq_iff_eq]
      by_cases heq : a.name = name
      · split
        next hnone =>
          have hnot : name ∉ vs.map Variant.name := by
            rw [← exists_find?_iff, ← heq, hnone]
            simp
          simp [ih, hnot]
        next v hv =>
          have hmem : name ∈ vs.map Variant.name := exists_find?_iff.1 ⟨v, heq ▸ hv⟩
          split
          next hcovered =>
            have hmem : name ∈ covered := by simpa [heq] using hcovered
            simp [ih, hmem]
          next hnew =>
            have hnot : name ∉ covered := by simpa [heq] using hnew
            simp [heq, hmem, hnot]
      · split
        · simp [ih, heq]
        · split
          · simp [ih, heq]
          · simp [ih, heq, Ne.symm heq]

/-- An arm handles what its pattern takes and no arm before it handled. -/
theorem mem_ofPattern_iff : name ∈ (ofPattern enum vs covered caught p).1 ↔
    name ∈ vs.map Variant.name ∧ name ∉ covered ∧ p.takes name = true := by
  cases p with
  | catchAll span =>
      rw [ofPattern, mem_uncovered_iff]
      simp [Pattern.takes]
  | variants span as => exact mem_ofAlternatives_iff

/-! ## All arms -/

theorem handles_cons_zero {handled : List String} {arms : List (List String)} :
    Handles (handled :: arms) 0 name ↔ name ∈ handled := by
  simp [Handles]

theorem handles_cons_succ {handled : List String} {arms : List (List String)} {i : ℕ} :
    Handles (handled :: arms) (i + 1) name ↔ Handles arms i name := by
  simp [Handles]

theorem arms_cons (enum : String) (vs : List Variant) (span : Span) (covered : List String)
    (caught : Bool) (p : Pattern) (ps : List Pattern) :
    (ofPatterns enum vs span covered caught (p :: ps)).arms =
      (ofPattern enum vs covered caught p).1 ::
        (ofPatterns enum vs span (covered ++ (ofPattern enum vs covered caught p).1)
          (caught || isCatchAll p) ps).arms := rfl

/-- A variant is handled by the first arm that takes it. -/
theorem handles_iff {i : ℕ} : Handles (ofPatterns enum vs span covered caught ps).arms i name ↔
    name ∈ vs.map Variant.name ∧ name ∉ covered ∧ ps.findIdx? (·.takes name) = some i := by
  induction ps generalizing covered caught i with
  | nil => simp [ofPatterns, Handles]
  | cons p ps ih =>
      rw [arms_cons, List.findIdx?_cons]
      cases i with
      | zero =>
          rw [handles_cons_zero, mem_ofPattern_iff]
          by_cases hp : p.takes name = true <;> simp [hp]
      | succ i =>
          -- What the first arm handles is covered for the others.
          rw [handles_cons_succ, ih, List.mem_append, mem_ofPattern_iff]
          by_cases hp : p.takes name = true
          · simp only [hp, if_true]
            constructor
            · rintro ⟨hname, hnot, -⟩
              exact absurd (or_iff_not_imp_left.2 fun hc => ⟨hname, hc, trivial⟩) hnot
            · rintro ⟨-, -, hzero⟩
              simp at hzero
          · simp [hp]

theorem length_arms (enum : String) (vs : List Variant) (span : Span) (covered : List String)
    (caught : Bool) (ps : List Pattern) :
    (ofPatterns enum vs span covered caught ps).arms.length = ps.length := by
  induction ps generalizing covered caught with
  | nil => rfl
  | cons p ps ih => rw [arms_cons, List.length_cons, List.length_cons, ih]

/-! ## Matches without problems -/

/-- A match without problems leaves no variant out. -/
theorem exists_takes_of_problems_eq_nil
    (h : (ofPatterns enum vs span covered caught ps).problems = [])
    (hname : name ∈ vs.map Variant.name) :
    name ∈ covered ∨ caught = true ∨ ∃ p ∈ ps, p.takes name = true := by
  induction ps generalizing covered caught with
  | nil =>
      simp only [ofPatterns] at h
      split at h
      next hdone =>
        rcases Bool.or_eq_true_iff.1 hdone with hcaught | hmissing
        · exact Or.inr (Or.inl hcaught)
        · left
          by_contra hnot
          have hmem : name ∈ missing vs covered :=
            List.mem_filter.2 ⟨hname, by simpa using hnot⟩
          rw [List.isEmpty_iff.1 hmissing] at hmem
          exact List.not_mem_nil hmem
      next => simp at h
  | cons p ps ih =>
      rw [ofPatterns] at h
      rcases ih (List.append_eq_nil_iff.1 h).2 with hcovered | hcaught | ⟨q, hq, htakes⟩
      · rcases List.mem_append.1 hcovered with hbefore | hhere
        · exact Or.inl hbefore
        · exact Or.inr (Or.inr ⟨p, List.mem_cons_self, (mem_ofPattern_iff.1 hhere).2.2⟩)
      · rcases Bool.or_eq_true_iff.1 hcaught with hcaught | hall
        · exact Or.inr (Or.inl hcaught)
        · refine Or.inr (Or.inr ⟨p, List.mem_cons_self, ?_⟩)
          cases p with
          | catchAll span => rfl
          | variants span as => simp [isCatchAll] at hall
      · exact Or.inr (Or.inr ⟨q, List.mem_cons_of_mem _ hq, htakes⟩)

/-- In a match without problems exactly one arm handles each variant. -/
theorem existsUnique_handles (h : (ofMatch enum vs ps span).problems = [])
    (hname : name ∈ vs.map Variant.name) : ∃! i, Handles (ofMatch enum vs ps span).arms i name := by
  have htakes : ∃ p ∈ ps, p.takes name = true := by
    rcases exists_takes_of_problems_eq_nil h hname with hcovered | hcaught | htakes
    · exact absurd hcovered List.not_mem_nil
    · cases hcaught
    · exact htakes
  obtain ⟨i, hi⟩ : ∃ i, ps.findIdx? (·.takes name) = some i := by
    rw [← Option.isSome_iff_exists, List.findIdx?_isSome, List.any_eq_true]
    exact htakes
  refine ⟨i, handles_iff.2 ⟨hname, List.not_mem_nil, hi⟩, ?_⟩
  intro j hj
  exact Option.some.inj ((handles_iff.1 hj).2.2.symm.trans hi)

theorem bindingProblem?_of_ofAlternatives (h : (ofAlternatives enum vs covered as).2 = [])
    (ha : a ∈ as) : ∃ v, vs.find? (·.name == a.name) = some v ∧ bindingProblem? v a = none := by
  induction as generalizing covered with
  | nil => simp at ha
  | cons x as ih =>
      rw [ofAlternatives] at h
      split at h
      · simp at h
      next v hv =>
        split at h
        · simp at h
        · obtain ⟨hshape, hrest⟩ := List.append_eq_nil_iff.1 h
          rcases List.mem_cons.1 ha with rfl | ha
          · exact ⟨v, hv, by simpa using hshape⟩
          · exact ih hrest ha

/-- In a match without problems every alternative names a variant and binds its payload
as it is declared. -/
theorem bindingProblem?_of_problems_eq_nil
    (h : (ofPatterns enum vs span covered caught ps).problems = []) {pspan : Span}
    (hp : .variants pspan as ∈ ps) (ha : a ∈ as) :
    ∃ v, vs.find? (·.name == a.name) = some v ∧ bindingProblem? v a = none := by
  induction ps generalizing covered caught with
  | nil => simp at hp
  | cons p ps ih =>
      rw [ofPatterns] at h
      obtain ⟨hhere, hrest⟩ := List.append_eq_nil_iff.1 h
      rcases List.mem_cons.1 hp with rfl | hp
      · exact bindingProblem?_of_ofAlternatives hhere ha
      · exact ih hrest hp

/-! ## Bindings -/

/-- Keys that are new one after the other are new and distinct. -/
theorem forall_notMem_cons_and_nodup_iff {α : Type} {P : α → Prop} (key : α → String)
    {seen : List String} {x : α} {l : List α} :
    (∀ y ∈ l, P y ∧ key y ∉ key x :: seen) ∧ (l.map key).Nodup ↔
      (∀ y ∈ l, P y ∧ key y ∉ seen) ∧ ((x :: l).map key).Nodup := by
  rw [List.map_cons, List.nodup_cons]
  constructor
  · rintro ⟨hl, hnodup⟩
    refine ⟨fun y hy => ⟨(hl y hy).1, fun h => (hl y hy).2 (List.mem_cons_of_mem _ h)⟩,
      fun hmem => ?_, hnodup⟩
    obtain ⟨y, hy, heq⟩ := List.mem_map.1 hmem
    exact (hl y hy).2 (by rw [heq]; exact List.mem_cons_self)
  · rintro ⟨hl, hx, hnodup⟩
    refine ⟨fun y hy => ⟨(hl y hy).1, ?_⟩, hnodup⟩
    rw [List.mem_cons, not_or]
    exact ⟨fun heq => hx (List.mem_map.2 ⟨y, hy, heq⟩), (hl y hy).2⟩

theorem fieldProblem?_eq_none_iff {v : Variant} {fs : List Field} {seen : List String}
    {bs : List FieldBinding} : fieldProblem? v fs seen bs = none ↔
      (∀ b ∈ bs, (∃ f ∈ fs, f.name = b.field.name) ∧ b.field.name ∉ seen) ∧
        (bs.map fun b => b.field.name).Nodup := by
  induction bs generalizing seen with
  | nil => simp [fieldProblem?]
  | cons b bs ih =>
      have hany : (fs.any (·.name == b.field.name)) = true ↔ ∃ f ∈ fs, f.name = b.field.name := by
        simp
      rw [fieldProblem?, List.forall_mem_cons]
      split
      next hfield =>
        rw [Bool.not_eq_true', ← Bool.not_eq_true, hany] at hfield
        simp [hfield]
      next hfield =>
        rw [Bool.not_eq_true', Bool.not_eq_false, hany] at hfield
        split
        next hseen =>
          have hseen : b.field.name ∈ seen := by simpa using hseen
          simp [hseen]
        next hseen =>
          have hseen : b.field.name ∉ seen := by simpa using hseen
          have hhead := And.intro hfield hseen
          rw [ih, and_iff_right hhead]
          exact forall_notMem_cons_and_nodup_iff (fun b : FieldBinding => b.field.name)

theorem bindingProblem?_eq_none_iff {v : Variant} :
    bindingProblem? v a = none ↔ a.bindings.Fits v.payload := by
  obtain ⟨span, name, bindings⟩ := a
  cases bindings with
  | none => simp [bindingProblem?, Bindings.Fits]
  | positional names => cases hp : v.payload <;> simp [bindingProblem?, Bindings.Fits, hp]
  | named bs =>
      cases hp : v.payload with
      | unit => simp [bindingProblem?, Bindings.Fits, hp]
      | single t => simp [bindingProblem?, Bindings.Fits, hp]
      | fields fs =>
          simp only [bindingProblem?, Bindings.Fits, hp]
          rw [fieldProblem?_eq_none_iff, and_comm]
          simp

/-- An alternative that fits its variant binds nothing, the single payload by position,
or fields that the payload has. -/
theorem shape_of_bindingProblem? {v : Variant} (h : bindingProblem? v a = none) :
    a.binders = [] ∨ (∃ n t, a.bindings = .positional [n] ∧ v.payload = .single t) ∨
      ∃ bs fs, a.bindings = .named bs ∧ v.payload = .fields fs ∧
        ∀ b ∈ bs, ∃ f, fs.find? (·.name == b.field.name) = some f := by
  rw [bindingProblem?_eq_none_iff] at h
  unfold Alternative.binders
  cases hb : a.bindings with
  | none => exact Or.inl rfl
  | positional names =>
      cases hp : v.payload with
      | unit => exact Or.inl (by simpa [hb, hp, Bindings.Fits] using h)
      | single t =>
          rw [hb, hp] at h
          obtain ⟨n, rfl⟩ := List.length_eq_one_iff.1 h
          exact Or.inr (Or.inl ⟨n, t, rfl, rfl⟩)
      | fields fs => simp [hb, hp, Bindings.Fits] at h
  | named bs =>
      cases hp : v.payload with
      | unit => exact Or.inl (by simpa [hb, hp, Bindings.Fits] using h)
      | single t => simp [hb, hp, Bindings.Fits] at h
      | fields fs =>
          rw [hb, hp] at h
          refine Or.inr (Or.inr ⟨bs, fs, rfl, rfl, fun b hmem => ?_⟩)
          rw [← Option.isSome_iff_exists, List.find?_isSome]
          simpa using h.2 b hmem

end Coverage

end ProgramSafety
