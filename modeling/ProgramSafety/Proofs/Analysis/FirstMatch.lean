import Mathlib.Data.List.Perm.Subperm
import ProgramSafety.Proofs.Analysis.MatchCoverage

/-!
# First-match semantics of coverage

`Coverage.ofMatch` goes through the arms once and keeps the list of the variants covered
so far. What it means is said here without such a list, by the arms alone: a variant
belongs to the first pattern that takes it, the missing variants are those that nothing
names, and a match is flawless (`Coverage.Flawless`) if its alternatives fit the variants
they name and no part of it is superfluous.

The patterns that lie behind are carried along explicitly. `Coverage.Covers` ties them
to the list of covered variants and is kept from arm to arm, so that each arm is judged
against the patterns before it (`Coverage.ArmFits`).
-/

namespace ProgramSafety

namespace Pattern

def alternatives : Pattern → List Alternative
  | catchAll _ => []
  | variants _ as => as

def named (p : Pattern) : List String := p.alternatives.map Alternative.name

end Pattern

namespace Coverage

/-- The alternative names a variant and can bind its payload. -/
def Names (vs : List Variant) (a : Alternative) : Prop :=
  ∃ v ∈ vs, v.name = a.name ∧ a.bindings.Fits v.payload

/-- Every part of the match is in order and none of them is superfluous. -/
structure Flawless (vs : List Variant) (ps : List Pattern) : Prop where
  names : ∀ p ∈ ps, ∀ a ∈ p.alternatives, Names vs a
  named_once : (ps.flatMap Pattern.named).Nodup
  nothing_after : ps.Pairwise fun p q => isCatchAll p = true → ∀ v ∈ vs, v.name ∉ q.named
  catches : ∀ i span, ps[i]? = some (.catchAll span) →
    ∃ v ∈ vs, ps.findIdx? (·.takes v.name) = some i
  handled : ∀ v ∈ vs, ∃ p ∈ ps, p.takes v.name = true

def unnamed (vs : List Variant) (ps : List Pattern) : List String :=
  (vs.map Variant.name).filter (· ∉ ps.flatMap Pattern.named)

def missingProblem (enum : String) (vs : List Variant) (ps : List Pattern) (span : Span) :
    List Problem :=
  if (∀ p ∈ ps, isCatchAll p = false) ∧ unnamed vs ps ≠ [] then
    [⟨.nonExhaustiveMatch enum (unnamed vs ps), span⟩]
  else []

/-- What an arm must be after the given patterns: an alternative names a variant that is
still there, a catch-all finds one. -/
def ArmFits (vs : List Variant) (before : List Pattern) : Pattern → Prop
  | .catchAll _ => ∃ v ∈ vs, ∀ q ∈ before, q.takes v.name = false
  | .variants _ as =>
    (∀ a ∈ as, Names vs a ∧ ∀ q ∈ before, q.takes a.name = false) ∧
      (as.map Alternative.name).Nodup

structure Covers (vs : List Variant) (before : List Pattern) (covered : List String)
    (caught : Bool) : Prop where
  nodup : covered.Nodup
  mem_iff : ∀ name, name ∈ covered ↔
    name ∈ vs.map Variant.name ∧ ∃ p ∈ before, p.takes name = true
  caught_eq : caught = before.any isCatchAll

variable {enum name : String} {vs : List Variant} {covered : List String} {caught : Bool}
  {span : Span} {p : Pattern} {ps before : List Pattern} {a : Alternative} {v : Variant}
  {as : List Alternative}

/-! ## Patterns -/

theorem takes_eq_false_iff : p.takes name = false ↔ isCatchAll p = false ∧ name ∉ p.named := by
  cases p with
  | catchAll span => simp [Pattern.takes, isCatchAll]
  | variants span as => simp [Pattern.takes, isCatchAll, Pattern.named, Pattern.alternatives]

/-! ## Alternatives -/

/-- Names that differ pick out one variant each. -/
theorem find?_eq_some_iff (hvs : (vs.map Variant.name).Nodup) :
    vs.find? (·.name == name) = some v ↔ v ∈ vs ∧ v.name = name := by
  constructor
  · intro hv
    exact ⟨List.mem_of_find?_eq_some hv, by simpa using List.find?_some hv⟩
  · rintro ⟨hv, rfl⟩
    obtain ⟨w, hw⟩ := exists_find?_iff.2 (List.mem_map_of_mem hv)
    have hname : w.name = v.name := by simpa using List.find?_some hw
    rw [hw, List.inj_on_of_nodup_map hvs (List.mem_of_find?_eq_some hw) hv hname]

theorem names_iff (hvs : (vs.map Variant.name).Nodup) :
    Names vs a ↔ ∃ v, vs.find? (·.name == a.name) = some v ∧ bindingProblem? v a = none := by
  simp only [Names, find?_eq_some_iff hvs, bindingProblem?_eq_none_iff, and_assoc]

/-! ## One arm -/

theorem nodup_uncovered (covered names : List String) : (uncovered covered names).Nodup := by
  fun_induction uncovered covered names with
  | case1 => exact List.nodup_nil
  | case2 covered n ns hn ih => exact ih
  | case3 covered n ns hn ih =>
      refine List.nodup_cons.2 ⟨fun hmem => ?_, ih⟩
      exact (mem_uncovered_iff.1 hmem).2 List.mem_cons_self

theorem nodup_ofAlternatives (enum : String) (vs : List Variant) (covered : List String)
    (as : List Alternative) : (ofAlternatives enum vs covered as).1.Nodup := by
  induction as generalizing covered with
  | nil => exact List.nodup_nil
  | cons a as ih =>
      rw [ofAlternatives]
      split
      · exact ih covered
      · split
        · exact ih covered
        · refine List.nodup_cons.2 ⟨fun hmem => ?_, ih _⟩
          exact (mem_ofAlternatives_iff.1 hmem).2.1 List.mem_cons_self

theorem nodup_ofPattern (enum : String) (vs : List Variant) (covered : List String)
    (caught : Bool) (p : Pattern) : (ofPattern enum vs covered caught p).1.Nodup := by
  cases p with
  | catchAll span => exact nodup_uncovered covered _
  | variants span as => exact nodup_ofAlternatives enum vs covered as

theorem ofAlternatives_eq_nil_iff (hvs : (vs.map Variant.name).Nodup) :
    (ofAlternatives enum vs covered as).2 = [] ↔
      (∀ a ∈ as, Names vs a ∧ a.name ∉ covered) ∧ (as.map Alternative.name).Nodup := by
  induction as generalizing covered with
  | nil => simp [ofAlternatives]
  | cons a as ih =>
      rw [ofAlternatives, List.forall_mem_cons, names_iff hvs]
      split
      next hnone => simp [hnone]
      next v hv =>
        split
        next hcovered =>
          have hmem : a.name ∈ covered := by simpa using hcovered
          simp [hmem]
        next hnew =>
          have hnot : a.name ∉ covered := by simpa using hnew
          have hshape : (∃ w, some v = some w ∧ bindingProblem? w a = none) ↔
              bindingProblem? v a = none := by simp
          rw [List.append_eq_nil_iff, ih, Option.toList_eq_nil_iff,
            forall_notMem_cons_and_nodup_iff Alternative.name, hv, hshape, and_iff_left hnot,
            and_assoc]

/-- Of a variant, to be covered is to be taken by a pattern that lies behind. -/
theorem Covers.notMem_iff (hc : Covers vs before covered caught)
    (hname : name ∈ vs.map Variant.name) :
    name ∉ covered ↔ ∀ q ∈ before, q.takes name = false := by
  rw [hc.mem_iff]
  simp [hname]

/-- All variants are covered after a catch-all, and when as many are covered as there
are. -/
theorem Covers.all_covered_iff (hvs : (vs.map Variant.name).Nodup)
    (hc : Covers vs before covered caught) :
    (caught || covered.length == vs.length) = true ↔ ∀ v ∈ vs, v.name ∈ covered := by
  have hsub : covered ⊆ vs.map Variant.name := fun n hn => ((hc.mem_iff n).1 hn).1
  have hperm := List.subperm_of_subset hc.nodup hsub
  rw [Bool.or_eq_true, beq_iff_eq]
  constructor
  · rintro (hcaught | hlength) v hv
    · rw [hc.caught_eq, List.any_eq_true] at hcaught
      obtain ⟨q, hq, hall⟩ := hcaught
      cases q with
      | catchAll span => exact (hc.mem_iff _).2 ⟨List.mem_map_of_mem hv, _, hq, rfl⟩
      | variants span as => cases hall
    · have hle : (vs.map Variant.name).length ≤ covered.length := by simp [hlength]
      exact (hperm.perm_of_length_le hle).mem_iff.2 (List.mem_map_of_mem hv)
  · intro hall
    right
    refine Nat.le_antisymm (by simpa using hperm.length_le) ?_
    have hsub' : vs.map Variant.name ⊆ covered := by
      intro n hn
      obtain ⟨v, hv, rfl⟩ := List.mem_map.1 hn
      exact hall v hv
    simpa using (List.subperm_of_subset hvs hsub').length_le

/-- An arm has no problem exactly if it fits after the patterns behind it. -/
theorem Covers.ofPattern_eq_nil_iff (hvs : (vs.map Variant.name).Nodup)
    (hc : Covers vs before covered caught) :
    (ofPattern enum vs covered caught p).2 = [] ↔ ArmFits vs before p := by
  cases p with
  | catchAll span =>
      rw [ofPattern, ArmFits, ite_eq_right_iff]
      simp only [List.cons_ne_nil, imp_false]
      rw [hc.all_covered_iff hvs]
      constructor
      · intro hnot
        obtain ⟨v, hv, hname⟩ := by simpa using hnot
        exact ⟨v, hv, (hc.notMem_iff (List.mem_map_of_mem hv)).1 hname⟩
      · rintro ⟨v, hv, hleft⟩ hall
        exact (hc.notMem_iff (List.mem_map_of_mem hv)).2 hleft (hall v hv)
  | variants span as =>
      rw [ofPattern, ofAlternatives_eq_nil_iff hvs, ArmFits]
      refine and_congr_left fun _ => forall₂_congr fun a _ => and_congr_right fun hnames => ?_
      obtain ⟨v, hv, hname, -⟩ := hnames
      exact hc.notMem_iff (hname ▸ List.mem_map_of_mem hv)

theorem Covers.nil (vs : List Variant) : Covers vs [] [] false :=
  ⟨List.nodup_nil, by simp, rfl⟩

/-- The arm covers what it takes. -/
theorem Covers.step (hc : Covers vs before covered caught) (enum : String) (p : Pattern) :
    Covers vs (before ++ [p]) (covered ++ (ofPattern enum vs covered caught p).1)
      (caught || isCatchAll p) where
  nodup := by
    refine List.nodup_append'.2 ⟨hc.nodup, nodup_ofPattern enum vs covered caught p, ?_⟩
    intro n hcovered hhandled
    exact (mem_ofPattern_iff.1 hhandled).2.1 hcovered
  mem_iff n := by
    have hsplit : (∃ q ∈ before ++ [p], q.takes n = true) ↔
        (∃ q ∈ before, q.takes n = true) ∨ p.takes n = true := by
      simp [or_and_right, exists_or]
    rw [List.mem_append, mem_ofPattern_iff, hsplit, and_or_left, ← hc.mem_iff]
    by_cases hcovered : n ∈ covered
    · simp [hcovered]
    · simp [hcovered]
  caught_eq := by simp [hc.caught_eq]

/-! ## All arms -/

def ArmsFit (vs : List Variant) (before ps : List Pattern) : Prop :=
  ∀ i p, ps[i]? = some p → ArmFits vs (before ++ ps.take i) p

theorem armsFit_cons : ArmsFit vs before (p :: ps) ↔
    ArmFits vs before p ∧ ArmsFit vs (before ++ [p]) ps := by
  constructor
  · intro h
    refine ⟨by simpa using h 0 p rfl, fun i q hq => ?_⟩
    simpa using h (i + 1) q (by simpa using hq)
  · rintro ⟨hp, hps⟩ i q hq
    cases i with
    | zero =>
        obtain rfl : p = q := by simpa using hq
        simpa using hp
    | succ i => simpa using hps i q (by simpa using hq)

/-! ## Missing variants -/

theorem kind_fieldProblem? {fs : List Field} {seen : List String} {bs : List FieldBinding}
    {x : Problem} (hx : fieldProblem? v fs seen bs = some x) : x.kind = .patternShape := by
  induction bs generalizing seen with
  | nil => cases hx
  | cons b bs ih =>
      rw [fieldProblem?] at hx
      split at hx
      · cases hx
        rfl
      · split at hx
        · cases hx
          rfl
        · exact ih hx

theorem kind_bindingProblem? {x : Problem} (hx : bindingProblem? v a = some x) :
    x.kind = .patternShape := by
  obtain ⟨span, name, bindings⟩ := a
  cases bindings with
  | none => simp [bindingProblem?] at hx
  | positional names =>
      cases hp : v.payload <;> simp only [bindingProblem?, hp] at hx
      · split at hx <;> cases hx
        rfl
      · split at hx <;> cases hx
        rfl
      · cases hx
        rfl
  | named bs =>
      cases hp : v.payload <;> simp only [bindingProblem?, hp] at hx
      · split at hx <;> cases hx
        rfl
      · cases hx
        rfl
      · exact kind_fieldProblem? hx

/-- What is wrong with an arm is never that a variant is missing. -/
theorem kind_ofAlternatives {x : Problem} (hx : x ∈ (ofAlternatives enum vs covered as).2) :
    x.kind = .patternShape ∨ x.kind = .unreachableArm := by
  induction as generalizing covered with
  | nil => cases hx
  | cons a as ih =>
      have hshape : ∀ v : Variant, x ∈ (bindingProblem? v a).toList → x.kind = .patternShape :=
        fun v hx => kind_bindingProblem? (Option.mem_toList.1 hx)
      rw [ofAlternatives] at hx
      split at hx
      · rcases List.mem_cons.1 hx with rfl | hx
        · exact Or.inl rfl
        · exact ih hx
      · split at hx
        · rcases List.mem_append.1 hx with hx | hx
          · exact Or.inl (hshape _ hx)
          · rcases List.mem_cons.1 hx with rfl | hx
            · exact Or.inr rfl
            · exact ih hx
        · rcases List.mem_append.1 hx with hx | hx
          · exact Or.inl (hshape _ hx)
          · exact ih hx

theorem kind_ofPattern {x : Problem} (hx : x ∈ (ofPattern enum vs covered caught p).2) :
    x.kind = .patternShape ∨ x.kind = .unreachableArm := by
  cases p with
  | catchAll span =>
      rw [ofPattern] at hx
      split at hx
      · rw [List.mem_singleton.1 hx]
        exact Or.inr rfl
      · cases hx
  | variants span as => exact kind_ofAlternatives hx

/-- Without a catch-all, the variants missing at the end are those that nothing names. -/
theorem Covers.missing_eq (hc : Covers vs ps covered caught)
    (hps : ∀ p ∈ ps, isCatchAll p = false) : missing vs covered = unnamed vs ps := by
  refine List.filter_congr fun n hn => ?_
  have hiff : n ∉ covered ↔ n ∉ ps.flatMap Pattern.named := by
    rw [hc.notMem_iff hn, List.mem_flatMap, not_exists]
    simp only [takes_eq_false_iff, not_and]
    exact forall₂_congr fun p hp => and_iff_right (hps p hp)
  rw [Bool.eq_iff_iff, decide_eq_true_iff, ← hiff, Bool.not_eq_true', ← Bool.not_eq_true,
    List.contains_iff_mem]

theorem Covers.problems_nil (hc : Covers vs ps covered caught) (enum : String) (span : Span) :
    (ofPatterns enum vs span covered caught []).problems = missingProblem enum vs ps span := by
  rw [ofPatterns, missingProblem]
  by_cases hps : ∀ p ∈ ps, isCatchAll p = false
  · have hcaught : caught = false := by
      rw [hc.caught_eq, List.any_eq_false]
      simpa using hps
    simp only [hcaught, hc.missing_eq hps, Bool.false_or, List.isEmpty_iff]
    by_cases hleft : unnamed vs ps = []
    · rw [if_pos hleft, if_neg fun h => h.2 hleft]
    · rw [if_neg hleft, if_pos ⟨hps, hleft⟩]
  · have hcaught : caught = true := by
      rw [hc.caught_eq, List.any_eq_true]
      simpa using hps
    simp only [hcaught, Bool.true_or, if_true]
    rw [if_neg fun h => hps h.1]

theorem problems_cons (enum : String) (vs : List Variant) (span : Span) (covered : List String)
    (caught : Bool) (p : Pattern) (ps : List Pattern) :
    (ofPatterns enum vs span covered caught (p :: ps)).problems =
      (ofPattern enum vs covered caught p).2 ++
        (ofPatterns enum vs span (covered ++ (ofPattern enum vs covered caught p).1)
          (caught || isCatchAll p) ps).problems := rfl

/-- The arms that lie ahead, judged against those that lie behind. The problems of a match
are those of its arms, followed by the one that names the missing variants. -/
theorem Covers.problems_eq (hvs : (vs.map Variant.name).Nodup)
    (hc : Covers vs before covered caught) (enum : String) (span : Span) (ps : List Pattern) :
    ∃ found : List Problem, (∀ x ∈ found, x.kind ≠ .nonExhaustiveMatch) ∧
      (found = [] ↔ ArmsFit vs before ps) ∧
      (ofPatterns enum vs span covered caught ps).problems =
        found ++ missingProblem enum vs (before ++ ps) span := by
  induction ps generalizing before covered caught with
  | nil =>
      refine ⟨[], by simp, by simp [ArmsFit], ?_⟩
      rw [List.append_nil, hc.problems_nil, List.nil_append]
  | cons p ps ih =>
      obtain ⟨found, hkinds, hfound, heq⟩ := ih (hc.step enum p)
      refine ⟨(ofPattern enum vs covered caught p).2 ++ found, ?_, ?_, ?_⟩
      · intro x hx
        rcases List.mem_append.1 hx with hx | hx
        · rcases kind_ofPattern hx with hkind | hkind <;> simp [hkind]
        · exact hkinds x hx
      · rw [List.append_eq_nil_iff, hc.ofPattern_eq_nil_iff hvs, hfound, armsFit_cons]
      · rw [problems_cons, heq, List.append_assoc, List.append_assoc, List.singleton_append]

theorem filter_missingProblem :
    (missingProblem enum vs ps span).filter (·.kind = .nonExhaustiveMatch) =
      missingProblem enum vs ps span := by
  rw [missingProblem]
  split <;> rfl

/-- No variant is missing if each of them is taken by some pattern. -/
theorem missingProblem_eq_nil_iff : missingProblem enum vs ps span = [] ↔
    ∀ v ∈ vs, ∃ p ∈ ps, p.takes v.name = true := by
  rw [missingProblem, ite_eq_right_iff]
  simp only [List.cons_ne_nil, imp_false, not_and, not_not]
  by_cases hps : ∀ p ∈ ps, isCatchAll p = false
  · have htakes : ∀ n, (∃ p ∈ ps, p.takes n = true) ↔ n ∈ ps.flatMap Pattern.named := by
      intro n
      rw [List.mem_flatMap]
      refine exists_congr fun p => and_congr_right fun hp => ?_
      rw [← Bool.not_eq_false, takes_eq_false_iff, and_iff_right (hps p hp), not_not]
    rw [forall_prop_of_true hps, unnamed, List.filter_eq_nil_iff]
    simp [htakes]
  · refine iff_of_true (fun h => absurd h hps) fun v _ => ?_
    obtain ⟨p, hp, hall⟩ : ∃ p ∈ ps, isCatchAll p = true := by simpa using hps
    refine ⟨p, hp, ?_⟩
    rw [← Bool.not_eq_false, takes_eq_false_iff]
    simp [hall]

/-! ## Flawless matches -/

theorem pairwise_iff_take {α : Type} {R : α → α → Prop} {l : List α} :
    l.Pairwise R ↔ ∀ (i : ℕ) (y : α), l[i]? = some y → ∀ x ∈ l.take i, R x y := by
  rw [List.pairwise_iff_getElem]
  constructor
  · intro h i y hy x hx
    obtain ⟨hi, rfl⟩ := List.getElem?_eq_some_iff.1 hy
    obtain ⟨j, hj, rfl⟩ := List.mem_take_iff_getElem.1 hx
    exact h j i (by omega) hi (by omega)
  · intro h i j hi hj hij
    refine h j _ (List.getElem?_eq_getElem hj) _ (List.mem_take_iff_getElem.2 ⟨i, ?_, rfl⟩)
    omega

/-- A pattern that takes a variant is the first to do so if none before it does. -/
theorem findIdx?_eq_some_iff_take {i : ℕ} (hp : ps[i]? = some p)
    (htakes : p.takes name = true) :
    ps.findIdx? (·.takes name) = some i ↔ ∀ q ∈ ps.take i, q.takes name = false := by
  obtain ⟨hi, rfl⟩ := List.getElem?_eq_some_iff.1 hp
  rw [List.findIdx?_eq_some_iff_getElem]
  constructor
  · rintro ⟨_, _, hbefore⟩ q hq
    obtain ⟨j, hj, rfl⟩ := List.mem_take_iff_getElem.1 hq
    simpa using hbefore j (by omega)
  · intro hbefore
    refine ⟨hi, htakes, fun j hj => ?_⟩
    simpa using hbefore _ (List.mem_take_iff_getElem.2 ⟨j, by omega, rfl⟩)

theorem ArmFits.takes_eq_false (hp : ArmFits vs before p) (hname : name ∈ p.named)
    {q : Pattern} (hq : q ∈ before) : q.takes name = false := by
  cases p with
  | catchAll span => cases hname
  | variants span as =>
      obtain ⟨a, ha, rfl⟩ := List.mem_map.1 hname
      exact (hp.1 a ha).2 q hq

theorem ArmFits.names (hp : ArmFits vs before p) (ha : a ∈ p.alternatives) : Names vs a := by
  cases p with
  | catchAll span => cases ha
  | variants span as => exact (hp.1 a ha).1

theorem ArmFits.nodup (hp : ArmFits vs before p) : p.named.Nodup := by
  cases p with
  | catchAll span => exact List.nodup_nil
  | variants span as => exact hp.2

/-- A match is flawless exactly if every arm fits after the arms before it and every
variant is taken. -/
theorem flawless_iff : Flawless vs ps ↔
    ArmsFit vs [] ps ∧ ∀ v ∈ vs, ∃ p ∈ ps, p.takes v.name = true := by
  constructor
  · intro hf
    refine ⟨fun i p hp => ?_, hf.handled⟩
    rw [List.nil_append]
    cases p with
    | catchAll span =>
        obtain ⟨v, hv, hfirst⟩ := hf.catches i span hp
        exact ⟨v, hv, (findIdx?_eq_some_iff_take hp rfl).1 hfirst⟩
    | variants span as =>
        have hmem := List.mem_of_getElem? hp
        obtain ⟨hnodup, hdisjoint⟩ := List.nodup_flatMap.1 hf.named_once
        refine ⟨fun a ha => ⟨hf.names _ hmem a ha, fun q hq => ?_⟩, hnodup _ hmem⟩
        have hname : a.name ∈ (Pattern.variants span as).named := List.mem_map_of_mem ha
        obtain ⟨v, hv, heq, -⟩ := hf.names _ hmem a ha
        refine takes_eq_false_iff.2 ⟨?_, fun hq' => ?_⟩
        · rw [← Bool.not_eq_true]
          intro hall
          exact pairwise_iff_take.1 hf.nothing_after i _ hp q hq hall v hv (heq ▸ hname)
        · exact pairwise_iff_take.1 hdisjoint i _ hp q hq hq' hname
  · rintro ⟨hfits, hhandled⟩
    have hfits : ∀ i p, ps[i]? = some p → ArmFits vs (ps.take i) p := hfits
    have hnamed : ps.Pairwise fun q p => ∀ n ∈ p.named, q.takes n = false :=
      pairwise_iff_take.2 fun i p hp q hq n hn => (hfits i p hp).takes_eq_false hn hq
    refine ⟨?_, List.nodup_flatMap.2 ⟨?_, ?_⟩, ?_, ?_, hhandled⟩
    · intro p hp a ha
      obtain ⟨i, hi⟩ := List.mem_iff_getElem?.1 hp
      exact (hfits i p hi).names ha
    · intro p hp
      obtain ⟨i, hi⟩ := List.mem_iff_getElem?.1 hp
      exact (hfits i p hi).nodup
    · exact hnamed.imp fun h n hq hn => (takes_eq_false_iff.1 (h n hn)).2 hq
    · refine hnamed.imp fun h hall v _ hn => ?_
      exact Bool.noConfusion (hall.symm.trans (takes_eq_false_iff.1 (h _ hn)).1)
    · intro i span hp
      obtain ⟨v, hv, hleft⟩ := hfits i _ hp
      exact ⟨v, hv, (findIdx?_eq_some_iff_take hp rfl).2 hleft⟩

theorem nodup_of_mem_arms {handled : List String}
    (h : handled ∈ (ofPatterns enum vs span covered caught ps).arms) : handled.Nodup := by
  induction ps generalizing covered caught with
  | nil => cases h
  | cons p ps ih =>
      rw [arms_cons] at h
      rcases List.mem_cons.1 h with rfl | h
      · exact nodup_ofPattern enum vs covered caught p
      · exact ih h

/-- An arm lists a variant once if it is the first to take it, and else not at all. -/
theorem count_handled {i : ℕ} {handled : List String}
    (h : (ofMatch enum vs ps span).arms[i]? = some handled) (hv : v ∈ vs) :
    handled.count v.name = if ps.findIdx? (·.takes v.name) = some i then 1 else 0 := by
  have hnodup : handled.Nodup := nodup_of_mem_arms (List.mem_of_getElem? h)
  have hmem : v.name ∈ handled ↔ ps.findIdx? (·.takes v.name) = some i := by
    have hhandles : v.name ∈ handled ↔ Handles (ofMatch enum vs ps span).arms i v.name := by
      simp [Handles, h]
    rw [hhandles, ofMatch, handles_iff]
    simp [List.mem_map_of_mem hv]
  rw [hnodup.count]
  simp only [hmem]

/-- For distinct variants, the coverage of a match lists each variant once, at the first
arm that takes it, reports the missing variants in the order of their declaration, and
has no problem exactly if the match is flawless. -/
theorem ofMatch_first_match (enum : String) (vs : List Variant) (ps : List Pattern) (span : Span)
    (hvs : (vs.map Variant.name).Nodup) :
    (ofMatch enum vs ps span).arms.length = ps.length ∧
    (∀ v ∈ vs, ∀ i handled, (ofMatch enum vs ps span).arms[i]? = some handled →
      handled.count v.name = if ps.findIdx? (·.takes v.name) = some i then 1 else 0) ∧
    (∀ handled ∈ (ofMatch enum vs ps span).arms, ∀ name ∈ handled, ∃ v ∈ vs, v.name = name) ∧
    (ofMatch enum vs ps span).problems.filter (·.kind = .nonExhaustiveMatch) =
      (if (∀ p ∈ ps, isCatchAll p = false) ∧ unnamed vs ps ≠ [] then
        [⟨.nonExhaustiveMatch enum (unnamed vs ps), span⟩]
      else []) ∧
    ((ofMatch enum vs ps span).problems = [] ↔ Flawless vs ps) := by
  obtain ⟨found, hkinds, hfound, hproblems⟩ := (Covers.nil vs).problems_eq hvs enum span ps
  rw [List.nil_append] at hproblems
  refine ⟨length_arms enum vs span [] false ps, fun v hv i handled h => count_handled h hv,
    fun handled h name hname => ?_, ?_, ?_⟩
  · obtain ⟨i, hi⟩ := List.mem_iff_getElem?.1 h
    have hhandles : Handles (ofMatch enum vs ps span).arms i name := ⟨handled, hi, hname⟩
    obtain ⟨v, hv, hvname⟩ := List.mem_map.1 (handles_iff.1 hhandles).1
    exact ⟨v, hv, hvname⟩
  · have hnone : found.filter (·.kind = .nonExhaustiveMatch) = [] :=
      List.filter_eq_nil_iff.2 (by simpa using hkinds)
    rw [ofMatch, hproblems, List.filter_append, hnone, List.nil_append, filter_missingProblem,
      missingProblem]
  · rw [ofMatch, hproblems, List.append_eq_nil_iff, hfound, missingProblem_eq_nil_iff,
      flawless_iff]

end Coverage

namespace Figures

def variants : List Variant :=
  [⟨"point", .nowhere, none, none, .unit⟩,
   ⟨"circle", .nowhere, none, none, .single (.float .f64)⟩,
   ⟨"line", .nowhere, none, none, .unit⟩,
   ⟨"box", .nowhere, none, none, .fields [⟨"x", .bool, .nowhere⟩, ⟨"y", .bool, .nowhere⟩]⟩]

def bound : Pattern :=
  .variants .nowhere
    [⟨.nowhere, "box",
        .named [⟨⟨"y", .nowhere⟩, ⟨"b", .nowhere⟩⟩, ⟨⟨"x", .nowhere⟩, ⟨"a", .nowhere⟩⟩]⟩,
     ⟨.nowhere, "circle", .positional [⟨"r", .nowhere⟩]⟩]

theorem ofMatch_first_match_figures :
    (variants.map Variant.name).Nodup ∧
      Coverage.Flawless variants [bound, .catchAll .nowhere] ∧
      (Coverage.ofMatch "Figure" variants [bound] .nowhere).problems.filter
          (·.kind = .nonExhaustiveMatch) =
        [⟨.nonExhaustiveMatch "Figure" ["point", "line"], .nowhere⟩] ∧
      ¬ Coverage.Flawless variants [.catchAll .nowhere, bound] := by
  have hvs : (variants.map Variant.name).Nodup := by decide
  obtain ⟨-, -, -, -, hcaught⟩ :=
    Coverage.ofMatch_first_match "Figure" variants [bound, .catchAll .nowhere] .nowhere hvs
  obtain ⟨-, -, -, hmissing, -⟩ :=
    Coverage.ofMatch_first_match "Figure" variants [bound] .nowhere hvs
  obtain ⟨-, -, -, -, hafter⟩ :=
    Coverage.ofMatch_first_match "Figure" variants [.catchAll .nowhere, bound] .nowhere hvs
  refine ⟨hvs, hcaught.1 (by decide), hmissing.trans (by decide), fun h => ?_⟩
  exact absurd (hafter.2 h) (by decide)

end Figures

end ProgramSafety
