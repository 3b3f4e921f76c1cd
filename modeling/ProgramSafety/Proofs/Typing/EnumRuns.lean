import Mathlib.Data.Nat.Find
import Mathlib.Data.List.Forall2
import ProgramSafety.Typing.EnumValue

/-!
# Runs of enum values

The variants of an enum fall into runs. A run begins where a value is written, or at the
first variant, and counts up from there (`EnumValue.Run.Covers`). So the value of a
variant is known from its place in its run alone: it is there exactly if the run begins
and arrives in the range of the integer type. A run that leaves the range is reported
once, where it leaves (`EnumValue.assign_runs`). The count never goes further than one
past the range, which a wide word can hold (`EnumValue.assignWide?`).
-/

namespace ProgramSafety

namespace IntType

variable {t : IntType} {a b v : Int}

theorem zero_mem (t : IntType) : (0 : Int) ∈ t := by
  cases t <;> decide

theorem mem_of_between (ha : a ∈ t) (hb : b ∈ t) (hav : a ≤ v) (hvb : v ≤ b) : v ∈ t :=
  ⟨Int.le_trans ha.1 hav, Int.le_trans hvb hb.2⟩

theorem fits_succ_of_mem (hv : v ∈ t) : Wide.Fits (v + 1) := by
  have hmin : Wide.min ≤ t.min := by cases t <;> decide
  have hmax : t.max < Wide.max := by cases t <;> decide
  obtain ⟨hlo, hhi⟩ := mem_iff.1 hv
  exact ⟨by omega, by omega⟩

end IntType

def Variant.unvalued (v : Variant) : Variant := { v with discriminant := none }

namespace EnumValue

variable {t : IntType} {vs ws : List Variant} {v : Variant} {i n : ℕ}

def explicitAt (vs : List Variant) (i : ℕ) : Option Int := vs[i]?.bind Variant.explicit

theorem explicitAt_eq (hv : vs[i]? = some v) : explicitAt vs i = v.explicit := by
  rw [explicitAt, hv, Option.bind_some]

/-- Counting up from the position and the value of a first variant. -/
structure Run where
  first : ℕ
  value : Int
deriving DecidableEq

namespace Run

def valueAt (run : Run) (i : ℕ) : Int := run.value + (i - run.first)

/-- The variant at a position belongs to the run. The run begins at the last written
value up to there, and at the first variant with zero if none is written. -/
structure Covers (vs : List Variant) (run : Run) (i : ℕ) : Prop where
  le : run.first ≤ i
  lt : i < vs.length
  begins : explicitAt vs run.first = some run.value ∨
    explicitAt vs run.first = none ∧ run.first = 0 ∧ run.value = 0
  implicit : ∀ k, run.first < k → k ≤ i → explicitAt vs k = none

/-- The run leaves the range of the integer type at a position, not before. -/
structure LeavesAt (t : IntType) (vs : List Variant) (run : Run) (i : ℕ) : Prop where
  covers : run.Covers vs i
  notMem : run.valueAt i ∉ t
  mem_before : ∀ k, run.first ≤ k → k < i → run.valueAt k ∈ t

/-- The problem of a run that leaves the range at a variant. The value of the first
variant is written, the others are counted. -/
def problem (t : IntType) (run : Run) (i : ℕ) (v : Variant) : Problem :=
  let (how, value, name, type) :=
    (if i = run.first then "explicit" else "implicit", run.valueAt i, v.name, t.name)
  ⟨.invalidEnum s!"{how} value {value} of variant '{name}' does not fit {type}", v.span⟩

variable {run : Run}

theorem valueAt_first (run : Run) : run.valueAt run.first = run.value := by
  simp [valueAt]

theorem valueAt_succ (run : Run) (i : ℕ) : run.valueAt (i + 1) = run.valueAt i + 1 := by
  simp only [valueAt]
  omega

theorem valueAt_mono (run : Run) {i k : ℕ} (h : i ≤ k) : run.valueAt i ≤ run.valueAt k := by
  simp only [valueAt]
  omega

theorem value_le_valueAt (h : run.first ≤ i) : run.value ≤ run.valueAt i :=
  run.valueAt_first ▸ run.valueAt_mono h

theorem Covers.mono {k : ℕ} (h : run.Covers vs i) (hle : run.first ≤ k) (hk : k ≤ i) :
    run.Covers vs k where
  le := hle
  lt := Nat.lt_of_le_of_lt hk h.lt
  begins := h.begins
  implicit j hj hjk := h.implicit j hj (Nat.le_trans hjk hk)

/-- A variant after the first of its run has no written value. -/
theorem Covers.explicit_isSome_iff (h : run.Covers vs i) (hv : vs[i]? = some v)
    (hout : run.valueAt i ∉ t) : v.explicit.isSome ↔ i = run.first := by
  rw [← explicitAt_eq hv]
  constructor
  · intro hsome
    by_contra hne
    rw [h.implicit i (Nat.lt_of_le_of_ne h.le (Ne.symm hne)) (Nat.le_refl i)] at hsome
    cases hsome
  · rintro rfl
    rcases h.begins with hwritten | ⟨-, -, hzero⟩
    · rw [hwritten]
      rfl
    · rw [valueAt_first, hzero] at hout
      exact absurd t.zero_mem hout

theorem LeavesAt.misfit_eq (h : run.LeavesAt t vs i) (hv : vs[i]? = some v) :
    v.misfit t (run.valueAt i) = run.problem t i v := by
  have hhow := h.covers.explicit_isSome_iff hv h.notMem
  simp only [Variant.misfit, problem, hhow]

/-- A run leaves the range once if it leaves it at all. -/
theorem existsUnique_leavesAt (h : run.Covers vs i) (hout : run.valueAt i ∉ t) :
    ∃! k, run.LeavesAt t vs k := by
  classical
  have hleaves : ∃ k, run.first ≤ k ∧ run.valueAt k ∉ t := ⟨i, h.le, hout⟩
  have hleast : ∀ k, run.first ≤ k → k < Nat.find hleaves → run.valueAt k ∈ t := by
    intro k hle hk
    by_contra hnot
    exact Nat.find_min hleaves hk ⟨hle, hnot⟩
  obtain ⟨hle, hnot⟩ := Nat.find_spec hleaves
  refine ⟨Nat.find hleaves,
    ⟨h.mono hle (Nat.find_min' hleaves ⟨h.le, hout⟩), hnot, hleast⟩, ?_⟩
  intro k hk
  apply Nat.le_antisymm
  · by_contra hlt
    exact hnot (hk.mem_before _ hle (Nat.lt_of_not_le hlt))
  · exact Nat.find_min' hleaves ⟨hk.covers.le, hk.notMem⟩

end Run

/-! ## The run of a variant -/

def runAt (vs : List Variant) : ℕ → Run
  | 0 => ⟨0, (explicitAt vs 0).getD 0⟩
  | i + 1 =>
    match explicitAt vs (i + 1) with
    | some x => ⟨i + 1, x⟩
    | none => runAt vs i

theorem covers_runAt (hi : i < vs.length) : (runAt vs i).Covers vs i := by
  induction i with
  | zero =>
      refine ⟨Nat.le_refl 0, hi, ?_, fun k hk hk' => absurd hk' (Nat.not_le_of_lt hk)⟩
      cases hwritten : explicitAt vs 0 with
      | some x => exact Or.inl (by simp [runAt, hwritten])
      | none => exact Or.inr (by simp [runAt, hwritten])
  | succ i ih =>
      rw [runAt]
      split
      next x hwritten =>
        exact ⟨Nat.le_refl _, hi, Or.inl hwritten, fun k hk hk' => absurd hk' (Nat.not_le_of_lt hk)⟩
      next hnone =>
        have hbefore := ih (Nat.lt_of_succ_lt hi)
        refine ⟨Nat.le_succ_of_le hbefore.le, hi, hbefore.begins, ?_⟩
        intro k hk hk'
        rcases Nat.le_succ_iff.1 hk' with hk' | rfl
        · exact hbefore.implicit k hk hk'
        · exact hnone

theorem Run.Covers.eq_runAt {run : Run} (h : run.Covers vs i) : run = runAt vs i := by
  obtain ⟨first, value⟩ := run
  induction i with
  | zero =>
      obtain rfl : first = 0 := Nat.le_zero.1 h.le
      rcases h.begins with hwritten | ⟨hnone, -, hzero⟩
      · simp only [runAt, hwritten, Option.getD_some]
      · simp only [runAt, hnone, Option.getD_none, ← hzero]
  | succ i ih =>
      rw [runAt]
      rcases Nat.le_succ_iff.1 h.le with hle | rfl
      · rw [h.implicit (i + 1) (Nat.lt_succ_of_le hle) (Nat.le_refl _)]
        exact ih (h.mono hle (Nat.le_succ i))
      · rcases h.begins with hwritten | ⟨-, hzero, -⟩
        · rw [hwritten]
        · exact absurd hzero (Nat.succ_ne_zero i)

theorem existsUnique_covers (hi : i < vs.length) : ∃! run : Run, run.Covers vs i :=
  ⟨runAt vs i, covers_runAt hi, fun _ h => h.eq_runAt⟩

/-! ## The count -/

/-- The run has not left the range before a position. -/
def Run.StaysUntil (t : IntType) (run : Run) (i : ℕ) : Prop :=
  ∀ k, run.first ≤ k → k < i → run.valueAt k ∈ t

/-- Between its ends a run is in the range if it is so at both. -/
theorem Run.staysUntil_succ_iff {run : Run} (hle : run.first ≤ i) :
    run.StaysUntil t (i + 1) ↔ run.value ∈ t ∧ run.valueAt i ∈ t := by
  constructor
  · intro h
    refine ⟨?_, h i hle (Nat.lt_succ_self i)⟩
    rw [← run.valueAt_first]
    exact h run.first (Nat.le_refl _) (Nat.lt_succ_of_le hle)
  · rintro ⟨hvalue, hlast⟩ k hk hki
    exact IntType.mem_of_between hvalue hlast (value_le_valueAt hk)
      (run.valueAt_mono (Nat.le_of_lt_succ hki))

def value? (t : IntType) (vs : List Variant) (i : ℕ) : Option Int :=
  if (runAt vs i).value ∈ t ∧ (runAt vs i).valueAt i ∈ t then some ((runAt vs i).valueAt i)
  else none

/-- What the count stands at before a position. -/
def pending (t : IntType) (vs : List Variant) : ℕ → Option Int
  | 0 => some 0
  | i + 1 => (value? t vs i).map (· + 1)

def candidate? (t : IntType) (vs : List Variant) (i : ℕ) : Option Int :=
  (explicitAt vs i).or (pending t vs i)

/-- A value is tried as long as the run has not left the range. -/
theorem candidate?_eq_some_iff (hi : i < vs.length) {x : Int} :
    candidate? t vs i = some x ↔
      (runAt vs i).StaysUntil t i ∧ (runAt vs i).valueAt i = x := by
  have hcovers := covers_runAt hi
  rcases Nat.lt_or_eq_of_le hcovers.le with hlt | heq
  · -- Counted on from the position before, which belongs to the same run.
    obtain ⟨k, rfl⟩ := Nat.exists_eq_succ_of_ne_zero (Nat.ne_zero_of_lt hlt)
    have hnone := hcovers.implicit (k + 1) hlt (Nat.le_refl _)
    have hrun : runAt vs (k + 1) = runAt vs k := by rw [runAt, hnone]
    rw [hrun] at hlt ⊢
    rw [candidate?, hnone, Option.none_or, pending, value?,
      Run.staysUntil_succ_iff (Nat.le_of_lt_succ hlt), Run.valueAt_succ]
    split
    next hin => simp [hin]
    next hout => simp [hout]
  · have hstays : (runAt vs i).StaysUntil t i := fun k hk hki => absurd hki (by omega)
    have hvalue : (runAt vs i).valueAt i = (runAt vs i).value := by
      simp [Run.valueAt, heq]
    rw [hvalue, and_iff_right hstays, candidate?]
    rcases hcovers.begins with hwritten | ⟨hnone, hfirst, hzero⟩
    · rw [heq] at hwritten
      simp [hwritten]
    · rw [heq] at hnone hfirst
      subst hfirst
      simp [hnone, hzero, pending]

theorem value?_eq_some_iff (hi : i < vs.length) {x : Int} :
    value? t vs i = some x ↔ candidate? t vs i = some x ∧ x ∈ t := by
  have hstays := Run.staysUntil_succ_iff (t := t) (covers_runAt hi).le
  rw [candidate?_eq_some_iff hi, value?]
  constructor
  · intro h
    split at h
    next hin =>
      obtain rfl := Option.some.inj h
      exact ⟨⟨fun k hk hki => hstays.2 hin k hk (Nat.lt_succ_of_lt hki), rfl⟩, hin.2⟩
    next => cases h
  · rintro ⟨⟨hbefore, rfl⟩, hin⟩
    refine if_pos (hstays.1 ?_)
    intro k hk hki
    rcases Nat.lt_or_eq_of_le (Nat.le_of_lt_succ hki) with hlt | rfl
    · exact hbefore k hk hlt
    · exact hin

def problem? (t : IntType) (vs : List Variant) (i : ℕ) : Option Problem := do
  let v ← vs[i]?
  let value ← candidate? t vs i
  if value ∈ t then none else some (v.misfit t value)

theorem problem?_eq_some_iff {p : Problem} : problem? t vs i = some p ↔
    ∃ run v, Run.LeavesAt t vs run i ∧ vs[i]? = some v ∧ p = run.problem t i v := by
  constructor
  · intro h
    obtain ⟨v, hv, h⟩ := Option.bind_eq_some_iff.1 h
    obtain ⟨value, hvalue, h⟩ := Option.bind_eq_some_iff.1 h
    have hi : i < vs.length := (List.getElem?_eq_some_iff.1 hv).1
    obtain ⟨hstays, rfl⟩ := (candidate?_eq_some_iff hi).1 hvalue
    split at h
    next => cases h
    next hout =>
      have hleaves : (runAt vs i).LeavesAt t vs i := ⟨covers_runAt hi, hout, hstays⟩
      exact ⟨runAt vs i, v, hleaves, hv, (Option.some.inj h).symm.trans (hleaves.misfit_eq hv)⟩
  · rintro ⟨run, v, hleaves, hv, rfl⟩
    obtain rfl := hleaves.covers.eq_runAt
    have hvalue := (candidate?_eq_some_iff hleaves.covers.lt).2 ⟨hleaves.mem_before, rfl⟩
    simp only [problem?, hv, hvalue, Option.bind_eq_bind, Option.bind_some, hleaves.notMem,
      if_false, hleaves.misfit_eq hv]

/-! ## The assignment -/

/-- The rest of an assignment, from a position on. -/
theorem assignFrom_eq (hws : vs.drop n = ws) :
    assignFrom t (pending t vs n) ws =
      ((ws.zipIdx n).map fun x => { x.1 with discriminant := value? t vs x.2 },
        (ws.zipIdx n).filterMap fun x => problem? t vs x.2) := by
  induction ws generalizing n with
  | nil => rfl
  | cons v ws ih =>
      have hv : vs[n]? = some v := by rw [← List.head?_drop, hws, List.head?_cons]
      have hn : n < vs.length := (List.getElem?_eq_some_iff.1 hv).1
      have hrest : assignFrom t (pending t vs (n + 1)) ws = _ := ih (by
        rw [← List.tail_drop, hws, List.tail_cons])
      have htried : v.explicit.or (pending t vs n) = candidate? t vs n := by
        rw [candidate?, explicitAt_eq hv]
      have hvalue := fun x => value?_eq_some_iff (t := t) (x := x) hn
      rw [List.zipIdx_cons, List.map_cons, List.filterMap_cons, assignFrom, htried]
      cases hcandidate : candidate? t vs n with
      | none =>
          have hnone : value? t vs n = none := by
            rw [Option.eq_none_iff_forall_ne_some]
            simp [hvalue, hcandidate]
          simp only [pending, hnone, Option.map_none] at hrest
          simp [hrest, hnone, problem?, hv, hcandidate]
      | some x =>
          by_cases hx : x ∈ t
          · have hsome : value? t vs n = some x := (hvalue x).2 ⟨hcandidate, hx⟩
            simp only [pending, hsome, Option.map_some] at hrest
            simp [hrest, hsome, problem?, hv, hcandidate, hx]
          · have hnone : value? t vs n = none := by
              rw [Option.eq_none_iff_forall_ne_some]
              simp [hvalue, hcandidate, hx]
            simp only [pending, hnone, Option.map_none] at hrest
            simp [hrest, hnone, problem?, hv, hcandidate, hx]

theorem assign_fst (t : IntType) (vs : List Variant) : (assign t vs).1 =
    vs.zipIdx.map fun x => { x.1 with discriminant := value? t vs x.2 } :=
  congrArg Prod.fst (assignFrom_eq (n := 0) rfl)

theorem assign_snd (t : IntType) (vs : List Variant) :
    (assign t vs).2 = (List.range vs.length).filterMap (problem? t vs) := by
  rw [List.range_eq_range', ← List.zipIdx_map_snd, List.filterMap_map]
  exact congrArg Prod.snd (assignFrom_eq (n := 0) rfl)

theorem getElem?_assign (hv : vs[i]? = some v) :
    (assign t vs).1[i]? = some { v with discriminant := value? t vs i } := by
  simp [assign_fst, hv]

/-- The values that the variants had before do not matter. -/
theorem assign_unvalued (t : IntType) (vs : List Variant) :
    assign t (vs.map Variant.unvalued) = assign t vs := by
  have hfrom : ∀ next, assignFrom t next (vs.map Variant.unvalued) = assignFrom t next vs := by
    induction vs with
    | nil => exact fun _ => rfl
    | cons v vs ih =>
        intro next
        simp only [List.map_cons, assignFrom, ih]
        rfl
  exact hfrom (some 0)

/-- Without problems nothing leaves the range, and the other way round. -/
theorem problems_eq_nil_iff : (assign t vs).2 = [] ↔ ∀ i < vs.length, (value? t vs i).isSome := by
  rw [assign_snd, List.filterMap_eq_nil_iff]
  simp only [List.mem_range]
  constructor
  · intro hnone i hi
    rw [Option.isSome_iff_exists]
    have hcovers := covers_runAt hi
    by_contra hvalue
    -- The run of a variant without a value has left the range by then.
    have hout : ∃ k, (runAt vs i).Covers vs k ∧ (runAt vs i).valueAt k ∉ t := by
      by_contra hin
      push Not at hin
      refine hvalue ⟨_, if_pos ⟨?_, hin i hcovers⟩⟩
      rw [← Run.valueAt_first]
      exact hin _ (hcovers.mono (Nat.le_refl _) hcovers.le)
    obtain ⟨k, hk, hnotMem⟩ := hout
    obtain ⟨j, hj, -⟩ := Run.existsUnique_leavesAt hk hnotMem
    have hlt := hj.covers.lt
    have hsome := problem?_eq_some_iff.2 ⟨_, vs[j], hj, List.getElem?_eq_getElem hlt, rfl⟩
    rw [hnone j hlt] at hsome
    cases hsome
  · intro hvalue i hi
    obtain ⟨x, hx⟩ := Option.isSome_iff_exists.1 (hvalue i hi)
    obtain ⟨hcandidate, hmem⟩ := (value?_eq_some_iff hi).1 hx
    simp [problem?, hcandidate, hmem]

/-! ## Counting in a wide word -/

/-- The assignment with the count kept in a wide word: absent as soon as an addition
leaves the word. -/
def assignWide? (t : IntType) : Option Int → List Variant → Option (List Variant × List Problem)
  | _, [] => some ([], [])
  | next, v :: vs =>
    match v.explicit.or next with
    | none => do
      let (vs', ps) ← assignWide? t none vs
      return ({ v with discriminant := none } :: vs', ps)
    | some value =>
      if value ∈ t then do
        let count ← Wide.fit? (value + 1)
        let (vs', ps) ← assignWide? t (some count) vs
        return ({ v with discriminant := some value } :: vs', ps)
      else do
        let (vs', ps) ← assignWide? t none vs
        return ({ v with discriminant := none } :: vs', v.misfit t value :: ps)

/-- No addition leaves the word. -/
theorem assignWide?_eq (t : IntType) (next : Option Int) (vs : List Variant) :
    assignWide? t next vs = some (assignFrom t next vs) := by
  fun_induction assignFrom t next vs with
  | case1 => rfl
  | case2 next v vs hnone vs' ps hrest ih => simp [assignWide?, hnone, ih, hrest]
  | case3 next v vs value hvalue hmem vs' ps hrest ih =>
      have hfit := Wide.fit?_eq_some_iff.2 ⟨IntType.fits_succ_of_mem hmem, rfl⟩
      simp [assignWide?, hvalue, hmem, hfit, ih, hrest]
  | case4 next v vs value hvalue hmem vs' ps hrest ih =>
      simp [assignWide?, hvalue, hmem, ih, hrest]

theorem forall₂_filterMap {α β : Type} (f : α → Option β) (l : List α) :
    List.Forall₂ (fun a b => f a = some b) (l.filter fun a => (f a).isSome) (l.filterMap f) := by
  induction l with
  | nil => exact .nil
  | cons a l ih =>
      cases ha : f a with
      | none => simpa [ha] using ih
      | some b => simpa [ha] using ih

/-- Every variant belongs to one run and has the value at which the run arrives there, if
the run both begins and arrives in the range, and no value otherwise. Each run that leaves
the range is reported once, at the variant where it does, in the order of the variants;
nothing is reported exactly if all variants have values. The values that the variants had
before do not matter, and a wide word holds all sums. -/
theorem assign_runs (t : IntType) (vs : List Variant) :
    (assign t vs).1.length = vs.length ∧
    (∀ i v, vs[i]? = some v → (∃! run : Run, run.Covers vs i) ∧
      ∀ run : Run, run.Covers vs i → (assign t vs).1[i]? = some { v with
        discriminant :=
          if run.value ∈ t ∧ run.valueAt i ∈ t then some (run.valueAt i) else none }) ∧
    (∃ places : List ℕ, places.Pairwise (· < ·) ∧
      (∀ run i, Run.LeavesAt t vs run i → i ∈ places) ∧
      List.Forall₂ (fun i p => ∃ run v, Run.LeavesAt t vs run i ∧ vs[i]? = some v ∧
        p = run.problem t i v) places (assign t vs).2) ∧
    (∀ (run : Run) i, run.Covers vs i → run.valueAt i ∉ t → ∃! k, run.LeavesAt t vs k) ∧
    ((assign t vs).2 = [] ↔ ∀ v ∈ (assign t vs).1, v.discriminant.isSome) ∧
    (∀ ws : List Variant, ws.map Variant.unvalued = vs.map Variant.unvalued →
      assign t ws = assign t vs) ∧
    assignWide? t (some 0) vs = some (assign t vs) := by
  refine ⟨by simp [assign_fst], ?_, ?_, fun run i => Run.existsUnique_leavesAt, ?_, ?_,
    assignWide?_eq t (some 0) vs⟩
  · intro i v hv
    refine ⟨existsUnique_covers (List.getElem?_eq_some_iff.1 hv).1, ?_⟩
    rintro run hcovers
    rw [hcovers.eq_runAt]
    exact getElem?_assign hv
  · refine ⟨(List.range vs.length).filter fun i => (problem? t vs i).isSome,
      List.pairwise_lt_range.filter _, ?_, ?_⟩
    · intro run i hleaves
      have hlt := hleaves.covers.lt
      have hsome := problem?_eq_some_iff.2
        ⟨run, vs[i], hleaves, List.getElem?_eq_getElem hlt, rfl⟩
      simp [hlt, hsome]
    · rw [assign_snd]
      exact (forall₂_filterMap (problem? t vs) _).imp fun i p => problem?_eq_some_iff.1
  · rw [problems_eq_nil_iff, assign_fst, List.forall_mem_map]
    constructor
    · rintro hall ⟨v, i⟩ hmem
      exact hall i (List.snd_lt_of_mem_zipIdx hmem)
    · intro hall i hi
      exact hall (vs[i], i) (List.mk_mem_zipIdx_iff_getElem?.2 (List.getElem?_eq_getElem hi))
  · intro ws hws
    rw [← assign_unvalued t ws, hws, assign_unvalued]

/-- A run that begins below the range has no values, also where it would have come into
the range; the next written value starts anew. -/
example :
    (assign .u8 ([some (-1), none, some 254, none, none, none, some 7].map
      fun x => ⟨"v", ⟨0, 0⟩, x, some 3, .unit⟩)).1.map Variant.discriminant =
      [none, none, some 254, some 255, none, none, some 7] := by
  decide

end EnumValue

end ProgramSafety
