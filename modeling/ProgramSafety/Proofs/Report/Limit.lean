import Mathlib.Data.Nat.Notation
import ProgramSafety.Proofs.Analysis.Locality

/-!
# Limits of reports

A report with a limit keeps the first problems that it is given and remembers whether
there were more (`Report.ofProblems_eq_cut`). Reports with the same limit that are
appended keep what one report of all their problems would keep (`Report.cut_append`), so
it makes no difference that a program is registered, closed and analysed under a limit
each time. No analysis looks at the limit, so the limit changes nothing but the report,
and only cuts that (`Session.check_limited`). Whether a program is accepted is read off
the problems that were kept, so a limit of zero accepts everything
(`Session.acceptance_agrees_iff`).
-/

namespace ProgramSafety

namespace Report

def kept : Option ℕ → List Problem → List Problem
  | none, ps => ps
  | some n, ps => ps.take n

def exceeds : Option ℕ → List Problem → Bool
  | none, _ => false
  | some n, ps => n < ps.length

def cut (limit : Option ℕ) (ps : List Problem) : Report := ⟨kept limit ps, limit, exceeds limit ps⟩

theorem push_cut (limit : Option ℕ) (ps : List Problem) (p : Problem) :
    (cut limit ps).push p = cut limit (ps ++ [p]) := by
  cases limit with
  | none => rfl
  | some n =>
      by_cases hn : n ≤ ps.length
      · have hfull : (cut (some n) ps).full = true := by simp [full, cut, kept, hn]
        have hlt : n < (ps ++ [p]).length := by
          rw [List.length_append]
          exact Nat.lt_succ_of_le hn
        rw [push, if_pos hfull, cut, cut, kept, kept, List.take_append_of_le_length hn, exceeds,
          exceeds, decide_eq_true hlt]
      · have hlt : ps.length < n := Nat.lt_of_not_le hn
        have hfull : (cut (some n) ps).full = false := by
          rw [full, cut, kept, List.take_of_length_le (Nat.le_of_lt hlt)]
          exact decide_eq_false hn
        have hsmall : (ps ++ [p]).length ≤ n := by
          rw [List.length_append]
          exact hlt
        have hexceeds : exceeds (some n) ps = exceeds (some n) (ps ++ [p]) := by
          rw [exceeds, exceeds, decide_eq_false (Nat.lt_asymm hlt),
            decide_eq_false (Nat.not_lt.2 hsmall)]
        rw [push, if_neg (by simp [hfull]), cut, cut, hexceeds, kept, kept,
          List.take_of_length_le (Nat.le_of_lt hlt), List.take_of_length_le hsmall]

theorem pushAll_cut (limit : Option ℕ) (ps qs : List Problem) :
    (cut limit ps).pushAll qs = cut limit (ps ++ qs) := by
  induction qs generalizing ps with
  | nil => rw [pushAll_nil, List.append_nil]
  | cons q qs ih => rw [pushAll_cons, push_cut, ih, List.append_assoc, List.singleton_append]

theorem ofProblems_eq_cut (limit : Option ℕ) (ps : List Problem) :
    ofProblems limit ps = cut limit ps := by
  have hempty : ofLimit limit = cut limit [] := by cases limit <;> simp [ofLimit, cut, kept, exceeds]
  rw [ofProblems, hempty, pushAll_cut, List.nil_append]

/-- The report with a note that something was dropped elsewhere. -/
def mark (r : Report) (dropped : Bool) : Report := { r with truncated := r.truncated || dropped }

theorem push_mark (r : Report) (dropped : Bool) (p : Problem) :
    (r.mark dropped).push p = (r.push p).mark dropped := by
  have hfull : (r.mark dropped).full = r.full := rfl
  rw [push, push, hfull]
  split
  · simp [mark]
  · rfl

theorem pushAll_mark (r : Report) (dropped : Bool) (ps : List Problem) :
    (r.mark dropped).pushAll ps = (r.pushAll ps).mark dropped := by
  induction ps generalizing r with
  | nil => rfl
  | cons p ps ih => rw [pushAll_cons, pushAll_cons, push_mark, ih]

theorem kept_append_kept (limit : Option ℕ) (ps qs : List Problem) :
    kept limit (ps ++ kept limit qs) = kept limit (ps ++ qs) := by
  cases limit with
  | none => rfl
  | some n =>
      have hmin : min (n - ps.length) n = n - ps.length := Nat.min_eq_left (Nat.sub_le _ _)
      rw [kept, kept, kept, List.take_append, List.take_append, List.take_take, hmin]

theorem exceeds_append_kept (limit : Option ℕ) (ps qs : List Problem) :
    (exceeds limit (ps ++ kept limit qs) || exceeds limit qs) = exceeds limit (ps ++ qs) := by
  cases limit with
  | none => rfl
  | some n =>
      simp only [exceeds, kept, List.length_append, List.length_take, ← Bool.decide_or]
      apply decide_eq_decide.2
      omega

/-- A report appended to another with the same limit continues it. -/
theorem cut_append (limit : Option ℕ) (ps qs : List Problem) :
    (cut limit ps).append (cut limit qs) = cut limit (ps ++ qs) := by
  calc (cut limit ps).append (cut limit qs)
      = ((cut limit ps).mark (exceeds limit qs)).pushAll (kept limit qs) := rfl
    _ = (cut limit (ps ++ kept limit qs)).mark (exceeds limit qs) := by
        rw [pushAll_mark, pushAll_cut]
    _ = cut limit (ps ++ qs) := by
        rw [cut, cut, mark, kept_append_kept, exceeds_append_kept]

theorem kept_eq_nil_iff {limit : Option ℕ} {ps : List Problem} :
    kept limit ps = [] ↔ ps = [] ∨ limit = some 0 := by
  cases limit with
  | none => simp [kept]
  | some n => simp [kept, List.take_eq_nil_iff, or_comm]

theorem hasProblems_cut {limit : Option ℕ} {ps : List Problem} :
    (cut limit ps).hasProblems = false ↔ ps = [] ∨ limit = some 0 := by
  rw [hasProblems, Bool.not_eq_false', List.isEmpty_iff]
  exact kept_eq_nil_iff

end Report

/-! ## Runs that differ in the limit -/

namespace Session

variable (s : Session) (limit : Option ℕ) (p : Program)

def withLimit : Session := { s with options := { s.options with limit := limit } }

def registerProblems : List Problem :=
  let (registry, ps) := s.registry.declare p
  ps ++ (s.signatures.collect registry p).2

/-- The session that has taken in a program and is closed. -/
def ready : Session := (s.register p).1.close.1

/-- All problems that checking a program comes upon, in the order of the check. -/
def checkProblems : List Problem :=
  let registered := (s.register p).1
  s.registerProblems p ++ registered.registry.close.declaredWeakUse registered.signatures ++
    ((s.ready p).findings p).filterMap Finding.problem?

/-- The three reports of a check add up to one, under one limit. -/
theorem check_report :
    (s.check p).2.report = Report.cut s.options.limit (s.checkProblems p) := by
  have hregister : (s.register p).2 = .cut s.options.limit (s.registerProblems p) :=
    Report.ofProblems_eq_cut _ _
  have hclose : (s.register p).1.close.2 = .cut s.options.limit
      ((s.register p).1.registry.close.declaredWeakUse (s.register p).1.signatures) :=
    Report.ofProblems_eq_cut _ _
  have hanalyze : ((s.ready p).analyze p).report = .cut s.options.limit
      (((s.ready p).findings p).filterMap Finding.problem?) :=
    Report.ofProblems_eq_cut _ _
  calc (s.check p).2.report
      = ((s.register p).2.append (s.register p).1.close.2).append
          ((s.ready p).analyze p).report := rfl
    _ = Report.cut s.options.limit (s.checkProblems p) := by
        rw [hregister, hclose, hanalyze, Report.cut_append, Report.cut_append]
        rfl

theorem findings_withLimit : (s.withLimit limit).findings p = s.findings p := by
  have hbody : ∀ b ∈ p.bodies, ∀ next,
      ((s.withLimit limit).context (.ofBodies s.registry p.bodies) b).findings next =
        (s.context (.ofBodies s.registry p.bodies) b).findings next := by
    intro b _ next
    exact Context.findings_revise (c := s.context (.ofBodies s.registry p.bodies) b)
      (fun e _ => .refl _ e) limit next
  rw [findings, findings]
  exact congrArg (fun run : ℕ × List Finding => _ ++ run.2) (transduce_congr hbody 0)

theorem findings_ready_withLimit :
    ((s.withLimit limit).ready p).findings p = (s.ready p).findings p :=
  (s.ready p).findings_withLimit limit p

theorem checkProblems_withLimit : (s.withLimit limit).checkProblems p = s.checkProblems p := by
  rw [checkProblems, checkProblems, findings_ready_withLimit]
  rfl

end Session

def Options.checkUnder (o : Options) (limit : Option ℕ) (p : Program) : Analysis :=
  ((Session.start { o with limit := limit }).check p).2

namespace Options

variable (o : Options) (limit : Option ℕ) (p : Program)

theorem report_checkUnder :
    (o.checkUnder limit p).report = .cut limit (o.checkUnder none p).report.problems := by
  have hproblems := (Session.start { o with limit := none }).checkProblems_withLimit limit p
  have hwhole : (o.checkUnder none p).report.problems =
      (Session.start { o with limit := none }).checkProblems p :=
    congrArg Report.problems (Session.check_report _ p)
  rw [hwhole, ← hproblems]
  exact Session.check_report _ p

theorem isOk_checkUnder :
    (o.checkUnder limit p).isOk = true ↔
      (o.checkUnder none p).report.problems = [] ∨ limit = some 0 := by
  rw [Analysis.isOk, report_checkUnder, Bool.not_eq_true', Report.hasProblems_cut]

theorem settled_checkUnder :
    ((o.checkUnder limit p).isOk && !(o.checkUnder limit p).report.truncated) = true ↔
      (o.checkUnder none p).report.problems = [] := by
  have htruncated : (o.checkUnder limit p).report.truncated =
      Report.exceeds limit (o.checkUnder none p).report.problems :=
    congrArg Report.truncated (o.report_checkUnder limit p)
  rw [Bool.and_eq_true, isOk_checkUnder, htruncated]
  constructor
  · rintro ⟨hnil | rfl, hexceeds⟩
    · exact hnil
    -- The report under the limit zero is empty; nothing was dropped from it.
    · simpa [Report.exceeds] using hexceeds
  · intro hnil
    rw [hnil]
    cases limit <;> simp [Report.exceeds]

end Options

theorem Analysis.exists_result_iff (a : Analysis) : (∃ r, a.result = .ok r) ↔ a.isOk = true := by
  rw [result]
  cases a.isOk <;> simp

namespace Session

/-- Two checks that differ in the limit agree on acceptance exactly if there is nothing
to report or the limits are both zero or both not zero. Acceptance by a report from which
nothing was dropped does not depend on the limit. -/
theorem acceptance_agrees_iff (o : Options) (l l' : Option ℕ) (p : Program) :
    let whole := ((start { o with limit := none }).check p).2
    let a := ((start { o with limit := l }).check p).2
    let a' := ((start { o with limit := l' }).check p).2
    ((a.isOk = a'.isOk ∧ ((∃ r, a.result = .ok r) ↔ ∃ r, a'.result = .ok r)) ↔
      whole.report.problems = [] ∨ (l = some 0 ↔ l' = some 0)) ∧
    (a.isOk && !a.report.truncated) = (a'.isOk && !a'.report.truncated) := by
  intro whole a a'
  have ha : a.isOk = true ↔ whole.report.problems = [] ∨ l = some 0 := o.isOk_checkUnder l p
  have ha' : a'.isOk = true ↔ whole.report.problems = [] ∨ l' = some 0 := o.isOk_checkUnder l' p
  constructor
  · rw [Bool.eq_iff_iff, a.exists_result_iff, a'.exists_result_iff, and_self, ha, ha']
    by_cases hnil : whole.report.problems = []
    · simp only [hnil, true_or]
    · simp only [hnil, false_or]
  · have hsettled := (o.settled_checkUnder l p).trans (o.settled_checkUnder l' p).symm
    exact Bool.eq_iff_iff.2 hsettled

end Session

namespace UnknownParameter

def program : Program where
  decls := [.function ⟨⟨"f", ⟨0, 0⟩⟩, [], [⟨⟨"a", ⟨0, 0⟩⟩, .named "Nope"⟩], none, false,
    some ⟨⟨0, 0⟩, []⟩⟩]

/-- The program is refused without a limit, and accepted with the limit zero. -/
theorem accepted_under_zero :
    (Options.default.checkUnder none program).isOk = false ∧
      (∀ r, (Options.default.checkUnder none program).result ≠ .ok r) ∧
      (Options.default.checkUnder (some 0) program).isOk = true ∧
      ∃ r, (Options.default.checkUnder (some 0) program).result = .ok r := by
  have hregister : ((Session.start .default).registerProblems program).length = 1 := by
    decide +kernel
  have hproblems : (Options.default.checkUnder none program).report.problems =
      (Session.start .default).checkProblems program :=
    congrArg Report.problems (Session.check_report _ program)
  have hrefused : ¬ (Options.default.checkUnder none program).isOk = true := by
    intro hok
    rcases (Options.isOk_checkUnder _ _ _).1 hok with hnil | hzero
    · rw [hproblems, Session.checkProblems, List.append_assoc, List.append_eq_nil_iff] at hnil
      rw [hnil.1] at hregister
      cases hregister
    · cases hzero
  have haccepted : (Options.default.checkUnder (some 0) program).isOk = true :=
    (Options.isOk_checkUnder _ _ _).2 (Or.inr rfl)
  refine ⟨Bool.not_eq_true _ ▸ hrefused, ?_, haccepted,
    (Analysis.exists_result_iff _).2 haccepted⟩
  intro r hr
  exact hrefused ((Analysis.exists_result_iff _).1 ⟨r, hr⟩)

end UnknownParameter

end ProgramSafety
