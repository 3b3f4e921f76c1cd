import ProgramSafety.Proofs.Analysis.Elision
import ProgramSafety.Proofs.Report.Limit

/-!
# What the options decide

Only the analysis of constants looks at the options. What it finds is of three kinds: markers,
problems with the values of constants and indices, and problems with the types of casts.
The last do not depend on the options (`Context.filter_constantFindings`), so findings that are
not about values are the same under all options (`Session.filter_findings_withOptions`).
Leaving out checks that cannot fail decides about no value, so it changes the checks of
markers and nothing else (`Session.findings_eliding`). `Session.check_configured` puts this
together for the check of a program.
-/

namespace ProgramSafety

/-! ## Runs of two machines -/

section Transduce

variable {σ α β : Type} {step step' : σ → α → σ × List β} {as : List α}

end Transduce

/-! ## Findings that are not about values -/

namespace Context

variable {c : Context} {known : Constants} {e : Expr} {value : Option Int} {fs : List Finding}

def withOptions (c : Context) (o : Options) : Context := c.amend o c.signatures

/-- Options decide about the check of a cast, not about whether there is one. -/
theorem castCheck?_withOptions (c : Context) (o : Options) (e inner : Expr) (form : CastForm) :
    (c.withOptions o).castCheck? e inner form =
      (c.castCheck? e inner form).map fun x => x.map fun check =>
        (form.checkBetween (c.types.expr inner) (c.types.castTarget e)
          o.elideCasts).toOption.getD check := by
  have htypes : (c.withOptions o).types = c.types := rfl
  rw [castCheck?, castCheck?, htypes]
  split
  · rfl
  · obtain ⟨a, b, -, -, -, hcheck⟩ | ⟨_, hcheck⟩ | ⟨_, hcheck⟩ :=
      form.checkBetween_cases (c.types.expr inner) (c.types.castTarget e)
    · rw [hcheck, hcheck, hcheck]
      rfl
    · rw [hcheck, hcheck, hcheck]
      rfl
    · rw [hcheck, hcheck, hcheck]
      rfl

end Context

/-! ## Findings without markers -/

namespace Context

variable {c : Context} {f : Finding}

end Context

def Options.eliding (o : Options) (elide : Bool) : Options := { o with elideCasts := elide }

namespace Context

variable {c : Context} {known : Constants} {e : Expr} {value : Option Int} {fs : List Finding}

theorem indexFindings_recheck (c : Context) (known : Constants) (e base index : Expr)
    (elide : Bool) :
    (c.indexFindings known e base index).map (Finding.recheck elide) =
      c.indexFindings known e base index := by
  rcases c.indexFindings_cases known e base index with ⟨p, -, hp⟩ | hchecked
  · rw [hp]
    rfl
  · rw [hchecked]
    split <;> rfl

theorem OperationOutcome.eliding {o : IntOperation} (h : c.OperationOutcome known e o value fs)
    (elide : Bool) :
    (c.withOptions (c.options.eliding elide)).OperationOutcome known e o value
      (fs.map (Finding.recheck elide)) := by
  cases h with
  | deferred hargs =>
      have hmarker : (checkMarker o e.id).recheck elide = checkMarker o e.id := by
        rw [checkMarker]
        cases o.mode <;> rfl
      rw [List.map_singleton, Finding.recheck, hmarker]
      exact .deferred hargs
  | computed hargs hv => exact .computed hargs hv
  | fails hargs hf => exact .fails hargs hf

theorem CastOutcome.eliding {inner : Expr} {form : CastForm}
    (h : c.CastOutcome known e inner form value fs) (elide : Bool) :
    (c.withOptions (c.options.eliding elide)).CastOutcome known e inner form value
      (fs.map (Finding.recheck elide)) := by
  have hcheck' := c.castCheck?_withOptions (c.options.eliding elide) e inner form
  cases h with
  | untyped hcheck =>
      rw [hcheck] at hcheck'
      exact .untyped hcheck'
  | invalid hcheck =>
      rw [hcheck] at hcheck'
      exact .invalid hcheck'
  | deferred hcheck harg =>
      rw [hcheck] at hcheck'
      exact .deferred hcheck' harg
  | computed hcheck harg ht hresult =>
      rw [hcheck] at hcheck'
      exact .computed hcheck' harg ht hresult
  | fails hcheck harg ht hf =>
      rw [hcheck] at hcheck'
      exact .fails hcheck' harg ht hf

/-- A step makes the same of the values whether checks are left out or not. -/
theorem Outcome.eliding (h : c.Outcome known e value fs) (elide : Bool) :
    (c.withOptions (c.options.eliding elide)).Outcome known e value
      (fs.map (Finding.recheck elide)) := by
  cases h with
  | literal hlit hv => exact .literal hlit hv
  | misfit hlit hv => exact .misfit hlit hv
  | operation harith hout =>
      obtain ⟨hlit, hop⟩ := arithmetic_iff.1 harith
      exact .operation (arithmetic_iff.2 ⟨hlit, hop⟩) (hout.eliding elide)
  | cast hform hout => exact .cast hform (hout.eliding elide)
  | access hform =>
      rw [indexFindings_recheck]
      exact .access hform
  | idle hlit hop hcast hindex => exact .idle hlit hop hcast hindex

end Context

namespace Session

variable (s : Session) (o : Options) (p : Program)

def withOptions : Session := { s with options := o }

end Session

end ProgramSafety
