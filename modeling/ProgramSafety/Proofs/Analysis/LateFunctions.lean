import ProgramSafety.Proofs.Analysis.Locality
import ProgramSafety.Proofs.Typing.Declared
import ProgramSafety.Proofs.Typing.Signatures

/-!
# Functions that come late

A closed session takes in no more types, but it still takes in functions. They reach the
analyses through the signatures that calls are made against and in no other way
(`Context.findings_amend`), and a call is made against another function than before
only if a late function captures its name (`Signatures.lookupCall?_addAll`). So the analysis
of a program is what it was, as long as none of its calls is captured
(`Session.analyze_register_of_closed`).
-/

namespace ProgramSafety

/-- A call finds one of the added functions instead of what it found among the known ones. -/
def CapturesCall (known added : List (Namespace × String)) (space : Namespace)
    (path : List String) (callee : String) : Prop :=
  if path = [] then Captures known added space callee
  else (path, callee) ∈ added ∧ (path, callee) ∉ known

/-- A call that is not captured is made against the function it was made against. -/
theorem Signatures.lookupCall?_addAll {s : Signatures} {r : Registry}
    {ds : List (Namespace × FunctionDecl)} {space : Namespace} {path : List String}
    {callee : String}
    (hfree : ¬ CapturesCall s.keys (ds.map fun x => (x.1, x.2.name.name)) space path callee) :
    (s.addAll r ds).1.lookupCall? path callee space = s.lookupCall? path callee space := by
  have hwidens := widens_addAll s r ds callee
  cases path with
  | nil => exact hwidens.findSome?_eq hfree
  | cons outer path =>
      have hget : (s.addAll r ds).1.get? (outer :: path) callee = s.get? (outer :: path) callee := by
        cases hfound : s.get? (outer :: path) callee with
        | some g => exact hwidens.keeps hfound
        | none =>
            have hknown := get?_eq_none_iff.1 hfound
            exact get?_addAll_eq_none_iff.2 ⟨hknown, fun hadded => hfree ⟨hadded, hknown⟩⟩
      exact hget

namespace Context

variable {c : Context} {g : Signatures}

theorem callee?_amend {o : Options} {e : Expr}
    (h : ∀ path callee args, e.form = .call path callee args →
      g.lookupCall? path callee c.body.space = c.signatures.lookupCall? path callee c.body.space) :
    (c.amend o g).callee? e = c.callee? e := by
  unfold callee?
  split
  next path callee args hform => exact h path callee args hform
  · rfl
  · rfl

/-- The findings of a body depend on the signatures of the functions it calls only. -/
theorem findings_amend (h : c.CalleesAgree c.options g) (next : ℕ) :
    (c.amend c.options g).findings next = c.findings next := by
  have hconstant : (c.amend c.options g).constantFindings = c.constantFindings := rfl
  rw [findings, findings, lifetimeFindings_amend h, hconstant, coverageFindings_amend,
    routingFindings_amend h]

end Context

/-! ## Closed sessions -/

namespace Session

variable {s : Session}

/-- Closing freezes all types, and the functions that are there. What comes later changes
the analysis of a program only by capturing a call: a function of its name is added further
inside than any known one, or at the very path of a call that found none. -/
theorem analyze_register_of_closed (hs : s.registry.closed = true) (q : Program) :
    (s.register q).1.options = s.options ∧ (s.register q).1.registry = s.registry ∧
    (∀ space name g, s.signatures.get? space name = some g →
      (s.register q).1.signatures.get? space name = some g) ∧
    ∀ p : Program,
      (∀ b ∈ p.bodies, ∀ e, b.block.Contains e → ∀ path callee args,
        e.form = .call path callee args →
          ¬ CapturesCall s.signatures.keys q.functionKeys b.space path callee) →
      (s.register q).1.analyze p = s.analyze p := by
  have hregistry : (s.register q).1.registry = s.registry := Registry.declare_of_closed hs q
  refine ⟨rfl, hregistry, fun space name g hg => Signatures.get?_addAll_of_some hg q.functions, ?_⟩
  intro p hfree
  have hcontext : ∀ types b, (s.register q).1.context types b =
      (s.context types b).amend s.options (s.register q).1.signatures :=
    fun types b => congrArg (fun r => Context.mk s.options r _ types b) hregistry
  have hbody : ∀ types, ∀ b ∈ p.bodies, ∀ next,
      ((s.register q).1.context types b).findings next = (s.context types b).findings next := by
    intro types b hb next
    rw [hcontext]
    refine Context.findings_amend (fun e he => ?_) next
    refine Context.callee?_amend fun path callee args hform => ?_
    exact Signatures.lookupCall?_addAll (hfree b hb e he path callee args hform)
  have hfindings : (s.register q).1.findings p = s.findings p := by
    rw [findings, findings, hregistry, transduce_congr (hbody _)]
  rw [analyze, analyze, hfindings]
  rfl

end Session

namespace LateFailure

def call : Expr := ⟨1, .nowhere, .named "void", .call [] "late" []⟩

def run : FunctionDecl := ⟨⟨"run", .nowhere⟩, [], [], none, false, some ⟨.nowhere, [.expr call]⟩⟩

def late (throws : Bool) : FunctionDecl := ⟨⟨"late", .nowhere⟩, [], [], none, throws, none⟩

def caller : Program where
  decls := [.function run]

def session (p : Program) : Session := ((Session.start .default).register p).1.close.1

/-- Functions of the name that is called, one where there is one and one elsewhere. -/
def others : Program where
  decls := [.function (late true), .space "other" [.function (late true)]]

theorem analyze_register_others :
    (session ⟨[.function (late false)]⟩).registry.closed = true ∧
    ((session ⟨[.function (late false)]⟩).register others).1.signatures.keys =
      [([], "late"), (["other"], "late")] ∧
    ((session ⟨[.function (late false)]⟩).register others).1.analyze caller =
      (session ⟨[.function (late false)]⟩).analyze caller := by
  have hclosed : (session ⟨[.function (late false)]⟩).registry.closed = true := rfl
  refine ⟨hclosed, by decide, ?_⟩
  obtain ⟨-, -, -, hsame⟩ := Session.analyze_register_of_closed hclosed others
  refine hsame caller fun b hb e he path callee args hform => ?_
  obtain rfl := List.mem_singleton.1 hb
  obtain rfl := List.mem_singleton.1 (Block.mem_exprs_iff.2 he)
  obtain ⟨rfl, rfl, -⟩ := ExprForm.call.inj hform
  -- The only namespace around the call is the root, and it has the function already.
  rintro ⟨near, hnear, -, hunknown⟩
  exact hunknown [] hnear (List.prefix_refl _) (by decide)

/-- A function that a closed session takes in makes a call fail that did not, and what was
no problem of the program becomes one. -/
theorem late_function_changes_analysis :
    (session ⟨[]⟩).registry.closed = true ∧
    ((session ⟨[]⟩).analyze caller).report.problems = [] ∧
    (((session ⟨[]⟩).register ⟨[.function (late true)]⟩).1.analyze caller).report.problems =
      [⟨.propagation "late" "run", .nowhere⟩] := by
  decide +kernel

end LateFailure

end ProgramSafety
