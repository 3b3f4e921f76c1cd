import ProgramSafety.Proofs.Analysis.MatchCoverage
import ProgramSafety.Proofs.Analysis.Tables
import ProgramSafety.Proofs.Tree.Tour
import ProgramSafety.Proofs.Typing.Substitution
import ProgramSafety.Session

/-!
# Plans of accepted matches

The types of the expressions of a body are well-formed over its registry
(`TypeTable.formed_ofBodies`), so a scrutinee has variants exactly if it is an optional
or an applied enum (`Context.map_matched?`). A match on such a scrutinee that has no
problem gets a plan in which every variant belongs to one arm. A match on anything else
is accepted if all of its arms are catch-alls, and so also if it has no arms
(`Context.accepted_matches_planned`).
-/

namespace ProgramSafety

/-! ## Types of expressions -/

namespace TypeTable

variable {r : Registry} {t : TypeTable}

/-- The types of expressions are well-formed, each in the scope it was written in. -/
def Formed (r : Registry) (t : TypeTable) : Prop :=
  ∀ (node : ℕ) (u : Ty), t.exprs[node]? = some u → ∃ generics, u.Formed r generics

theorem Formed.enter (ht : t.Formed r) (scope : Scope) (event : Event) :
    (t.enter r scope event).Formed r := by
  have hinsert : ∀ (e : Expr) (node : ℕ) (u : Ty),
      (t.exprs.insert e.id (r.typeOf scope e.type))[node]? = some u →
        ∃ generics, u.Formed r generics := by
    intro e node u hu
    rw [Std.TreeMap.getElem?_insert] at hu
    split at hu
    · obtain rfl := Option.some.inj hu
      exact ⟨_, r.formed_typeOf scope e.type⟩
    · exact ht node u hu
  unfold TypeTable.enter
  split
  · exact ht
  next e =>
    dsimp only
    split <;> exact hinsert e
  · exact ht

theorem formed_ofBodies (r : Registry) (bs : List Body) : (ofBodies r bs).Formed r := by
  have hempty : empty.Formed r := by
    intro node u hu
    simp [empty] at hu
  refine List.foldlRecOn bs (addBody r) hempty fun t ht b _ => ?_
  exact List.foldlRecOn b.block.tour _ ht fun t ht v _ => ht.enter b.scope v.event

theorem Formed.expr (ht : t.Formed r) (e : Expr) : ∃ generics, (t.expr e).Formed r generics := by
  rw [TypeTable.expr, Std.TreeMap.getD_eq_getD_getElem?]
  cases hu : t.exprs[e.id]? with
  | none => exact ⟨[], Ty.formed_unknown⟩
  | some u => exact ht e.id u hu

end TypeTable

/-! ## Variants of a type -/

/-- The variants that the values of a type divide into, if it is an optional or an
enum. -/
def Registry.variantNames? (r : Registry) : Ty → Option (List String)
  | .optional _ => some ["None", "Some"]
  | .adt id _ _ => (r.get? id).bind fun d =>
    if d.shape.isEnum then some (d.shape.variants.map Variant.name) else none
  | _ => none

namespace Context

variable {c : Context} {t : Ty} {span : Span}

/-- A match looks at the variants of the type of its scrutinee. -/
theorem map_matched? {generics : List String} (ht : t.Formed c.registry generics) (span : Span) :
    (c.matched? t span).map (fun m => m.2.map Variant.name) = c.registry.variantNames? t := by
  cases t with
  | wrap w u => cases w <;> rfl
  | adt id name args =>
      obtain ⟨d, hd, -, hinstance⟩ := Registry.instanceOf?_of_formed ht
      simp only [matched?, hinstance, TypeDef.concrete, Registry.variantNames?, hd,
        Option.bind_some, Shape.isEnum_substitute, Shape.variants_substitute, Option.bind_eq_bind]
      split
      · simp [Variant.substitute, Function.comp_def]
      · rfl
  | _ => rfl

/-! ## Findings about matches -/

theorem problem_notMem {fs : List Finding} (h : fs.filterMap Finding.problem? = []) (p : Problem) :
    .problem p ∉ fs :=
  fun hp => Option.some_ne_none p (List.filterMap_eq_nil_iff.1 h _ hp)

variable {e scrutinee : Expr} {arms : List Arm} {patterns : List Pattern} {node : ℕ}

theorem mem_coverageFindings_iff {f : Finding} : f ∈ c.coverageFindings ↔
    ∃ e span scrutinee arms, c.body.block.Contains e ∧ e.form = .matchOn span scrutinee arms ∧
      f ∈ c.matchFindings e.id span scrutinee (arms.map Arm.pattern) := by
  constructor
  · intro hf
    obtain ⟨v, hv, hf⟩ := List.mem_flatMap.1 hf
    unfold coverageVisit at hf
    split at hf
    next e hevent =>
      split at hf
      next span scrutinee arms hform =>
        have he : e ∈ c.body.block.exprs := List.mem_filterMap.2 ⟨v, hv, by rw [hevent]; rfl⟩
        exact ⟨e, span, scrutinee, arms, Block.mem_exprs_iff.1 he, hform, hf⟩
      next => simp at hf
    next => simp at hf
  · rintro ⟨e, span, scrutinee, arms, he, hform, hf⟩
    obtain ⟨⟨here, event⟩, hv, hleft⟩ := List.mem_filterMap.1 (Block.mem_exprs_iff.2 he)
    refine List.mem_flatMap.2 ⟨_, hv, ?_⟩
    cases event with
    | leaveExpr x =>
        obtain rfl : x = e := by simpa [Event.left?] using hleft
        simpa [coverageVisit, hform] using hf
    | _ => simp [Event.left?] at hleft

theorem isUnknown_of_ne (ht : t ≠ .unknown) : t.isUnknown = false := by
  cases t with
  | unknown => exact absurd rfl ht
  | _ => rfl

theorem matchFindings_of_some {enum : String} {vs : List Variant}
    (hmatched : c.matched? (c.types.expr scrutinee) span = some (enum, vs)) (node : ℕ)
    (patterns : List Pattern) : c.matchFindings node span scrutinee patterns =
      (Coverage.ofMatch enum vs patterns span).problems.map .problem ++
        [.plan node (Coverage.ofMatch enum vs patterns span).arms] := by
  have hknown : c.types.expr scrutinee ≠ .unknown := by
    intro ht
    rw [ht] at hmatched
    cases hmatched
  simp [matchFindings, isUnknown_of_ne hknown, hmatched]

theorem problems_eq_nil {enum : String} {vs : List Variant}
    (hmatched : c.matched? (c.types.expr scrutinee) span = some (enum, vs))
    (haccepted : ∀ p, .problem p ∉ c.matchFindings node span scrutinee patterns) :
    (Coverage.ofMatch enum vs patterns span).problems = [] := by
  rw [List.eq_nil_iff_forall_not_mem]
  intro p hp
  apply haccepted p
  rw [matchFindings_of_some hmatched]
  exact List.mem_append_left _ (List.mem_map_of_mem hp)

theorem catchAll_of_none (hknown : c.types.expr scrutinee ≠ .unknown)
    (hmatched : c.matched? (c.types.expr scrutinee) span = none)
    (haccepted : ∀ p, .problem p ∉ c.matchFindings node span scrutinee patterns) :
    ∀ p ∈ patterns, Coverage.isCatchAll p = true := by
  have hfindings : c.matchFindings node span scrutinee patterns =
      (misplacedArms (c.types.expr scrutinee) patterns).map .problem := by
    simp [matchFindings, isUnknown_of_ne hknown, hmatched]
  intro p hp
  cases p with
  | catchAll span => rfl
  | variants pspan alternatives =>
      obtain ⟨p, hmisplaced⟩ : ∃ p, p ∈ misplacedArms (c.types.expr scrutinee) patterns :=
        ⟨_, List.mem_filterMap.2 ⟨_, hp, rfl⟩⟩
      exact absurd (hfindings ▸ List.mem_map_of_mem hmisplaced) (haccepted p)

/-! ## Plans -/

def plans (c : Context) : Std.TreeMap ℕ (List (List String)) :=
  (Annotations.ofFindings c.coverageFindings).plans

theorem plan_mem_coverageFindings (he : c.body.block.Contains e)
    (hform : e.form = .matchOn span scrutinee arms) {enum : String} {vs : List Variant}
    (hmatched : c.matched? (c.types.expr scrutinee) span = some (enum, vs)) :
    .plan e.id (Coverage.ofMatch enum vs (arms.map Arm.pattern) span).arms ∈
      c.coverageFindings := by
  refine mem_coverageFindings_iff.2 ⟨e, span, scrutinee, arms, he, hform, ?_⟩
  rw [matchFindings_of_some hmatched]
  exact List.mem_append_right _ List.mem_cons_self

theorem plans_of_matched (hids : c.body.block.DistinctIds) (he : c.body.block.Contains e)
    (hform : e.form = .matchOn span scrutinee arms) {enum : String} {vs : List Variant}
    (hmatched : c.matched? (c.types.expr scrutinee) span = some (enum, vs)) :
    c.plans[e.id]? = some (Coverage.ofMatch enum vs (arms.map Arm.pattern) span).arms := by
  apply Table.plans.getElem?_eq_some (plan_mem_coverageFindings he hform hmatched)
  · rfl
  · intro f hf value hentry
    obtain ⟨e', span', scrutinee', arms', he', hform', hf⟩ := mem_coverageFindings_iff.1 hf
    cases f with
    | plan node value' =>
        obtain ⟨rfl, rfl⟩ : node = e.id ∧ value' = value := by
          simpa [Table.plans] using hentry
        -- A match enters plans at its own node only.
        have hnode : e'.id = e.id := by
          unfold matchFindings at hf
          dsimp only at hf
          split at hf
          · simp at hf
          · split at hf <;> simp_all
        obtain rfl := hids.eq_of_id_eq he' he hnode
        obtain ⟨rfl, rfl, rfl⟩ : span' = span ∧ scrutinee' = scrutinee ∧ arms' = arms := by
          simpa using hform'.symm.trans hform
        rw [matchFindings_of_some hmatched] at hf
        simpa using hf
    | _ => simp [Table.plans] at hentry

/-- A match without problems whose scrutinee has variants gets a plan with one entry
for every arm, in which each variant belongs to exactly one arm, the first that takes it.
If the scrutinee has no variants, all arms are catch-alls. There is one then as soon as
there are arms at all. -/
theorem accepted_matches_planned {bodies : List Body}
    (htypes : c.types = .ofBodies c.registry bodies) (he : c.body.block.Contains e)
    (hform : e.form = .matchOn span scrutinee arms) (hknown : c.types.expr scrutinee ≠ .unknown)
    (haccepted : ∀ p, .problem p ∉ c.matchFindings e.id span scrutinee (arms.map Arm.pattern)) :
    (∀ names, c.registry.variantNames? (c.types.expr scrutinee) = some names →
      ∃ plan, .plan e.id plan ∈ c.coverageFindings ∧
        (c.body.block.DistinctIds → c.plans[e.id]? = some plan) ∧ plan.length = arms.length ∧
        (∀ i name, Coverage.Handles plan i name ↔
          name ∈ names ∧ (arms.map Arm.pattern).findIdx? (·.takes name) = some i) ∧
        ∀ name ∈ names, ∃! i, Coverage.Handles plan i name) ∧
    (c.registry.variantNames? (c.types.expr scrutinee) = none →
      (∀ arm ∈ arms, Coverage.isCatchAll arm.pattern = true) ∧
      ((∃ arm ∈ arms, Coverage.isCatchAll arm.pattern = true) ↔ arms ≠ [])) := by
  obtain ⟨generics, hformed⟩ := (TypeTable.formed_ofBodies c.registry bodies).expr scrutinee
  rw [← htypes] at hformed
  have hnames := map_matched? hformed span
  refine ⟨?_, ?_⟩
  · intro names hsome
    rw [hsome, Option.map_eq_some_iff] at hnames
    obtain ⟨⟨enum, vs⟩, hmatched, rfl⟩ := hnames
    have hnil := problems_eq_nil hmatched haccepted
    refine ⟨_, plan_mem_coverageFindings he hform hmatched,
      fun hids => plans_of_matched hids he hform hmatched, ?_, ?_, ?_⟩
    · exact (Coverage.length_arms ..).trans (List.length_map _)
    · intro i name
      refine Coverage.handles_iff.trans ?_
      simp
    · exact fun name hname => Coverage.existsUnique_handles hnil hname
  · intro hnone
    rw [hnone, Option.map_eq_none_iff] at hnames
    have hall : ∀ arm ∈ arms, Coverage.isCatchAll arm.pattern = true := fun arm harm =>
      catchAll_of_none hknown hnames haccepted _ (List.mem_map_of_mem harm)
    refine ⟨hall, ?_⟩
    constructor
    · rintro ⟨arm, harm, -⟩
      exact List.ne_nil_of_mem harm
    · intro hne
      obtain ⟨arm, harm⟩ := List.exists_mem_of_ne_nil arms hne
      exact ⟨arm, harm, hall arm harm⟩

end Context

namespace SlotMatches

def slotType : TypeRef := .applied "Slot" [.named "i32"]

def slot (id : ℕ) : Expr := ⟨id, .nowhere, slotType, .var "slot"⟩

def number (id : ℕ) : Expr := ⟨id, .nowhere, .named "i32", .var "number"⟩

def matchOn (id : ℕ) (scrutinee : Expr) (patterns : List Pattern) : Expr :=
  ⟨id, .nowhere, .named "void", .matchOn .nowhere scrutinee (patterns.map (⟨·, ⟨.nowhere, []⟩⟩))⟩

def named : Expr :=
  matchOn 2 (slot 1)
    [.variants .nowhere [⟨.nowhere, "full", .positional [⟨"item", .nowhere⟩]⟩], .catchAll .nowhere]

def caught : Expr := matchOn 4 (number 3) [.catchAll .nowhere]

def unmatched : Expr := matchOn 6 (number 5) []

def body : Block := ⟨.nowhere, [.expr named, .expr caught, .expr unmatched]⟩

def run : FunctionDecl :=
  ⟨⟨"run", .nowhere⟩, [], [⟨⟨"slot", .nowhere⟩, slotType⟩, ⟨⟨"number", .nowhere⟩, .named "i32"⟩],
    none, false, some body⟩

def program : Program where
  decls :=
    [.type (.enumType ⟨⟨"Slot", .nowhere⟩, ["T"], none,
        [⟨⟨"empty", .nowhere⟩, .nowhere, none, .unit⟩,
          ⟨⟨"full", .nowhere⟩, .nowhere, none, .single (.named "T")⟩]⟩),
      .function run]

def session : Session := ((Session.start .default).register program).1.close.1

def context : Context :=
  session.context (TypeTable.ofBodies session.registry program.bodies) ⟨[], none, run, body⟩

theorem contains_of_getElem? {i : ℕ} {e : Expr} (he : body.exprs[i]? = some e) :
    context.body.block.Contains e :=
  Block.mem_exprs_iff.1 (List.mem_of_getElem? he)

theorem accepted : context.coverageFindings.filterMap Finding.problem? = [] := by decide +kernel

theorem accepted_of_contains {e scrutinee : Expr} {span : Span} {arms : List Arm}
    (he : context.body.block.Contains e) (hform : e.form = .matchOn span scrutinee arms)
    (p : Problem) :
    .problem p ∉ context.matchFindings e.id span scrutinee (arms.map Arm.pattern) := by
  intro hp
  have hmem := Context.mem_coverageFindings_iff.2 ⟨e, span, scrutinee, arms, he, hform, hp⟩
  exact Context.problem_notMem accepted p hmem

theorem accepted_matches_planned_slots :
    (∃ plan, context.plans[2]? = some plan ∧ plan.length = 2 ∧
      (∃! i, Coverage.Handles plan i "empty") ∧ ∃! i, Coverage.Handles plan i "full") ∧
    ∃ arm ∈ [(⟨.catchAll .nowhere, ⟨.nowhere, []⟩⟩ : Arm)],
      Coverage.isCatchAll arm.pattern = true := by
  have hnamed : context.body.block.Contains named := contains_of_getElem? (i := 1) rfl
  have hcaught : context.body.block.Contains caught := contains_of_getElem? (i := 3) rfl
  have hids : context.body.block.DistinctIds :=
    (by decide +kernel : (body.exprs.map Expr.id).Nodup)
  obtain ⟨hplanned, -⟩ := Context.accepted_matches_planned rfl hnamed rfl
    (by decide +kernel) (accepted_of_contains hnamed rfl)
  obtain ⟨-, hcatch⟩ := Context.accepted_matches_planned rfl hcaught rfl
    (by decide +kernel) (accepted_of_contains hcaught rfl)
  obtain ⟨plan, -, htable, hlength, -, hunique⟩ := hplanned ["empty", "full"] (by decide +kernel)
  refine ⟨⟨plan, htable hids, hlength, hunique "empty" (by simp), hunique "full" (by simp)⟩, ?_⟩
  exact (hcatch (by decide +kernel)).2.2 (by simp)

/-- A match on a number without any arms is accepted. -/
theorem match_without_arms_accepted :
    ∃ e span scrutinee arms, context.body.block.Contains e ∧
      e.form = .matchOn span scrutinee arms ∧ context.types.expr scrutinee = .int .i32 ∧
      (∀ p, .problem p ∉ context.matchFindings e.id span scrutinee (arms.map Arm.pattern)) ∧
      ¬ ∃ arm ∈ arms, Coverage.isCatchAll arm.pattern = true := by
  have he : context.body.block.Contains unmatched := contains_of_getElem? (i := 5) rfl
  exact ⟨unmatched, .nowhere, number 5, [], he, rfl, by decide +kernel, accepted_of_contains he rfl,
    by simp⟩

end SlotMatches

end ProgramSafety
