import ProgramSafety.Proofs.Analysis.ConstantStep
import ProgramSafety.Proofs.Tree.Tour

/-!
# The run that finds constants

The constants of a body are found by a run over its expressions, which reads the
values of operands from a table and enters new ones. When no two expressions
share an id, a step reads only what is there to stay, so the finished table can
stand in for all the tables on the way: every expression has one outcome against
it (`Context.outcome_of_mem`), and the findings of the body are the findings of
its expressions (`Context.constantFindings_eq`). After this the run is not needed
any more.
-/

namespace ProgramSafety

namespace Context

variable (c : Context)

/-- The expressions at which constants are looked for, in the order of the run. -/
def visited : List Expr :=
  Fragment.exprs (fun e => (c.literal? e).isNone) .outermost (.block .body c.body.block)

def constants : Constants :=
  (transduce c.constantVisit ∅
    (c.body.block.visits (fun e => (c.literal? e).isNone) .outermost .body)).1

/-- The findings of an expression, given all constants of the body. -/
def findingsAt (e : Expr) : List Finding := (c.constantStep c.constants e).2

theorem findingsAt_eq_of_outcome {e : Expr} {value : Option Int} {fs : List Finding}
    (hout : c.Outcome c.constants e value fs) : c.findingsAt e = fs := by
  rw [findingsAt, hout.constantStep_eq]

theorem exists_operationOutcome_findingsAt {e : Expr} {o : IntOperation}
    (harith : c.Arithmetic e o) :
    ∃ value, c.OperationOutcome c.constants e o value (c.findingsAt e) := by
  obtain ⟨value, fs, hout⟩ := c.exists_operationOutcome c.constants e o
  rw [findingsAt_eq_of_outcome c (.operation harith hout)]
  exact ⟨value, hout⟩

theorem exists_castOutcome_findingsAt {e inner : Expr} {form : CastForm} {target : TypeRef}
    (hform : e.form = .cast inner form target) :
    ∃ value, c.CastOutcome c.constants e inner form value (c.findingsAt e) := by
  obtain ⟨value, fs, hout⟩ := c.exists_castOutcome c.constants e inner form
  rw [findingsAt_eq_of_outcome c (.cast hform hout)]
  exact ⟨value, hout⟩

theorem transduce_constantVisit (known : Constants) (vs : List Visit) :
    transduce c.constantVisit known vs =
      transduce c.constantStep known (vs.filterMap (·.event.left?)) := by
  induction vs generalizing known with
  | nil => rfl
  | cons v vs ih =>
      obtain ⟨setting, event⟩ := v
      cases event with
      | leaveExpr e =>
          rw [transduce_cons, ih, List.filterMap_cons]
          rfl
      | _ =>
          rw [transduce_cons, ih, List.filterMap_cons]
          rfl

theorem constants_eq : c.constants = (transduce c.constantStep ∅ c.visited).1 := by
  rw [constants, transduce_constantVisit]
  rfl

theorem constantFindings_eq_transduce :
    c.constantFindings = (transduce c.constantStep ∅ c.visited).2 := by
  rw [constantFindings, transduce_constantVisit]
  rfl

/-- A run leaves the values of other nodes as they are. -/
theorem getElem?_transduce {n : ℕ} {es : List Expr} (hn : n ∉ es.map Expr.id)
    (known : Constants) : (transduce c.constantStep known es).1[n]? = known[n]? := by
  induction es generalizing known with
  | nil => rfl
  | cons e es ih =>
      rw [List.map_cons, List.mem_cons, not_or] at hn
      obtain ⟨value, fs, hout⟩ := c.exists_outcome known e
      rw [transduce_cons, ih hn.2, hout.constantStep_eq, Constants.getElem?_enter,
        if_neg (Ne.symm hn.1)]

variable {c} {e : Expr}

theorem contains_of_mem_visited (he : e ∈ c.visited) : c.body.block.Contains e :=
  Fragment.occurs_of_mem_exprs he

/-- The run has come by the parts of an expression before. -/
theorem mem_of_mem_parts {x : Expr} {pre post : List Expr} (hsplit : c.visited = pre ++ e :: post)
    (hlit : c.literal? e = none) (hx : .expr x ∈ e.form.parts) : x ∈ pre :=
  Fragment.partsFirst_exprs _ _ _ pre e post hsplit (by simp [hlit]) x hx

theorem mem_visited_of_mem_parts {x : Expr} (he : e ∈ c.visited) (hlit : c.literal? e = none)
    (hx : .expr x ∈ e.form.parts) : x ∈ c.visited := by
  obtain ⟨pre, post, hsplit⟩ := List.append_of_mem he
  rw [hsplit]
  exact List.mem_append_left _ (mem_of_mem_parts hsplit hlit hx)

/-- The run misses nothing but the digits of negated literals. -/
theorem mem_visited_of_contains (he : c.body.block.Contains e) (hform : ∀ v, e.form ≠ .int v) :
    e ∈ c.visited := by
  rcases Fragment.mem_exprs_of_occurs he .outermost with
    hmem | ⟨x, -, hbelow, p, hp, hocc⟩
  · exact hmem
  · exfalso
    obtain ⟨m, hm, rfl⟩ := List.mem_map.1 hp
    have hlit : c.literal? x ≠ none := by
      intro hnone
      simp [hnone] at hbelow
    rw [literal?] at hlit
    split at hlit
    next hx => simp [hx, ExprForm.parts] at hm
    next v ht hx =>
      simp only [hx, ExprForm.parts, List.mem_singleton] at hm
      subst hm
      cases hocc with
      | here => exact hform _ rfl
      | inside hm' => simp [Fragment.parts, ExprForm.parts] at hm'
    next => exact hlit rfl

theorem mem_visited_of_operand {o : IntOperation} {x : Expr} (he : e ∈ c.visited)
    (harith : c.Arithmetic e o) (hx : x ∈ o.operands) : x ∈ c.visited :=
  mem_visited_of_mem_parts he (arithmetic_iff.1 harith).1 (harith.mem_parts hx)

theorem mem_visited_of_cast {inner : Expr} {form : CastForm} {target : TypeRef}
    (he : e ∈ c.visited) (hform : e.form = .cast inner form target) : inner ∈ c.visited :=
  mem_visited_of_mem_parts he (literal?_eq_none_of_cast hform) (by simp [hform, ExprForm.parts])

theorem nodup_visited (hids : c.body.block.DistinctIds) : (c.visited.map Expr.id).Nodup :=
  hids.sublist ((Fragment.exprs_sublist _ _ _).map _)

section Split

variable {pre post : List Expr} {value : Option Int} {fs : List Finding}

theorem constants_eq_of_eq_append (hsplit : c.visited = pre ++ e :: post)
    (hout : c.Outcome (transduce c.constantStep ∅ pre).1 e value fs) :
    c.constants =
      (transduce c.constantStep ((transduce c.constantStep ∅ pre).1.enter e.id value) post).1 := by
  rw [constants_eq, hsplit, transduce_append, transduce_cons, hout.constantStep_eq]

theorem nodup_of_eq_append (hids : c.body.block.DistinctIds)
    (hsplit : c.visited = pre ++ e :: post) :
    (pre.map Expr.id ++ e.id :: post.map Expr.id).Nodup := by
  simpa [hsplit] using nodup_visited hids

/-- What the step at an expression enters for it stays. -/
theorem getElem?_constants_of_eq_append (hids : c.body.block.DistinctIds)
    (hsplit : c.visited = pre ++ e :: post)
    (hout : c.Outcome (transduce c.constantStep ∅ pre).1 e value fs) :
    c.constants[e.id]? = value := by
  obtain ⟨-, hrest, hdisjoint⟩ := List.nodup_append.1 (nodup_of_eq_append hids hsplit)
  have hpost : e.id ∉ post.map Expr.id := (List.nodup_cons.1 hrest).1
  have hpre : e.id ∉ pre.map Expr.id := fun h => hdisjoint _ h _ (by simp) rfl
  rw [constants_eq_of_eq_append hsplit hout, getElem?_transduce c hpost,
    Constants.getElem?_enter, if_pos rfl, getElem?_transduce c hpre]
  simp

/-- The parts of an expression have their final values when the run comes to it. -/
theorem getElem?_of_mem_parts (hids : c.body.block.DistinctIds)
    (hsplit : c.visited = pre ++ e :: post) (hlit : c.literal? e = none) {x : Expr}
    (hx : .expr x ∈ e.form.parts) :
    (transduce c.constantStep ∅ pre).1[x.id]? = c.constants[x.id]? := by
  obtain ⟨value, fs, hout⟩ := c.exists_outcome (transduce c.constantStep ∅ pre).1 e
  obtain ⟨-, -, hdisjoint⟩ := List.nodup_append.1 (nodup_of_eq_append hids hsplit)
  have hmem : x ∈ pre := mem_of_mem_parts hsplit hlit hx
  have hne : ∀ i ∈ e.id :: post.map Expr.id, x.id ≠ i :=
    hdisjoint x.id (List.mem_map.2 ⟨x, hmem, rfl⟩)
  have hafter : x.id ∉ post.map Expr.id := fun h => hne _ (List.mem_cons_of_mem _ h) rfl
  rw [constants_eq_of_eq_append hsplit hout, getElem?_transduce c hafter,
    Constants.getElem?_enter, if_neg (Ne.symm (hne e.id (by simp)))]

/-- The step at an expression has the same outcome against the constants known at
that time as against all constants of the body. -/
theorem outcome_of_eq_append (hids : c.body.block.DistinctIds)
    (hsplit : c.visited = pre ++ e :: post) :
    c.Outcome c.constants e c.constants[e.id]?
      (c.constantStep (transduce c.constantStep ∅ pre).1 e).2 := by
  obtain ⟨value, fs, hout⟩ := c.exists_outcome (transduce c.constantStep ∅ pre).1 e
  rw [hout.constantStep_eq, getElem?_constants_of_eq_append hids hsplit hout]
  exact hout.congr fun hlit x hx => getElem?_of_mem_parts hids hsplit hlit hx

end Split

theorem findingsAt_eq (hids : c.body.block.DistinctIds) {pre post : List Expr}
    (hsplit : c.visited = pre ++ e :: post) :
    c.findingsAt e = (c.constantStep (transduce c.constantStep ∅ pre).1 e).2 := by
  rw [findingsAt_eq_of_outcome c (outcome_of_eq_append hids hsplit)]

/-- Every expression has one outcome against the constants of the body: its
constant and its findings. -/
theorem outcome_of_mem (hids : c.body.block.DistinctIds) (he : e ∈ c.visited) :
    c.Outcome c.constants e c.constants[e.id]? (c.findingsAt e) := by
  obtain ⟨pre, post, hsplit⟩ := List.append_of_mem he
  rw [findingsAt_eq hids hsplit]
  exact outcome_of_eq_append hids hsplit

/-- Only what the run has come by has a constant. -/
theorem mem_visited_of_constant (hids : c.body.block.DistinctIds) (he : c.body.block.Contains e)
    {v : Int} (hv : c.constants[e.id]? = some v) : e ∈ c.visited := by
  by_contra hnot
  have hid : e.id ∉ c.visited.map Expr.id := by
    intro hmem
    obtain ⟨x, hx, hid⟩ := List.mem_map.1 hmem
    exact hnot (hids.eq_of_id_eq (contains_of_mem_visited hx) he hid ▸ hx)
  rw [constants_eq, getElem?_transduce c hid] at hv
  simp at hv

/-- The run finds what there is to find at its expressions, one after the other. -/
theorem constantFindings_eq (hids : c.body.block.DistinctIds) :
    c.constantFindings = c.visited.flatMap c.findingsAt := by
  have hrun : ∀ pre post, c.visited = pre ++ post →
      (transduce c.constantStep (transduce c.constantStep ∅ pre).1 post).2 =
        post.flatMap c.findingsAt := by
    intro pre post
    induction post generalizing pre with
    | nil => simp
    | cons e post ih =>
        intro hsplit
        have hnext := ih (pre ++ [e]) (by simpa using hsplit)
        rw [transduce_append] at hnext
        rw [transduce_cons, List.flatMap_cons, ← findingsAt_eq hids hsplit]
        exact congrArg (c.findingsAt e ++ ·) hnext
  rw [constantFindings_eq_transduce]
  exact hrun [] c.visited rfl

/-! ## Single steps

Where ids occur more than once, a step has to be looked at with the constants that
are known when it is made. -/

/-- The run comes to the expression when `known` are its constants, enters `value` for
the expression and finds `fs`. -/
structure StepAt (c : Context) (e : Expr) (known : Constants) (value : Option Int)
    (fs : List Finding) : Prop where
  reached : ∃ pre post, c.visited = pre ++ e :: post ∧
    known = (transduce c.constantStep ∅ pre).1
  outcome : c.Outcome known e value fs

theorem exists_stepAt (he : e ∈ c.visited) : ∃ known value fs, c.StepAt e known value fs := by
  obtain ⟨pre, post, hsplit⟩ := List.append_of_mem he
  obtain ⟨value, fs, hout⟩ := c.exists_outcome (transduce c.constantStep ∅ pre).1 e
  exact ⟨_, value, fs, ⟨pre, post, hsplit, rfl⟩, hout⟩

section Steps

variable {known : Constants} {value : Option Int} {fs : List Finding}

/-- What a step finds is found in one piece. -/
theorem StepAt.isInfix (hstep : c.StepAt e known value fs) : fs <:+: c.constantFindings := by
  obtain ⟨⟨pre, post, hsplit, rfl⟩, hout⟩ := hstep
  rw [constantFindings_eq_transduce, hsplit, transduce_append, transduce_cons,
    hout.constantStep_eq, ← List.append_assoc]
  exact ⟨_, _, rfl⟩

theorem StepAt.getElem?_constants (hids : c.body.block.DistinctIds)
    (hstep : c.StepAt e known value fs) : c.constants[e.id]? = value := by
  obtain ⟨⟨pre, post, hsplit, rfl⟩, hout⟩ := hstep
  exact getElem?_constants_of_eq_append hids hsplit hout

theorem StepAt.getElem?_of_mem_parts (hids : c.body.block.DistinctIds)
    (hstep : c.StepAt e known value fs) (hlit : c.literal? e = none) {x : Expr}
    (hx : .expr x ∈ e.form.parts) : known[x.id]? = c.constants[x.id]? := by
  obtain ⟨⟨pre, post, hsplit, rfl⟩, -⟩ := hstep
  exact Context.getElem?_of_mem_parts hids hsplit hlit hx

end Steps

end Context

end ProgramSafety
