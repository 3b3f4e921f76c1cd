import ProgramSafety.Proofs.Analysis.Folding
import ProgramSafety.Proofs.Analysis.Markers

/-!
# Accepted bodies are checked

In a body without problems, every integer operation, every cast between known
types and every access to an array carries exactly one marker, wherever it
stands: the check that it needs when it runs, or the value that it was folded to.
-/

namespace ProgramSafety

namespace Context

variable {c : Context} {known : Constants} {e : Expr} {o : IntOperation}

/-! ## The markers of an expression -/

theorem markerAt?_eq_none (hids : c.body.block.DistinctIds) {x : Expr} (hx : x ∈ c.visited)
    {node : ℕ} (hne : x.id ≠ node) {f : Finding} (hf : f ∈ c.findingsAt x) :
    f.markerAt? node = none := by
  cases f with
  | marker m =>
      have hnode := (outcome_of_mem hids hx).node_eq hf
      rw [Finding.markerAt?, if_neg (hnode ▸ hne)]
  | _ => rfl

/-- Only the expression itself puts markers at its node. -/
theorem filterMap_constantFindings (hids : c.body.block.DistinctIds) (he : e ∈ c.visited) :
    c.constantFindings.filterMap (Finding.markerAt? e.id) =
      (c.findingsAt e).filterMap (Finding.markerAt? e.id) := by
  obtain ⟨pre, post, hsplit⟩ := List.append_of_mem he
  have hnodup : (pre.map Expr.id ++ e.id :: post.map Expr.id).Nodup := by
    simpa [hsplit] using nodup_visited hids
  obtain ⟨-, hrest, hdisjoint⟩ := List.nodup_append.1 hnodup
  have hother : ∀ xs : List Expr, (∀ x ∈ xs, x ∈ c.visited ∧ x.id ≠ e.id) →
      (xs.flatMap c.findingsAt).filterMap (Finding.markerAt? e.id) = [] := by
    intro xs hxs
    rw [List.filterMap_eq_nil_iff]
    intro f hf
    obtain ⟨x, hx, hf⟩ := List.mem_flatMap.1 hf
    exact markerAt?_eq_none hids (hxs x hx).1 (hxs x hx).2 hf
  have hpre : ∀ x ∈ pre, x ∈ c.visited ∧ x.id ≠ e.id := by
    intro x hx
    refine ⟨hsplit ▸ List.mem_append_left _ hx, ?_⟩
    exact hdisjoint x.id (List.mem_map.2 ⟨x, hx, rfl⟩) e.id (by simp)
  have hpost : ∀ x ∈ post, x ∈ c.visited ∧ x.id ≠ e.id := by
    intro x hx
    refine ⟨hsplit ▸ List.mem_append_right _ (List.mem_cons_of_mem _ hx), ?_⟩
    intro hid
    exact (List.nodup_cons.1 hrest).1 (List.mem_map.2 ⟨x, hx, hid⟩)
  rw [constantFindings_eq hids, hsplit, List.flatMap_append, List.flatMap_cons,
    List.filterMap_append, List.filterMap_append, hother pre hpre, hother post hpost]
  simp

theorem markersAt_eq_singleton (hids : c.body.block.DistinctIds) (he : e ∈ c.visited) {m : Marker}
    (hfindings : c.findingsAt e = [.marker m]) :
    (Annotations.ofFindings c.constantFindings).markersAt e.id = [m] := by
  have hnode : m.node = e.id := (outcome_of_mem hids he).node_eq (by simp [hfindings])
  apply Annotations.markersAt_ofFindings_eq_singleton
  rw [filterMap_constantFindings hids he, hfindings]
  simp [Finding.markerAt?, hnode]

def Accepted (c : Context) : Prop := ∀ f ∈ c.constantFindings, f.problem? = none

theorem Accepted.findingsAt_ne (haccept : c.Accepted) (hids : c.body.block.DistinctIds)
    (he : e ∈ c.visited) (p : Problem) : c.findingsAt e ≠ [.problem p] := by
  intro hfindings
  have hmem : .problem p ∈ c.constantFindings := by
    rw [constantFindings_eq hids]
    exact List.mem_flatMap.2 ⟨e, he, by simp [hfindings]⟩
  cases haccept _ hmem

/-! ## Operations, casts and accesses -/

theorem constants_of_operands? {l r : Int} (hargs : c.operands? known o = some (l, r)) :
    c.options.foldConstants = true ∧ ∀ x ∈ o.operands, ∃ w, known[x.id]? = some w := by
  obtain ⟨hl, hr, -⟩ := operands?_eq_some_iff.1 hargs
  obtain ⟨hfold, hleft⟩ := constant?_eq_some_iff.1 hl
  refine ⟨hfold, ?_⟩
  intro x hx
  rcases List.mem_cons.1 hx with rfl | hx
  · exact ⟨l, hleft⟩
  · exact ⟨r, (constant?_eq_some_iff.1 (hr x (by simpa using hx))).2⟩

theorem findingsAt_of_arithmetic (hids : c.body.block.DistinctIds) (haccept : c.Accepted)
    (he : e ∈ c.visited) (harith : c.Arithmetic e o) :
    c.findingsAt e = [.marker (checkMarker o e.id)] ∨
      ∃ v, c.findingsAt e = [.marker (.folded e.id v)] ∧ c.options.foldConstants = true ∧
        ∀ x ∈ o.operands, ∃ w, c.constants[x.id]? = some w := by
  obtain ⟨value, hout⟩ := c.exists_operationOutcome_findingsAt harith
  generalize hfindings : c.findingsAt e = fs at hout
  cases hout with
  | deferred hargs => exact Or.inl rfl
  | computed hargs hresult => exact Or.inr ⟨_, rfl, constants_of_operands? hargs⟩
  | fails hargs hf => exact absurd hfindings (haccept.findingsAt_ne hids he _)

theorem findingsAt_of_cast (hids : c.body.block.DistinctIds) (haccept : c.Accepted)
    (he : e ∈ c.visited) {inner : Expr} {form : CastForm} {target : TypeRef}
    (hform : e.form = .cast inner form target) (hsource : c.types.expr inner ≠ .unknown)
    (htarget : c.types.castTarget e ≠ .unknown) :
    (∃ check, c.findingsAt e =
        [.marker (.cast e.id form (c.types.expr inner) (c.types.castTarget e) check)]) ∨
      ∃ result, c.findingsAt e = [.marker (.foldedCast e.id form result)] := by
  obtain ⟨value, hout⟩ := c.exists_castOutcome_findingsAt hform
  generalize hfindings : c.findingsAt e = fs at hout
  cases hout with
  | untyped hcheck =>
      have hknown : ∀ t : Ty, t ≠ .unknown → t.isUnknown = false := by
        intro t ht
        cases t <;> simp_all [Ty.isUnknown]
      simp [castCheck?, hknown _ hsource, hknown _ htarget] at hcheck
  | invalid hcheck => exact absurd hfindings (haccept.findingsAt_ne hids he _)
  | deferred hcheck harg => exact Or.inl ⟨_, rfl⟩
  | computed hcheck harg ht hresult => exact Or.inr ⟨_, rfl⟩
  | fails hcheck harg ht hf => exact absurd hfindings (haccept.findingsAt_ne hids he _)

theorem findingsAt_of_index (hids : c.body.block.DistinctIds) (haccept : c.Accepted)
    (he : e ∈ c.visited) {base index : Expr} {t : Ty} (hform : e.form = .index base index)
    (hbase : c.types.expr base = .array t) : c.findingsAt e = [.marker (.bounds e.id)] := by
  have hstep : c.findingsAt e = c.indexFindings c.constants e base index := by
    rw [findingsAt, constantStep_of_index hform]
  rcases c.indexFindings_cases c.constants e base index with ⟨p, -, hp⟩ | hchecked
  · exact absurd (hstep.trans hp) (haccept.findingsAt_ne hids he p)
  · rw [hstep, hchecked, hbase]

theorem checkMarker_cases (o : IntOperation) (node : ℕ) :
    (o.mode = .checked ∧
        checkMarker o node = .overflow node o.op o.type (o.op = .div ∨ o.op = .rem)) ∨
      (o.mode = .wrapping ∧ checkMarker o node = .wrapping node o.op o.type) := by
  have hdivides : o.op.divides = decide (o.op = .div ∨ o.op = .rem) := by
    cases o.op <;> rfl
  rw [checkMarker, hdivides]
  cases hmode : o.mode with
  | checked => exact Or.inl ⟨rfl, rfl⟩
  | wrapping => exact Or.inr ⟨rfl, rfl⟩

/-- In an accepted body every integer operation carries one marker: its value, if
all operands are constant and constants are folded, or else the check of its mode.
Every cast between known types and every access to an array carries one, too. -/
theorem accepted_operations_marked (hids : c.body.block.DistinctIds) (haccept : c.Accepted)
    (he : c.body.block.Contains e) :
    (∀ o, c.Arithmetic e o →
      ∃ m, (Annotations.ofFindings c.constantFindings).markersAt e.id = [m] ∧
        ((∃ v, m = .folded e.id v ∧ c.options.foldConstants = true ∧
            ∀ x ∈ o.operands, ∃ w, c.constants[x.id]? = some w ∧
              c.evaluate x = .ok (.number (.int w))) ∨
          (o.mode = .checked ∧ m = .overflow e.id o.op o.type (o.op = .div ∨ o.op = .rem)) ∨
          (o.mode = .wrapping ∧ m = .wrapping e.id o.op o.type))) ∧
    (∀ inner form target, e.form = .cast inner form target → c.types.expr inner ≠ .unknown →
      c.types.castTarget e ≠ .unknown →
      ∃ m, (Annotations.ofFindings c.constantFindings).markersAt e.id = [m] ∧
        ((∃ check, m = .cast e.id form (c.types.expr inner) (c.types.castTarget e) check) ∨
          ∃ value, m = .foldedCast e.id form value)) ∧
    (∀ base index t, e.form = .index base index → c.types.expr base = .array t →
      (Annotations.ofFindings c.constantFindings).markersAt e.id = [.bounds e.id]) := by
  refine ⟨?_, ?_, ?_⟩
  · intro o harith
    have hvisited := mem_visited_of_contains he harith.form_ne_int
    rcases findingsAt_of_arithmetic hids haccept hvisited harith with
      hcheck | ⟨v, hvalue, hfold, hconst⟩
    · exact ⟨_, markersAt_eq_singleton hids hvisited hcheck, Or.inr (checkMarker_cases o e.id)⟩
    · refine ⟨_, markersAt_eq_singleton hids hvisited hvalue, Or.inl ⟨v, rfl, hfold, ?_⟩⟩
      intro x hx
      obtain ⟨w, hw⟩ := hconst x hx
      exact ⟨w, hw, evaluate_of_constant hids (mem_visited_of_operand hvisited harith hx) hw⟩
  · intro inner form target hform hsource htarget
    have hvisited := mem_visited_of_contains he (by simp [hform])
    rcases findingsAt_of_cast hids haccept hvisited hform hsource htarget with
      ⟨check, hcheck⟩ | ⟨value, hvalue⟩
    · exact ⟨_, markersAt_eq_singleton hids hvisited hcheck, Or.inl ⟨check, rfl⟩⟩
    · exact ⟨_, markersAt_eq_singleton hids hvisited hvalue, Or.inr ⟨value, rfl⟩⟩
  · intro base index t hform hbase
    have hvisited := mem_visited_of_contains he (by simp [hform])
    exact markersAt_eq_singleton hids hvisited
      (findingsAt_of_index hids haccept hvisited hform hbase)

end Context

namespace GuardedAccess

def node (id : ℕ) (form : ExprForm) : Expr := ⟨id, ⟨0, 0⟩, .named "i32", form⟩

/-- A remainder by a variable, inside a narrowing cast. -/
def bounded : Expr :=
  node 2 (.binary (node 0 (.var "i")) .rem .checked (node 1 (.var "n")))

def narrowed : Expr := node 3 (.cast bounded .truncating (.named "u8"))

def access : Expr := node 5 (.index (node 4 (.var "items")) narrowed)

/-- The access is the argument of a call inside a guarded block. -/
def context : Context where
  options := .default
  registry := .empty
  signatures := .empty
  types :=
    ⟨.ofList [(0, Ty.int .i32), (1, Ty.int .i32), (2, Ty.int .i32), (3, Ty.int .u8),
      (4, Ty.array (.int .i32)), (5, Ty.int .i32)], ∅, .ofList [(3, Ty.int .u8)]⟩
  body := ⟨[], none, ⟨⟨"f", ⟨0, 0⟩⟩, [], [], none, false, none⟩,
    ⟨⟨0, 0⟩, [.attempt ⟨⟨0, 0⟩, [.expr (node 6 (.call [] "use" [access]))]⟩ none ⟨⟨0, 0⟩, []⟩]⟩⟩

theorem exprs_eq : context.body.block.exprs =
    [node 4 (.var "items"), node 0 (.var "i"), node 1 (.var "n"), bounded, narrowed, access,
      node 6 (.call [] "use" [access])] := rfl

theorem accepted : context.Accepted := by
  have hall : context.constantFindings.all (·.problem?.isNone) = true := by decide
  intro f hf
  exact Option.isNone_iff_eq_none.1 (List.all_eq_true.1 hall f hf)

theorem accepted_operations_marked_access :
    (Annotations.ofFindings context.constantFindings).markersAt 5 = [.bounds 5] ∧
      (∃ m, (Annotations.ofFindings context.constantFindings).markersAt 3 = [m]) ∧
      ∃ m, (Annotations.ofFindings context.constantFindings).markersAt 2 = [m] := by
  have hids : context.body.block.DistinctIds :=
    (by decide : (context.body.block.exprs.map Expr.id).Nodup)
  have hmarked : ∀ e ∈ context.body.block.exprs, _ := fun e he =>
    Context.accepted_operations_marked hids accepted (Block.mem_exprs_iff.1 he)
  obtain ⟨-, -, haccess⟩ := hmarked access (by simp [exprs_eq])
  obtain ⟨-, hcast, -⟩ := hmarked narrowed (by simp [exprs_eq])
  obtain ⟨hop, -, -⟩ := hmarked bounded (by simp [exprs_eq])
  have hsource : context.types.expr bounded = .int .i32 := by decide
  have htarget : context.types.castTarget narrowed = .int .u8 := by decide
  refine ⟨haccess _ _ (.int .i32) rfl (by decide), ?_, ?_⟩
  · obtain ⟨m, hm, -⟩ := hcast _ _ _ rfl (by simp [hsource]) (by simp [htarget])
    exact ⟨m, hm⟩
  · obtain ⟨m, hm, -⟩ := hop _ (.binary rfl rfl hsource)
    exact ⟨m, hm⟩

end GuardedAccess

end ProgramSafety
