import ProgramSafety.Proofs.Ownership.Scopes
import ProgramSafety.Proofs.Ownership.TransferObligations
import ProgramSafety.Proofs.Ownership.WeakInstances
import ProgramSafety.Proofs.Tree.Occurrences

/-!
# Uses of raw pointers

Taking an address and dereferencing a raw pointer is allowed inside unsafe blocks only. The
analysis of ownership goes by the setting of a visit. `Block.InsideUnsafe` says of an address
in the body that it goes through an unsafe block, and the problems that the analysis reports
are one for each occurrence outside of them (`Context.raw_uses_reported`).

The same can be found out by counting: `Context.depthStep` adds one on entering an unsafe
block, takes one away on leaving it, and reports uses while the count is zero. A fragment
leaves the count as it was (`Context.transduce_depthStep_visits`), so the count is zero again
at the end of a body.
-/

namespace ProgramSafety

/-! ## Problems about raw pointers -/

def Finding.unsafeProblem? (f : Finding) : Option Problem :=
  f.problem?.filter (·.kind == .unsafeContext)

theorem Finding.filterMap_unsafeProblem?_eq_nil {fs : List Finding}
    (hfs : ∀ p, .problem p ∈ fs → p.kind ≠ .unsafeContext) :
    fs.filterMap Finding.unsafeProblem? = [] := by
  rw [List.filterMap_eq_nil_iff]
  intro f hf
  cases f with
  | problem p => simp [unsafeProblem?, problem?, Option.filter, hfs p hf]
  | _ => rfl

theorem Registry.kind_of_mem_weakUse {r : Registry} {span : Span} {t : Ty} {p : Problem}
    (hp : p ∈ r.weakUse span t) : p.kind = .ownership := by
  rw [weakUse, weakProblems_eq_flatMap] at hp
  obtain ⟨w, -, hp⟩ := List.mem_flatMap.1 hp
  rcases List.mem_append.1 hp with hp | hp
  · split at hp
    · cases hp
    · obtain rfl := List.mem_singleton.1 hp
      rfl
  · split at hp
    · cases hp
    · obtain rfl := List.mem_singleton.1 hp
      rfl

/-- What a machine puts out of one kind does not depend on its state, if no step's does. -/
theorem filterMap_transduce {σ α β γ : Type} {step : σ → α → σ × List β} {g : β → Option γ}
    {out : α → List γ} (hstep : ∀ s a, (step s a).2.filterMap g = out a) (s : σ) (as : List α) :
    (transduce step s as).2.filterMap g = as.flatMap out := by
  induction as generalizing s with
  | nil => rfl
  | cons a as ih =>
      rw [transduce_cons, List.filterMap_append, hstep, ih, List.flatMap_cons]

namespace Context

variable {c : Context} {e : Expr} {what : String}

inductive UsesRaw (c : Context) (e : Expr) : String → Prop where
  | address {x : Expr} (hform : e.form = .addressOf x) : UsesRaw c e "taking a raw pointer"
  | target {x : Expr} {t : Ty} (hform : e.form = .deref x) (htype : c.types.expr x = .rawPtr t) :
      UsesRaw c e "dereferencing a raw pointer"

theorem rawUse?_eq_some_iff : c.rawUse? e = some what ↔ c.UsesRaw e what := by
  constructor
  · intro h
    unfold rawUse? at h
    split at h
    next hform =>
      obtain rfl := Option.some.inj h
      exact .address hform
    next hform =>
      split at h
      next htype =>
        obtain rfl := Option.some.inj h
        exact .target hform htype
      next => cases h
    next => cases h
  · intro h
    cases h with
    | address hform => simp [rawUse?, hform]
    | target hform htype => simp [rawUse?, hform, htype]

def rawProblem? (c : Context) : Setting × Fragment → Option Problem
  | (here, .expr e) =>
    if here.rawAllowed then none
    else (c.rawUse? e).map fun what => ⟨.unsafeContext what, e.span⟩
  | _ => none

theorem rawProblem?_eq_some_iff {here : Setting} {n : Fragment} {p : Problem} :
    c.rawProblem? (here, n) = some p ↔
      here.rawAllowed = false ∧ ∃ e what, n = .expr e ∧ c.UsesRaw e what ∧
        p = ⟨.unsafeContext what, e.span⟩ := by
  cases n with
  | expr e =>
      rw [rawProblem?]
      cases here.rawAllowed with
      | true => simp
      | false =>
          simp only [Bool.false_eq_true, if_false, Option.map_eq_some_iff, rawUse?_eq_some_iff,
            true_and]
          constructor
          · rintro ⟨what, hwhat, rfl⟩
            exact ⟨e, what, rfl, hwhat, rfl⟩
          · rintro ⟨e', what, he, hwhat, rfl⟩
            obtain rfl := Fragment.expr.inj he
            exact ⟨what, hwhat, rfl⟩
  | _ => simp [rawProblem?]

theorem rawProblems_eq (c : Context) (here : Setting) (n : Fragment) :
    c.rawProblems here n = (c.rawProblem? (here, n)).toList := by
  cases n with
  | expr e =>
      rw [rawProblems, rawProblem?]
      split
      · rfl
      · cases c.rawUse? e <;> rfl
  | _ => rfl

theorem kind_of_mem_transferFindings {x : Transfer} {p : Problem}
    (hp : .problem p ∈ c.transferFindings x) : p.kind = .ownership := by
  obtain ⟨value, dest⟩ := x
  cases hkind : c.registry.kindOf (c.types.expr value) with
  | value =>
      rw [transferFindings_of_value hkind] at hp
      split at hp <;> simp at hp
  | sharedRef =>
      rw [transferFindings_of_sharedRef hkind] at hp
      split at hp
      · simp at hp
      · split at hp <;> simp at hp
  | weakRef =>
      by_cases hknown : dest = .unknown
      · subst hknown
        rw [transferFindings_of_unknown hkind] at hp
        cases hp
      rw [transferFindings_of_weakRef hkind hknown] at hp
      split at hp
      · cases hp
      · split at hp
        · split at hp <;> simp at hp
        · obtain rfl : p = .weakRead _ dest value.span := by simpa using hp
          rfl
  | rawPointer =>
      rw [transferFindings_of_rawPointer hkind] at hp
      cases hp

theorem kind_of_mem_useFindings {u : Use} {p : Problem} (hp : .problem p ∈ c.useFindings u) :
    p.kind = .ownership := by
  cases u with
  | transfer x => exact kind_of_mem_transferFindings hp
  | reach base =>
      rw [useFindings, readThrough] at hp
      split at hp <;> simp at hp
  | overwrite target value =>
      rw [useFindings, overwritten] at hp
      split at hp <;> simp at hp

theorem filterMap_unsafeProblem?_ownershipFindings (c : Context) (v : Visit) :
    (c.ownershipFindings v).filterMap Finding.unsafeProblem? =
      (v.left?.bind c.rawProblem?).toList := by
  obtain ⟨here, event⟩ := v
  obtain ⟨n, rfl⟩ | ⟨n, rfl⟩ := event.enter_or_leave
  · have hleft : Visit.left? ⟨here, n.enter⟩ = none := by simp [Visit.left?]
    rw [hleft]
    apply Finding.filterMap_unsafeProblem?_eq_nil
    intro p hp
    cases n with
    | stmt s =>
        cases s with
        | bind name isMutable type init =>
            obtain ⟨q, hq, hqp⟩ := List.mem_map.1 hp
            obtain rfl := Finding.problem.inj hqp
            simp [Registry.kind_of_mem_weakUse hq]
        | _ => cases hp
    | _ => cases hp
  · have hleft : Visit.left? ⟨here, n.leave⟩ = some (here, n) := by simp [Visit.left?]
    have huses : ((c.uses n).flatMap c.useFindings).filterMap Finding.unsafeProblem? = [] := by
      apply Finding.filterMap_unsafeProblem?_eq_nil
      intro p hp
      obtain ⟨u, -, hp⟩ := List.mem_flatMap.1 hp
      simp [kind_of_mem_useFindings hp]
    rw [hleft, Option.bind_some, ownershipFindings_leave, List.filterMap_append, huses,
      List.append_nil, rawProblems_eq]
    cases hraw : c.rawProblem? (here, n) with
    | none => rfl
    | some p =>
        obtain ⟨-, e, what, -, -, rfl⟩ := rawProblem?_eq_some_iff.1 hraw
        rfl

def unsafeProblems (c : Context) (next : ℕ) : List Problem :=
  (c.lifetimeFindings next).2.filterMap Finding.unsafeProblem?

/-- The analysis looks at every occurrence once, in the order of the addresses. -/
theorem unsafeProblems_eq (c : Context) (next : ℕ) :
    c.unsafeProblems next =
      (Fragment.placed.subtrees (.outermost, .block .body c.body.block)).filterMap
        c.rawProblem? := by
  have hstep : ∀ s v, (c.lifetimeStep s v).2.filterMap Finding.unsafeProblem? =
      (v.left?.bind c.rawProblem?).toList := by
    intro s v
    have hscopes : (c.scopeStep s v.event).2.filterMap Finding.unsafeProblem? = [] := by
      apply Finding.filterMap_unsafeProblem?_eq_nil
      intro p hp
      obtain ⟨name, h⟩ | ⟨o, h⟩ := scopeStep_cases hp <;> cases h
    have hfound : (c.lifetimeStep s v).2 = c.ownershipFindings v ++ (c.scopeStep s v.event).2 := rfl
    rw [hfound, List.filterMap_append, hscopes, List.append_nil,
      filterMap_unsafeProblem?_ownershipFindings]
  have htour : c.body.block.tour =
      (Fragment.block .body c.body.block).visits (fun _ => true) .outermost := rfl
  rw [← Fragment.filterMap_left_visits, List.filterMap_filterMap, ← htour,
    List.filterMap_eq_flatMap_toList]
  exact filterMap_transduce hstep (.start next) c.body.block.tour

end Context

/-! ## Counting open unsafe blocks -/

namespace Context

/-- One event, counting the open unsafe blocks: a use of a raw pointer is reported if there is
none. -/
def depthStep (c : Context) (depth : ℕ) : Event → ℕ × List Problem
  | .enterStmt (.unsafeBlock _) => (depth + 1, [])
  | .leaveStmt (.unsafeBlock _) => (depth - 1, [])
  | .leaveExpr e =>
    (depth, if depth = 0 then (c.rawUse? e).toList.map fun what => ⟨.unsafeContext what, e.span⟩
      else [])
  | _ => (depth, [])

def depthInside (depth : ℕ) : Fragment → ℕ
  | .stmt (.unsafeBlock _) => depth + 1
  | _ => depth

theorem depthStep_enter (c : Context) (depth : ℕ) (n : Fragment) :
    c.depthStep depth n.enter = (depthInside depth n, []) := by
  cases n with
  | stmt s => cases s <;> rfl
  | _ => rfl

theorem depthStep_leave (c : Context) {depth : ℕ} {here : Setting} (n : Fragment)
    (hdepth : here.rawAllowed = true ↔ 0 < depth) :
    c.depthStep (depthInside depth n) n.leave = (depth, (c.rawProblem? (here, n)).toList) := by
  cases n with
  | expr e =>
      have hnone : depth = 0 ↔ here.rawAllowed = false := by
        rw [← Bool.not_eq_true, hdepth, Nat.pos_iff_ne_zero, not_not]
      simp only [Fragment.leave, depthStep, depthInside, rawProblem?, hnone]
      cases here.rawAllowed with
      | true => rfl
      | false => cases c.rawUse? e <;> rfl
  | stmt s => cases s <;> rfl
  | block role b => rfl

theorem rawAllowed_of_mem_parts {depth : ℕ} {here : Setting} {n : Fragment}
    {p : Setting × Fragment} (hp : p ∈ n.parts here)
    (hdepth : here.rawAllowed = true ↔ 0 < depth) :
    p.1.rawAllowed = true ↔ 0 < depthInside depth n := by
  obtain ⟨body, binder, handler, rfl, rfl⟩ | ⟨body, rfl, rfl⟩ | ⟨hhere, hsafe, -⟩ :=
    Fragment.setting_of_mem_parts hp
  · exact hdepth
  · simp [depthInside]
  · have hinside : depthInside depth n = depth := by
      unfold depthInside
      split
      next body => exact absurd rfl (hsafe body)
      next => rfl
    rw [hhere, hinside, hdepth]

/-- Counting through a fragment ends at the number it began with, and reports the occurrences
that the settings do not allow. -/
theorem transduce_depthStep_visits (c : Context) (n : Fragment) {depth : ℕ} {here : Setting}
    (hdepth : here.rawAllowed = true ↔ 0 < depth) :
    transduce c.depthStep depth ((n.visits (fun _ => true) here).map Visit.event) =
      (depth, (Fragment.placed.subtrees (here, n)).filterMap c.rawProblem?) := by
  induction n using Fragment.induction generalizing here depth with
  | step n ih =>
      have hparts : transduce c.depthStep (depthInside depth n) ((n.parts here).flatMap fun p =>
          (p.2.visits (fun _ => true) p.1).map Visit.event) =
            (depthInside depth n, (n.parts here).flatMap fun p =>
              (Fragment.placed.subtrees p).filterMap c.rawProblem?) :=
        transduce_flatMap_of_fixed fun p hp => ih here p hp (rawAllowed_of_mem_parts hp hdepth)
      rw [Fragment.visits_eq, Fragment.toured_all, List.map_append, List.map_cons,
        List.map_flatMap, List.map_singleton, transduce_around, depthStep_enter, hparts,
        c.depthStep_leave n hdepth, Layout.filterMap_subtrees, List.nil_append]
      rfl

end Context

/-! ## Occurrences outside of unsafe blocks -/

/-- The address goes through the block of an unsafe statement, which is its only part. -/
def Block.InsideUnsafe (b : Block) (p : Address) : Prop :=
  ∃ q body, b.at? q = some (.stmt (.unsafeBlock body)) ∧ q ++ [0] <+: p

theorem Block.openedAlong_iff_insideUnsafe {b : Block} {p : Address} :
    Region.rawAllowed.OpenedAlong (.block .body b) p ↔ b.InsideUnsafe p := by
  have hpart : ∀ {q body} (i : ℕ), b.at? q = some (.stmt (.unsafeBlock body)) →
      b.at? (q ++ [i]) = [Fragment.block .plain body][i]? := by
    intro q body i hq
    rw [Block.at?] at hq ⊢
    rw [Layout.at?_concat, hq]
    rfl
  constructor
  · rintro ⟨q, i, s, body, hle, hs, hopen, hb⟩
    cases s with
    | unsafeBlock body' =>
        have hi := (hpart i hs).symm.trans hb
        obtain rfl : i = 0 := by
          by_contra hne
          simp [hne] at hi
        exact ⟨q, body', hs, hle⟩
    | _ => simp [Region.rawAllowed] at hopen
  · rintro ⟨q, body, hs, hle⟩
    exact ⟨q, 0, _, body, hle, hs, rfl, hpart 0 hs⟩

theorem forall₂_filterMap {α β : Type} (f : α → Option β) (as : List α) :
    List.Forall₂ (fun a b => f a = some b) (as.filter fun a => (f a).isSome) (as.filterMap f) := by
  induction as with
  | nil => exact .nil
  | cons a as ih =>
      cases ha : f a with
      | none => simpa [ha] using ih
      | some b => simpa [ha] using ih

namespace Context

variable {c : Context} {p : Address} {problem : Problem}

noncomputable def rawProblemAt? (c : Context) (p : Address) : Option Problem :=
  (Fragment.placed.at? (.outermost, .block .body c.body.block) p).bind c.rawProblem?

theorem rawProblemAt?_eq_some_iff :
    c.rawProblemAt? p = some problem ↔
      ¬ c.body.block.InsideUnsafe p ∧ ∃ e what, c.body.block.at? p = some (.expr e) ∧
        c.UsesRaw e what ∧ problem = ⟨.unsafeContext what, e.span⟩ := by
  have hat := Fragment.layout_at?_eq .outermost (.block .body c.body.block) p
  rw [rawProblemAt?, Block.at?, hat]
  cases hp : Fragment.placed.at? (.outermost, .block .body c.body.block) p with
  | none => simp
  | some x =>
      obtain ⟨setting, n⟩ := x
      have hmark : setting.rawAllowed = true ↔ c.body.block.InsideUnsafe p := by
        rw [← Block.openedAlong_iff_insideUnsafe]
        exact (Fragment.mark_iff_openedAlong .rawAllowed hp).trans (or_iff_right Bool.false_ne_true)
      rw [Option.bind_some, rawProblem?_eq_some_iff, ← hmark, Bool.not_eq_true, Option.map_some]
      simp only [Option.some.injEq]

noncomputable def exposed (c : Context) : List Address :=
  (Fragment.placed.addresses (.outermost, .block .body c.body.block)).filter fun p =>
    (c.rawProblemAt? p).isSome

theorem mem_exposed_iff :
    p ∈ c.exposed ↔ ¬ c.body.block.InsideUnsafe p ∧
      ∃ e what, c.body.block.at? p = some (.expr e) ∧ c.UsesRaw e what := by
  rw [exposed, List.mem_filter, Layout.mem_addresses_iff, Option.isSome_iff_exists]
  constructor
  · rintro ⟨-, problem, hp⟩
    obtain ⟨houtside, e, what, hat, hraw, -⟩ := rawProblemAt?_eq_some_iff.1 hp
    exact ⟨houtside, e, what, hat, hraw⟩
  · rintro ⟨houtside, e, what, hat, hraw⟩
    have hp := rawProblemAt?_eq_some_iff.2 ⟨houtside, e, what, hat, hraw, rfl⟩
    obtain ⟨x, hx, -⟩ := Option.bind_eq_some_iff.1 hp
    exact ⟨Option.ne_none_iff_exists'.2 ⟨x, hx⟩, _, hp⟩

theorem forall₂_exposed (c : Context) (next : ℕ) :
    List.Forall₂ (fun p problem => c.rawProblemAt? p = some problem) c.exposed
      (c.unsafeProblems next) := by
  rw [unsafeProblems_eq, Layout.filterMap_subtrees_eq_addresses]
  exact forall₂_filterMap c.rawProblemAt? _

/-- Uses of raw pointers are reported exactly: the problems are, one by one and in order, those
of the occurrences in the body that take an address or dereference a raw pointer and that no
unsafe block encloses. Counting the open unsafe blocks along the tour reports the same, and
the count is zero at the end. -/
theorem raw_uses_reported (c : Context) (next : ℕ) :
    (∃ exposed : List Address, exposed.Nodup ∧
      (∀ p, p ∈ exposed ↔ ¬ c.body.block.InsideUnsafe p ∧
        ∃ e what, c.body.block.at? p = some (.expr e) ∧ c.UsesRaw e what) ∧
      List.Forall₂ (fun p problem => ∃ e what, c.body.block.at? p = some (.expr e) ∧
        c.UsesRaw e what ∧ problem = ⟨.unsafeContext what, e.span⟩)
        exposed (c.unsafeProblems next)) ∧
    transduce c.depthStep 0 (c.body.block.tour.map Visit.event) = (0, c.unsafeProblems next) := by
  constructor
  · refine ⟨c.exposed, (Layout.nodup_addresses _ _).filter _, fun p => mem_exposed_iff, ?_⟩
    exact (c.forall₂_exposed next).imp fun p problem hp => (rawProblemAt?_eq_some_iff.1 hp).2
  · rw [unsafeProblems_eq]
    exact c.transduce_depthStep_visits (.block .body c.body.block) (by simp [Setting.outermost])

end Context

end ProgramSafety
