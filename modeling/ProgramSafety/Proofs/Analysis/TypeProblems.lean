import ProgramSafety.Proofs.Analysis.FirstMatch
import ProgramSafety.Proofs.Ownership.RawUses

/-!
# Problems with written types

Every analysis of a body reports problems of its own kinds: ownership and the use of raw
pointers, the values of constants, the arms of matches, and the ways of failures. None of them
reports that a written type stands for nothing (`Context.isAboutType_of_mem_findings`), and
resolving a type reports nothing else (`Registry.isAboutType_of_resolve`).
-/

namespace ProgramSafety

/-- The problem is that a written type stands for nothing. -/
def Problem.isAboutType (p : Problem) : Bool := p.kind = .unknownType || p.kind = .genericArity

/-! ## The analyses of a body -/

theorem Coverage.isAboutType_of_mem_problems {enum : String} {vs : List Variant} {span : Span}
    {covered : List String} {caught : Bool} {ps : List Pattern} {x : Problem}
    (hx : x ∈ (ofPatterns enum vs span covered caught ps).problems) : x.isAboutType = false := by
  induction ps generalizing covered caught with
  | nil =>
      rw [ofPatterns] at hx
      dsimp only at hx
      split at hx
      · cases hx
      · rw [List.mem_singleton.1 hx]
        rfl
  | cons p ps ih =>
      rw [problems_cons] at hx
      rcases List.mem_append.1 hx with hx | hx
      · rcases kind_ofPattern hx with hkind | hkind <;> simp [Problem.isAboutType, hkind]
      · exact ih hx

namespace Context

variable {c : Context} {p : Problem}

theorem isAboutType_of_mem_ownershipFindings {v : Visit}
    (hp : .problem p ∈ c.ownershipFindings v) : p.isAboutType = false := by
  obtain ⟨here, event⟩ := v
  obtain ⟨n, rfl⟩ | ⟨n, rfl⟩ := event.enter_or_leave
  · cases n with
    | stmt s =>
        cases s with
        | bind name isMutable type init =>
            obtain ⟨q, hq, hqp⟩ := List.mem_map.1 hp
            obtain rfl := Finding.problem.inj hqp
            simp [Problem.isAboutType, Registry.kind_of_mem_weakUse hq]
        | _ => cases hp
    | _ => cases hp
  · rw [ownershipFindings_leave, List.mem_append, List.mem_flatMap] at hp
    rcases hp with hp | ⟨u, -, hp⟩
    · obtain ⟨q, hq, hqp⟩ := List.mem_map.1 hp
      obtain rfl := Finding.problem.inj hqp
      rw [rawProblems_eq, Option.mem_toList] at hq
      obtain ⟨-, e, what, -, -, rfl⟩ := rawProblem?_eq_some_iff.1 hq
      rfl
    · simp [Problem.isAboutType, kind_of_mem_useFindings hp]

theorem isAboutType_of_mem_lifetimeFindings {next : ℕ}
    (hp : .problem p ∈ (c.lifetimeFindings next).2) : p.isAboutType = false := by
  have hrun : .problem p ∈ (transduce c.lifetimeStep (.start next) c.body.block.tour).2 := hp
  obtain ⟨s, v, -, hp⟩ := exists_of_mem_transduce hrun
  rcases List.mem_append.1 hp with hp | hp
  · exact isAboutType_of_mem_ownershipFindings hp
  · obtain ⟨name, h⟩ | ⟨o, h⟩ := scopeStep_cases hp <;> cases h

theorem Outcome.isAboutType_of_mem {known : Constants} {e : Expr} {value : Option Int}
    {fs : List Finding} (h : c.Outcome known e value fs) (hp : .problem p ∈ fs) :
    p.isAboutType = false := by
  have hsingle : ∀ {q : Problem}, .problem p ∈ [Finding.problem q] → p = q := fun hp =>
    Finding.problem.inj (List.mem_singleton.1 hp)
  cases h with
  | literal | idle => cases hp
  | misfit =>
      rw [hsingle hp]
      rfl
  | operation harith hout =>
      cases hout with
      | deferred | computed => simp at hp
      | fails =>
          rw [hsingle hp]
          rfl
  | cast hform hout =>
      cases hout with
      | untyped | deferred | computed => simp at hp
      | invalid | fails =>
          rw [hsingle hp]
          rfl
  | @access base index hform =>
      rcases c.indexFindings_cases known e base index with ⟨q, hkind, hq⟩ | hchecked
      · rw [hq] at hp
        simp [Problem.isAboutType, hsingle hp, hkind]
      · rw [hchecked] at hp
        split at hp <;> simp at hp

theorem isAboutType_of_mem_constantFindings (hp : .problem p ∈ c.constantFindings) :
    p.isAboutType = false := by
  rw [constantFindings_eq_transduce] at hp
  obtain ⟨known, e, -, hp⟩ := exists_of_mem_transduce hp
  obtain ⟨value, fs, hout⟩ := c.exists_outcome known e
  rw [hout.constantStep_eq] at hp
  exact hout.isAboutType_of_mem hp

theorem isAboutType_of_mem_matchFindings {node : ℕ} {span : Span} {scrutinee : Expr}
    {patterns : List Pattern} (hp : .problem p ∈ c.matchFindings node span scrutinee patterns) :
    p.isAboutType = false := by
  unfold matchFindings at hp
  dsimp only at hp
  split at hp
  · cases hp
  · split at hp
    · rcases List.mem_append.1 hp with hp | hp
      · obtain ⟨q, hq, hqp⟩ := List.mem_map.1 hp
        obtain rfl := Finding.problem.inj hqp
        exact Coverage.isAboutType_of_mem_problems hq
      · cases List.mem_singleton.1 hp
    · obtain ⟨q, hq, hqp⟩ := List.mem_map.1 hp
      obtain rfl := Finding.problem.inj hqp
      obtain ⟨pattern, -, hq⟩ := List.mem_filterMap.1 hq
      cases pattern with
      | catchAll => cases hq
      | variants =>
          obtain rfl := Option.some.inj hq
          rfl

theorem isAboutType_of_mem_coverageFindings (hp : .problem p ∈ c.coverageFindings) :
    p.isAboutType = false := by
  obtain ⟨v, -, hp⟩ := List.mem_flatMap.1 hp
  unfold coverageVisit at hp
  split at hp
  · split at hp
    · exact isAboutType_of_mem_matchFindings hp
    · cases hp
  · cases hp

theorem isAboutType_of_mem_routingFindings (hp : .problem p ∈ c.routingFindings) :
    p.isAboutType = false := by
  obtain ⟨v, -, hp⟩ := List.mem_flatMap.1 hp
  unfold routingVisit at hp
  split at hp
  · cases hp
  · split at hp
    · cases List.mem_singleton.1 hp
    · obtain rfl := Finding.problem.inj (List.mem_singleton.1 hp)
      rfl

theorem isAboutType_of_mem_findings {next : ℕ} (hp : .problem p ∈ (c.findings next).2) :
    p.isAboutType = false := by
  rw [findings_eq, nodeFindings, List.mem_append, List.mem_append, List.mem_append] at hp
  rcases hp with hp | (hp | hp) | hp
  · exact isAboutType_of_mem_lifetimeFindings hp
  · exact isAboutType_of_mem_constantFindings hp
  · exact isAboutType_of_mem_coverageFindings hp
  · exact isAboutType_of_mem_routingFindings hp

end Context

/-! ## Resolving types -/

theorem eq_error_of_map {ε α β : Type} {x : Except ε α} {f : α → β} {e : ε}
    (h : x.map f = .error e) : x = .error e := by
  cases x with
  | error e' => exact congrArg Except.error (Except.error.inj h)
  | ok a => cases h

namespace Registry

variable {r : Registry} {scope : Scope}

theorem isAboutType_of_resolveDef {t : TypeRef} {p : Problem}
    (h : r.resolveDef scope t = .error p) : p.isAboutType = true := by
  unfold resolveDef at h
  split at h
  · obtain rfl := Except.error.inj h
    rfl
  · split at h
    · obtain rfl := Except.error.inj h
      rfl
    · split at h
      · cases h
      · obtain rfl := Except.error.inj h
        rfl

mutual

theorem isAboutType_of_resolve : ∀ {t : TypeRef} {p : Problem}, r.resolve scope t = .error p →
    p.isAboutType = true
  | ⟨span, path, name, args⟩, p, h => by
    unfold resolve at h
    dsimp only at h
    split at h
    next =>
      split at h
      · cases h
      · obtain rfl := Except.error.inj h
        rfl
    next =>
      split at h
      next => exact isAboutType_of_resolve (eq_error_of_map h)
      next =>
        obtain rfl := Except.error.inj h
        rfl
    next =>
      split at h
      next hdef =>
        obtain rfl := Except.error.inj h
        exact isAboutType_of_resolveDef hdef
      next => exact isAboutType_of_resolveList (eq_error_of_map h)

theorem isAboutType_of_resolveList : ∀ {ts : List TypeRef} {p : Problem},
    r.resolveList scope ts = .error p → p.isAboutType = true
  | [], p, h => by cases h
  | t :: ts, p, h => by
    unfold resolveList at h
    split at h
    next hq =>
      obtain rfl := Except.error.inj h
      exact isAboutType_of_resolve hq
    next => exact isAboutType_of_resolveList (eq_error_of_map h)

end

end Registry

end ProgramSafety
