import Mathlib.Data.Set.Lattice
import Mathlib.Order.CompletePartialOrder
import ProgramSafety.Proofs.Ownership.ReleaseBalance
import ProgramSafety.Proofs.Ownership.Renumbering

/-!
# Bodies analysed together

The bodies of a program share a table of types and the numbers of their bindings. If
two lists of bodies have no node in common, the table of both says about a node of one
of them what the table of that one says (`TypeTable.sameAt_ofBodies_left`,
`TypeTable.sameAt_ofBodies_right`). The findings about both are then the findings about
each, the bindings of the second numbered after those of the first
(`Session.bodyFindings_append`).
-/

namespace ProgramSafety

def bodyIds (bs : List Body) : Set ℕ := {i | ∃ b ∈ bs, i ∈ b.block.ids}

theorem ids_subset_bodyIds {bs : List Body} {b : Body} (hb : b ∈ bs) : b.block.ids ⊆ bodyIds bs :=
  fun _ hi => ⟨b, hb, hi⟩

/-! ## Types -/

namespace TypeTable

variable {r : Registry} {t t' t'' : TypeTable} {i : ℕ} {bs cs : List Body}

structure SameAt (i : ℕ) (t t' : TypeTable) : Prop where
  exprs : t.exprs[i]? = t'.exprs[i]?
  bindings : t.bindings[i]? = t'.bindings[i]?
  casts : t.casts[i]? = t'.casts[i]?

theorem SameAt.refl (i : ℕ) (t : TypeTable) : SameAt i t t := ⟨rfl, rfl, rfl⟩

theorem SameAt.trans (h : SameAt i t t') (h' : SameAt i t' t'') : SameAt i t t'' :=
  ⟨h.exprs.trans h'.exprs, h.bindings.trans h'.bindings, h.casts.trans h'.casts⟩

theorem SameAt.agreeAt {e : Expr} (h : SameAt e.id t t') : t.AgreeAt t' e := by
  have hexpr : t.expr e = t'.expr e := by
    rw [expr, expr, Std.TreeMap.getD_eq_getD_getElem?, Std.TreeMap.getD_eq_getD_getElem?, h.exprs]
  refine ⟨hexpr, ?_, ?_⟩
  · rw [binding, binding, Std.TreeMap.getD_eq_getD_getElem?, Std.TreeMap.getD_eq_getD_getElem?,
      h.bindings, hexpr]
  · rw [castTarget, castTarget, Std.TreeMap.getD_eq_getD_getElem?,
      Std.TreeMap.getD_eq_getD_getElem?, h.casts]

theorem getElem?_insert_congr {α : Type} {m m' : Std.TreeMap ℕ α} (h : m[i]? = m'[i]?) (j : ℕ)
    (a : α) : (m.insert j a)[i]? = (m'.insert j a)[i]? := by
  rw [Std.TreeMap.getElem?_insert, Std.TreeMap.getElem?_insert, h]

theorem getElem?_insert_of_ne {α : Type} (m : Std.TreeMap ℕ α) {j : ℕ} (hj : j ≠ i) (a : α) :
    (m.insert j a)[i]? = m[i]? := by
  rw [Std.TreeMap.getElem?_insert, if_neg (by simpa using hj)]

/-- What an event enters does not depend on what is there. -/
theorem SameAt.enter (h : SameAt i t t') (r : Registry) (scope : Scope) (event : Event) :
    SameAt i (t.enter r scope event) (t'.enter r scope event) := by
  unfold TypeTable.enter
  split
  · exact ⟨h.exprs, getElem?_insert_congr h.bindings _ _, h.casts⟩
  · dsimp only
    split
    · exact ⟨getElem?_insert_congr h.exprs _ _, h.bindings, getElem?_insert_congr h.casts _ _⟩
    · exact ⟨getElem?_insert_congr h.exprs _ _, h.bindings, h.casts⟩
  · exact h

/-- The visits of a body enter nothing at nodes of other bodies. -/
theorem enter_sameAt {b : Body} {v : Visit} (hv : v ∈ b.block.tour) (hi : i ∉ b.block.ids)
    (t : TypeTable) : SameAt i (t.enter r b.scope v.event) t := by
  have hne : ∀ e, b.block.Contains e → e.id ≠ i := fun e he hid =>
    hi (hid ▸ Block.id_mem_ids he)
  unfold TypeTable.enter
  split
  next name isMutable type init hevent =>
    have hinit : b.block.Contains init := by
      obtain ⟨n, hn, hfragment⟩ := Block.has_of_mem_tour hv
      obtain rfl : n = .stmt (.bind name isMutable type init) := by
        rw [hevent] at hfragment
        cases n <;> simp_all [Fragment.enter, Fragment.leave]
      exact hn.contains_of_mem_subjects (Fragment.mem_subjects_of_mem_inside List.mem_cons_self)
    exact ⟨rfl, getElem?_insert_of_ne _ (hne init hinit) _, rfl⟩
  next e hevent =>
    have he := hne e (Block.contains_of_mem_tour hv (Or.inl hevent))
    dsimp only
    split
    · exact ⟨getElem?_insert_of_ne _ he _, rfl, getElem?_insert_of_ne _ he _⟩
    · exact ⟨getElem?_insert_of_ne _ he _, rfl, rfl⟩
  next => exact .refl i t

theorem SameAt.addBody (h : SameAt i t t') (b : Body) :
    SameAt i (t.addBody r b) (t'.addBody r b) := by
  unfold TypeTable.addBody
  induction b.block.tour generalizing t t' with
  | nil => exact h
  | cons v vs ih => exact ih (h.enter r b.scope v.event)

theorem addBody_sameAt {b : Body} (hi : i ∉ b.block.ids) (t : TypeTable) :
    SameAt i (t.addBody r b) t := by
  have hvisits : ∀ vs ⊆ b.block.tour, ∀ t : TypeTable,
      SameAt i (vs.foldl (fun t v => t.enter r b.scope v.event) t) t := by
    intro vs
    induction vs with
    | nil => exact fun _ t => .refl i t
    | cons v vs ih =>
        intro hsub t
        obtain ⟨hv, hvs⟩ := List.cons_subset.1 hsub
        exact (ih hvs _).trans (enter_sameAt hv hi t)
  exact hvisits _ (List.Subset.refl _) t

theorem SameAt.addBodies (h : SameAt i t t') (bs : List Body) :
    SameAt i (bs.foldl (TypeTable.addBody r) t) (bs.foldl (TypeTable.addBody r) t') := by
  induction bs generalizing t t' with
  | nil => exact h
  | cons b bs ih => exact ih (h.addBody b)

theorem addBodies_sameAt (hi : i ∉ bodyIds bs) (t : TypeTable) :
    SameAt i (bs.foldl (addBody r) t) t := by
  induction bs generalizing t with
  | nil => exact .refl i t
  | cons b bs ih =>
      have hrest : i ∉ bodyIds bs := fun ⟨b', hb', hi'⟩ =>
        hi ⟨b', List.mem_cons_of_mem _ hb', hi'⟩
      have hb : i ∉ b.block.ids := fun hi' => hi ⟨b, List.mem_cons_self, hi'⟩
      exact (ih hrest _).trans (addBody_sameAt hb t)

theorem sameAt_ofBodies_left (hi : i ∉ bodyIds cs) :
    SameAt i (ofBodies r (bs ++ cs)) (ofBodies r bs) := by
  rw [ofBodies, List.foldl_append]
  exact addBodies_sameAt hi _

theorem sameAt_ofBodies_right (hi : i ∉ bodyIds bs) :
    SameAt i (ofBodies r (bs ++ cs)) (ofBodies r cs) := by
  rw [ofBodies, List.foldl_append]
  exact (addBodies_sameAt hi _).addBodies cs

end TypeTable

/-! ## Findings -/

namespace Session

variable {s : Session} {types types' : TypeTable} {bs cs : List Body} {f : Finding}

/-- The findings of one body after the other, with the number after the last binding. -/
def run (s : Session) (types : TypeTable) (next : ℕ) (bs : List Body) : ℕ × List Finding :=
  transduce (fun next b => (s.context types b).findings next) next bs

theorem run_congr (h : ∀ b ∈ bs, (s.context types b).Agrees types') (next : ℕ) :
    s.run types' next bs = s.run types next bs :=
  transduce_congr (fun b hb next =>
    Context.findings_revise (c := s.context types b) (h b hb) s.options.limit next) next

theorem run_shift (s : Session) (types : TypeTable) (next k : ℕ) (bs : List Body) :
    s.run types (next + k) bs =
      ((s.run types next bs).1 + k, (s.run types next bs).2.map (Finding.shift k)) :=
  transduce_equivariant (g := (· + k)) (fun b _ next => (s.context types b).findings_shift next k)
    next

theorem belongs_run (s : Session) (types : TypeTable) (next : ℕ) (bs : List Body) :
    next ≤ (s.run types next bs).1 ∧ ∀ f ∈ (s.run types next bs).2,
      f.Belongs (bodyIds bs) (Set.Ico next (s.run types next bs).1) := by
  induction bs generalizing next with
  | nil => exact ⟨Nat.le_refl _, by simp [run]⟩
  | cons b bs ih =>
      obtain ⟨hle, hbody⟩ := (s.context types b).belongs_findings next
      obtain ⟨hle', hrest⟩ := ih ((s.context types b).findings next).1
      have hrun : s.run types next (b :: bs) =
          ((s.run types ((s.context types b).findings next).1 bs).1,
            ((s.context types b).findings next).2 ++
              (s.run types ((s.context types b).findings next).1 bs).2) := rfl
      rw [hrun]
      refine ⟨Nat.le_trans hle hle', fun f hf => ?_⟩
      rcases List.mem_append.1 hf with hf | hf
      · exact (hbody f hf).mono (ids_subset_bodyIds List.mem_cons_self)
          (Set.Ico_subset_Ico_right hle')
      · exact (hrest f hf).mono (fun i ⟨b', hb', hi⟩ => ⟨b', List.mem_cons_of_mem _ hb', hi⟩)
          (Set.Ico_subset_Ico_left hle)

/-- A run takes up one number for every binding. -/
theorem run_fst (s : Session) (types : TypeTable) (next : ℕ) (bs : List Body) :
    (s.run types next bs).1 =
      next + ((s.run types next bs).2.filterMap Finding.bound?).length := by
  have hforest := s.describes_bodies types bs next
  have hstate := congrArg Lifetimes.next hforest.state
  have hbound := congrArg List.length hforest.bound
  rw [List.length_map] at hbound
  rw [run, hbound]
  exact hstate

def typeFindings (s : Session) (bs : List Body) : List Finding :=
  bs.flatMap s.registry.bodyTypeFindings

def ranFindings (s : Session) (bs : List Body) : List Finding :=
  (s.run (.ofBodies s.registry bs) 0 bs).2

def bodyFindings (s : Session) (bs : List Body) : List Finding :=
  s.typeFindings bs ++ s.ranFindings bs

def bindingCount (s : Session) (bs : List Body) : ℕ := (s.run (.ofBodies s.registry bs) 0 bs).1

theorem belongs_typeFindings (hf : f ∈ s.typeFindings bs) : f.Belongs (bodyIds bs) ∅ := by
  obtain ⟨b, hb, hf⟩ := List.mem_flatMap.1 hf
  exact (Registry.atNode_bodyTypeFindings hf).belongs.mono (ids_subset_bodyIds hb)
    (Set.Subset.refl _)

/-- Resolving types finds problems and instances. -/
theorem filterMap_typeFindings {β : Type} {g : Finding → Option β}
    (hproblem : ∀ p, g (.problem p) = none) (hinstance : ∀ i c, g (.instantiated i c) = none) :
    (s.typeFindings bs).filterMap g = [] := by
  have hproblems : ∀ ps : List Problem, ∀ f ∈ ps.map Finding.problem, g f = none := by
    intro ps f hf
    obtain ⟨p, -, rfl⟩ := List.mem_map.1 hf
    exact hproblem p
  rw [List.filterMap_eq_nil_iff]
  intro f hf
  obtain ⟨b, -, hf⟩ := List.mem_flatMap.1 hf
  obtain ⟨v, -, hf⟩ := List.mem_flatMap.1 hf
  unfold Registry.typeFindings at hf
  split at hf
  · exact hproblems _ f hf
  · rcases List.mem_append.1 hf with hf | hf
    · obtain ⟨i, -, rfl⟩ := List.mem_map.1 hf
      exact hinstance _ i
    · exact hproblems _ f hf
  · simp at hf

theorem belongs_ranFindings (hf : f ∈ s.ranFindings bs) :
    f.Belongs (bodyIds bs) (Set.Iio (s.bindingCount bs)) :=
  ((s.belongs_run _ 0 bs).2 f hf).mono (Set.Subset.refl _) Set.Ico_subset_Iio_self

theorem belongs_bodyFindings (hf : f ∈ s.bodyFindings bs) :
    f.Belongs (bodyIds bs) (Set.Iio (s.bindingCount bs)) := by
  rcases List.mem_append.1 hf with hf | hf
  · exact (belongs_typeFindings hf).mono (Set.Subset.refl _) (Set.empty_subset _)
  · exact belongs_ranFindings hf

/-- Two lists of bodies without a common node are analysed as each of them is, the
bindings of the second being numbered on. -/
theorem bodyFindings_append (hids : Disjoint (bodyIds bs) (bodyIds cs)) :
    s.bodyFindings (bs ++ cs) =
      s.typeFindings bs ++ s.typeFindings cs ++
        (s.ranFindings bs ++ (s.ranFindings cs).map (Finding.shift (s.bindingCount bs))) := by
  have hleft : ∀ b ∈ bs, (s.context (.ofBodies s.registry bs) b).Agrees
      (.ofBodies s.registry (bs ++ cs)) := by
    intro b hb e he
    have hmem : e.id ∈ bodyIds bs := ⟨b, hb, Block.id_mem_ids he⟩
    exact (TypeTable.sameAt_ofBodies_left (Set.disjoint_left.1 hids hmem)).agreeAt
  have hright : ∀ b ∈ cs, (s.context (.ofBodies s.registry cs) b).Agrees
      (.ofBodies s.registry (bs ++ cs)) := by
    intro b hb e he
    have hmem : e.id ∈ bodyIds cs := ⟨b, hb, Block.id_mem_ids he⟩
    exact (TypeTable.sameAt_ofBodies_right (Set.disjoint_right.1 hids hmem)).agreeAt
  have hrun : s.ranFindings (bs ++ cs) =
      s.ranFindings bs ++ (s.ranFindings cs).map (Finding.shift (s.bindingCount bs)) := by
    have hsecond := s.run_shift (.ofBodies s.registry cs) 0 (s.bindingCount bs) cs
    rw [Nat.zero_add] at hsecond
    calc s.ranFindings (bs ++ cs)
        = (s.run (.ofBodies s.registry (bs ++ cs)) 0 bs).2 ++
            (s.run (.ofBodies s.registry (bs ++ cs))
              (s.run (.ofBodies s.registry (bs ++ cs)) 0 bs).1 cs).2 :=
          congrArg Prod.snd (transduce_append _ 0 bs cs)
      _ = s.ranFindings bs ++ (s.run (.ofBodies s.registry cs) (s.bindingCount bs) cs).2 := by
          rw [run_congr hleft, run_congr hright]
          rfl
      _ = s.ranFindings bs ++ (s.ranFindings cs).map (Finding.shift (s.bindingCount bs)) := by
          rw [hsecond]
          rfl
  rw [bodyFindings, hrun, typeFindings, List.flatMap_append]
  rfl

end Session

end ProgramSafety
