import ProgramSafety.Proofs.Analysis.Bodies
import ProgramSafety.Proofs.Analysis.Cached
import ProgramSafety.Proofs.Analysis.Merging
import ProgramSafety.Proofs.Report.Limit
import ProgramSafety.Tree.Outline

/-!
# Analysis of several units

Programs without a common node can be analysed one by one or together. The analysis of
both is the analyses of each, merged (`Analysis.Merges`): lists of annotations follow one
another, the bindings of the second program being numbered on, tables are united, and
problems come in another order at most. In the same way the analysis of a program is that
of its functions, each analysed alone (`Annotations.Embeds`), so it makes no difference
to a function which others stand before, after or beside it
(`Session.analyze_compositional`).
-/

namespace ProgramSafety

def IsUnion {α : Type} (t t' whole : Std.TreeMap ℕ α) : Prop :=
  ∀ (i : ℕ) (a : α), whole[i]? = some a ↔ t[i]? = some a ∨ t'[i]? = some a

/-- An analysis is made of two others, the bindings of the second being numbered after
those of the first. -/
structure Analysis.Merges (a b whole : Analysis) : Prop where
  bindings : whole.annotations.bindings = a.annotations.bindings ++ b.annotations.bindings
  obligations : whole.annotations.obligations.items.toList =
    a.annotations.obligations.items.toList ++
      b.annotations.obligations.items.toList.map (Obligation.shift a.annotations.bindings.length)
  markers : whole.annotations.markers.items.toList =
    a.annotations.markers.items.toList ++ b.annotations.markers.items.toList
  instances : IsUnion a.annotations.instances b.annotations.instances whole.annotations.instances
  plans : IsUnion a.annotations.plans b.annotations.plans whole.annotations.plans
  routes : IsUnion a.annotations.routes b.annotations.routes whole.annotations.routes
  problems : whole.report.problems.Perm (a.report.problems ++ b.report.problems)
  truncated : whole.report.truncated = (a.report.truncated || b.report.truncated)

inductive Analysis.MergesAll : List Analysis → Analysis → Prop where
  | nil : MergesAll [] ⟨.empty, .ofLimit none⟩
  | cons {a rest whole : Analysis} {as : List Analysis} (h : a.Merges rest whole)
      (hrest : MergesAll as rest) : MergesAll (a :: as) whole

/-- The annotations say about the nodes, and about the bindings numbered from `k` on, what
the annotations of a part say. -/
structure Annotations.Embeds (nodes : Set ℕ) (k : ℕ) (part whole : Annotations) : Prop where
  sameAt : ∀ i ∈ nodes, whole.SameAt i part
  bindings : ∀ d < part.bindings.length, whole.bindings[d + k]? = part.bindings[d]?
  obligationsOf : ∀ d < part.bindings.length,
    whole.obligationsOf (d + k) = (part.obligationsOf d).map (Obligation.shift k)

theorem Annotations.Embeds.trans {nodes nodes' : Set ℕ} {k l : ℕ} {part middle whole : Annotations}
    (h : part.Embeds nodes k middle) (h' : middle.Embeds nodes' l whole) (hnodes : nodes ⊆ nodes') :
    part.Embeds nodes (k + l) whole := by
  have hmiddle : ∀ d < part.bindings.length, d + k < middle.bindings.length := by
    intro d hd
    have hsome := (h.bindings d hd).trans (List.getElem?_eq_getElem hd)
    exact (List.getElem?_eq_some_iff.1 hsome).1
  refine ⟨fun i hi => (h'.sameAt i (hnodes hi)).trans (h.sameAt i hi), fun d hd => ?_,
    fun d hd => ?_⟩
  · rw [← Nat.add_assoc, h'.bindings _ (hmiddle d hd), h.bindings d hd]
  · rw [← Nat.add_assoc, h'.obligationsOf _ (hmiddle d hd), h.obligationsOf d hd, List.map_map]
    exact List.map_congr_left fun o _ => o.shift_shift k l

namespace Session

variable {s : Session} {bs cs : List Body}

def analyzeBodies (s : Session) (bs : List Body) : Analysis :=
  ⟨.ofFindings (s.bodyFindings bs),
    .ofProblems s.options.limit ((s.bodyFindings bs).filterMap Finding.problem?)⟩

theorem analyze_eq_analyzeBodies (s : Session) (p : Program) :
    s.analyze p = s.analyzeBodies p.bodies := rfl

/-! ## Findings at a node -/

theorem sameAt_left (hids : Disjoint (bodyIds bs) (bodyIds cs)) {i : ℕ} (hi : i ∉ bodyIds cs) :
    (s.analyzeBodies (bs ++ cs)).annotations.SameAt i (s.analyzeBodies bs).annotations := by
  apply Annotations.sameAt_of_filter_eq
  have htypes := Finding.filter_isAt_eq_nil (fun _ hf => belongs_typeFindings (s := s) hf) hi
  have hran := Finding.filter_isAt_eq_nil (fun _ hf => belongs_ranFindings (s := s) hf) hi
  rw [bodyFindings_append hids, bodyFindings]
  simp only [List.filter_append, Finding.filter_isAt_map_shift, htypes, hran, List.append_nil]

theorem sameAt_right (hids : Disjoint (bodyIds bs) (bodyIds cs)) {i : ℕ} (hi : i ∉ bodyIds bs) :
    (s.analyzeBodies (bs ++ cs)).annotations.SameAt i (s.analyzeBodies cs).annotations := by
  apply Annotations.sameAt_of_filter_eq
  have htypes := Finding.filter_isAt_eq_nil (fun _ hf => belongs_typeFindings (s := s) hf) hi
  have hran := Finding.filter_isAt_eq_nil (fun _ hf => belongs_ranFindings (s := s) hf) hi
  rw [bodyFindings_append hids, bodyFindings]
  simp only [List.filter_append, Finding.filter_isAt_map_shift, htypes, hran, List.nil_append]

/-- Nothing is recorded at the nodes of other bodies. -/
theorem sameAt_empty {i : ℕ} (hi : i ∉ bodyIds bs) :
    (s.analyzeBodies bs).annotations.SameAt i .empty := by
  have hnone := Finding.filter_isAt_eq_nil (fun _ hf => belongs_bodyFindings (s := s) hf) hi
  have hsame : (s.bodyFindings bs).filter (·.isAt i) = ([] : List Finding).filter (·.isAt i) :=
    hnone
  exact Annotations.sameAt_of_filter_eq hsame

/-- A node belongs to at most one of two lists of bodies, and what is said about it is
what that list says. -/
theorem sameAt_cases (hids : Disjoint (bodyIds bs) (bodyIds cs)) (i : ℕ) :
    ((s.analyzeBodies (bs ++ cs)).annotations.SameAt i (s.analyzeBodies bs).annotations ∧
        (s.analyzeBodies cs).annotations.SameAt i .empty) ∨
      (s.analyzeBodies (bs ++ cs)).annotations.SameAt i (s.analyzeBodies cs).annotations ∧
        (s.analyzeBodies bs).annotations.SameAt i .empty := by
  by_cases hi : i ∈ bodyIds cs
  · have hbs := Set.disjoint_right.1 hids hi
    exact Or.inr ⟨sameAt_right hids hbs, sameAt_empty hbs⟩
  · exact Or.inl ⟨sameAt_left hids hi, sameAt_empty hi⟩

theorem isUnion_of_cases {α : Type} {t t' whole : Std.TreeMap ℕ α}
    (h : ∀ i : ℕ, (whole[i]? = t[i]? ∧ t'[i]? = none) ∨ (whole[i]? = t'[i]? ∧ t[i]? = none)) :
    IsUnion t t' whole := by
  intro i a
  rcases h i with ⟨hwhole, hnone⟩ | ⟨hwhole, hnone⟩
  · simp [hwhole, hnone]
  · simp [hwhole, hnone]

/-! ## Bindings, obligations and markers -/

theorem filterMap_map_shift {β : Type} {g : Finding → Option β} {k : ℕ}
    (hg : ∀ f : Finding, g (f.shift k) = g f) (fs : List Finding) :
    (fs.map (Finding.shift k)).filterMap g = fs.filterMap g := by
  rw [List.filterMap_map]
  exact congrArg (List.filterMap · fs) (funext hg)

theorem filterMap_obligation?_map_shift (k : ℕ) (fs : List Finding) :
    (fs.map (Finding.shift k)).filterMap Finding.obligation? =
      (fs.filterMap Finding.obligation?).map (Obligation.shift k) := by
  rw [List.filterMap_map, List.map_filterMap]
  congr 1
  funext f
  cases f <;> rfl

/-- Apart from problems and instances, what is found about two lists of bodies is found
about the first and then about the second. -/
theorem filterMap_bodyFindings_append {β : Type} {g : Finding → Option β}
    (hids : Disjoint (bodyIds bs) (bodyIds cs)) (hproblem : ∀ p, g (.problem p) = none)
    (hinstance : ∀ i c, g (.instantiated i c) = none) :
    (s.bodyFindings (bs ++ cs)).filterMap g =
      (s.bodyFindings bs).filterMap g ++
        ((s.bodyFindings cs).map (Finding.shift (s.bindingCount bs))).filterMap g := by
  have htypes : ∀ bs, (s.typeFindings bs).filterMap g = [] := fun bs =>
    filterMap_typeFindings hproblem hinstance
  have hfixed : (s.typeFindings cs).map (Finding.shift (s.bindingCount bs)) = s.typeFindings cs :=
    Finding.map_shift_eq (fun f hf => belongs_typeFindings hf) _
  rw [bodyFindings_append hids, bodyFindings, bodyFindings, List.map_append, hfixed]
  simp only [List.filterMap_append, htypes, List.nil_append]

theorem length_bindings (s : Session) (bs : List Body) :
    (s.analyzeBodies bs).annotations.bindings.length = s.bindingCount bs := by
  have htypes : (s.typeFindings bs).filterMap Finding.bound? = [] :=
    filterMap_typeFindings (fun _ => rfl) (fun _ _ => rfl)
  have hbindings : (s.analyzeBodies bs).annotations.bindings =
      (s.ranFindings bs).filterMap Finding.bound? := by
    rw [analyzeBodies, Annotations.bindings_ofFindings, bodyFindings, List.filterMap_append, htypes,
      List.nil_append]
  have hcount := s.run_fst (.ofBodies s.registry bs) 0 bs
  rw [Nat.zero_add] at hcount
  rw [hbindings]
  exact hcount.symm

theorem bindings_append (hids : Disjoint (bodyIds bs) (bodyIds cs)) :
    (s.analyzeBodies (bs ++ cs)).annotations.bindings =
      (s.analyzeBodies bs).annotations.bindings ++ (s.analyzeBodies cs).annotations.bindings := by
  have hshift : ∀ f : Finding, (f.shift (s.bindingCount bs)).bound? = f.bound? := by
    intro f
    cases f <;> rfl
  simp only [analyzeBodies, Annotations.bindings_ofFindings]
  rw [filterMap_bodyFindings_append hids (fun _ => rfl) (fun _ _ => rfl),
    filterMap_map_shift hshift]

/-- An obligation of other bodies stays another when its binding is moved behind. -/
theorem anchor_ne_shift {a b : Anchor} {nodes nodes' decls : Set ℕ} {n : ℕ}
    (hnodes : Disjoint nodes nodes') (ha : a.Belongs nodes (Set.Iio n))
    (hb : b.Belongs nodes' decls) : a ≠ b.shift n := by
  rintro rfl
  cases b with
  | node id => exact Set.disjoint_left.1 hnodes ha hb
  | binding decl => exact Nat.not_lt.2 (Nat.le_add_left n decl) ha

theorem belongs_anchor {o : Obligation}
    (ho : o ∈ (s.bodyFindings bs).filterMap Finding.obligation?) :
    o.anchor.Belongs (bodyIds bs) (Set.Iio (s.bindingCount bs)) := by
  obtain ⟨f, hf, hfo⟩ := List.mem_filterMap.1 ho
  cases f with
  | obligation o' => exact Option.some.inj hfo ▸ belongs_bodyFindings hf
  | _ => cases hfo

theorem obligations_append (hids : Disjoint (bodyIds bs) (bodyIds cs)) :
    (s.analyzeBodies (bs ++ cs)).annotations.obligations.items.toList =
      (s.analyzeBodies bs).annotations.obligations.items.toList ++
        (s.analyzeBodies cs).annotations.obligations.items.toList.map
          (Obligation.shift (s.bindingCount bs)) := by
  have hdisjoint : (((s.bodyFindings cs).filterMap Finding.obligation?).map
      (Obligation.shift (s.bindingCount bs))).removeAll
        ((s.bodyFindings bs).filterMap Finding.obligation?) =
      ((s.bodyFindings cs).filterMap Finding.obligation?).map
        (Obligation.shift (s.bindingCount bs)) := by
    rw [List.removeAll, List.filter_eq_self]
    intro o ho
    obtain ⟨o', ho', rfl⟩ := List.mem_map.1 ho
    have hnot : o'.shift (s.bindingCount bs) ∉
        (s.bodyFindings bs).filterMap Finding.obligation? := by
      intro hmem
      have hne := anchor_ne_shift hids (belongs_anchor hmem) (belongs_anchor ho')
      exact hne (o'.anchor_shift _)
    simpa using hnot
  simp only [analyzeBodies, Annotations.obligations_ofFindings]
  rw [filterMap_bodyFindings_append hids (fun _ => rfl) (fun _ _ => rfl),
    filterMap_obligation?_map_shift, List.eraseDups_append, hdisjoint,
    eraseDups_map (Obligation.shift_injective _)]

theorem markers_append (hids : Disjoint (bodyIds bs) (bodyIds cs)) :
    (s.analyzeBodies (bs ++ cs)).annotations.markers.items.toList =
      (s.analyzeBodies bs).annotations.markers.items.toList ++
        (s.analyzeBodies cs).annotations.markers.items.toList := by
  have hshift : ∀ f : Finding, (f.shift (s.bindingCount bs)).marker? = f.marker? := by
    intro f
    cases f <;> rfl
  have hnode : ∀ {bs : List Body} {m : Marker},
      m ∈ (s.bodyFindings bs).filterMap Finding.marker? → m.node ∈ bodyIds bs := by
    intro bs m hm
    obtain ⟨f, hf, hfm⟩ := List.mem_filterMap.1 hm
    cases f with
    | marker m' => exact Option.some.inj hfm ▸ belongs_bodyFindings hf
    | _ => cases hfm
  simp only [analyzeBodies, Annotations.markers_ofFindings]
  rw [filterMap_bodyFindings_append hids (fun _ => rfl) (fun _ _ => rfl),
    filterMap_map_shift hshift]
  apply Ledger.toList_ofList_append
  intro m hm m' hm' hkey
  have hsame : m.node = m'.node := hkey
  exact Set.disjoint_left.1 hids (hnode hm) (hsame ▸ hnode hm')

/-! ## Problems -/

theorem problems_analyzeBodies (hlimit : s.options.limit = none) (bs : List Body) :
    (s.analyzeBodies bs).report = .cut none ((s.bodyFindings bs).filterMap Finding.problem?) := by
  rw [analyzeBodies, Report.ofProblems_eq_cut, hlimit]

theorem problems_append (hids : Disjoint (bodyIds bs) (bodyIds cs)) :
    ((s.bodyFindings (bs ++ cs)).filterMap Finding.problem?).Perm
      ((s.bodyFindings bs).filterMap Finding.problem? ++
        (s.bodyFindings cs).filterMap Finding.problem?) := by
  have hshift : ∀ f : Finding, (f.shift (s.bindingCount bs)).problem? = f.problem? := by
    intro f
    cases f <;> rfl
  rw [bodyFindings_append hids, bodyFindings, bodyFindings]
  simp only [List.filterMap_append, filterMap_map_shift hshift, List.append_assoc]
  apply List.Perm.append_left
  rw [← List.append_assoc, ← List.append_assoc]
  exact List.perm_append_comm.append_right _

/-- Lists of bodies without a common node are analysed as each of them is. -/
theorem merges_append (hlimit : s.options.limit = none)
    (hids : Disjoint (bodyIds bs) (bodyIds cs)) :
    (s.analyzeBodies bs).Merges (s.analyzeBodies cs) (s.analyzeBodies (bs ++ cs)) where
  bindings := bindings_append hids
  obligations := s.length_bindings bs ▸ obligations_append hids
  markers := markers_append hids
  instances := isUnion_of_cases fun i => (sameAt_cases hids i).imp
    (fun h => ⟨h.1.instances, h.2.instances⟩) (fun h => ⟨h.1.instances, h.2.instances⟩)
  plans := isUnion_of_cases fun i => (sameAt_cases hids i).imp
    (fun h => ⟨h.1.plans, h.2.plans⟩) (fun h => ⟨h.1.plans, h.2.plans⟩)
  routes := isUnion_of_cases fun i => (sameAt_cases hids i).imp
    (fun h => ⟨h.1.routes, h.2.routes⟩) (fun h => ⟨h.1.routes, h.2.routes⟩)
  problems := by
    simp only [problems_analyzeBodies hlimit]
    exact problems_append hids
  truncated := by
    simp only [problems_analyzeBodies hlimit]
    rfl

/-! ## Parts of a list of bodies -/

theorem obligationsOf_analyzeBodies (s : Session) (bs : List Body) (decl : ℕ) :
    (s.analyzeBodies bs).annotations.obligationsOf decl =
      (s.analyzeBodies bs).annotations.obligations.items.toList.filter
        (·.anchor = .binding decl) :=
  Annotations.obligationsOf_ofFindings _ _

theorem obligationsOf_append (hids : Disjoint (bodyIds bs) (bodyIds cs)) (decl : ℕ) :
    (s.analyzeBodies (bs ++ cs)).annotations.obligationsOf decl =
      (s.analyzeBodies bs).annotations.obligationsOf decl ++
        ((s.analyzeBodies cs).annotations.obligations.items.toList.filter
          (·.anchor.shift (s.bindingCount bs) = .binding decl)).map
            (Obligation.shift (s.bindingCount bs)) := by
  rw [obligationsOf_analyzeBodies, obligationsOf_analyzeBodies, obligations_append hids,
    List.filter_append, List.filter_map]
  simp only [Function.comp_def, Obligation.anchor_shift]

/-- The first bodies keep their numbers. -/
theorem embeds_left (hids : Disjoint (bodyIds bs) (bodyIds cs)) :
    (s.analyzeBodies bs).annotations.Embeds (bodyIds bs) 0
      (s.analyzeBodies (bs ++ cs)).annotations where
  sameAt i hi := sameAt_left hids (Set.disjoint_left.1 hids hi)
  bindings d hd := by rw [bindings_append hids, Nat.add_zero, List.getElem?_append_left hd]
  obligationsOf d hd := by
    rw [length_bindings] at hd
    have hnone : (s.analyzeBodies cs).annotations.obligations.items.toList.filter
        (·.anchor.shift (s.bindingCount bs) = .binding d) = [] := by
      rw [List.filter_eq_nil_iff]
      intro o _ ho
      exact Nat.not_le.2 hd (Anchor.le_of_shift_eq (of_decide_eq_true ho))
    rw [Nat.add_zero, obligationsOf_append hids, hnone, List.map_nil, List.append_nil,
      Obligation.shift_zero, List.map_id]

/-- The other bodies are numbered after them. -/
theorem embeds_right (hids : Disjoint (bodyIds bs) (bodyIds cs)) :
    (s.analyzeBodies cs).annotations.Embeds (bodyIds cs)
      (s.analyzeBodies bs).annotations.bindings.length
      (s.analyzeBodies (bs ++ cs)).annotations where
  sameAt i hi := sameAt_right hids (Set.disjoint_right.1 hids hi)
  bindings d _ := by
    rw [bindings_append hids, List.getElem?_append_right (Nat.le_add_left _ _),
      Nat.add_sub_cancel]
  obligationsOf d _ := by
    have hnone : (s.analyzeBodies bs).annotations.obligationsOf (d + s.bindingCount bs) = [] := by
      rw [obligationsOf_analyzeBodies, List.filter_eq_nil_iff]
      intro o ho hanchor
      rw [analyzeBodies, Annotations.obligations_ofFindings, List.mem_eraseDups] at ho
      have hbelongs := belongs_anchor ho
      rw [of_decide_eq_true hanchor] at hbelongs
      exact Nat.not_lt.2 (Nat.le_add_left _ d) hbelongs
    rw [length_bindings, obligationsOf_append hids, hnone, List.nil_append,
      obligationsOf_analyzeBodies]
    simp only [Anchor.shift_eq_binding_iff]

theorem disjoint_bodyIds (h : ∀ b ∈ bs, ∀ c ∈ cs, Disjoint b.block.ids c.block.ids) :
    Disjoint (bodyIds bs) (bodyIds cs) := by
  rw [Set.disjoint_left]
  rintro i ⟨b, hb, hi⟩ ⟨c, hc, hi'⟩
  exact Set.disjoint_left.1 (h b hb c hc) hi hi'

def Separate (bs : List Body) : Prop := bs.Pairwise fun b c => Disjoint b.block.ids c.block.ids

/-- A body among others is analysed as it is alone. -/
theorem embeds_body {pre post : List Body} {b : Body} (hbs : Separate (pre ++ b :: post)) :
    (s.analyzeBodies [b]).annotations.Embeds b.block.ids
      (s.analyzeBodies pre).annotations.bindings.length
      (s.analyzeBodies (pre ++ b :: post)).annotations := by
  obtain ⟨-, hrest, hpre⟩ := List.pairwise_append.1 hbs
  have hpost : Disjoint (bodyIds [b]) (bodyIds post) := by
    apply disjoint_bodyIds
    intro b' hb' c hc
    rw [List.mem_singleton.1 hb']
    exact (List.pairwise_cons.1 hrest).1 c hc
  have hfirst := embeds_left (s := s) hpost
  have hrest' := embeds_right (s := s) (disjoint_bodyIds hpre)
  have hwhole := hfirst.trans hrest' fun i ⟨b', hb', hi⟩ =>
    ⟨b', List.mem_singleton.1 hb' ▸ List.mem_cons_self, hi⟩
  have hids : bodyIds [b] = b.block.ids := by simp [bodyIds]
  rwa [hids, Nat.zero_add] at hwhole

theorem problems_perm (hlimit : s.options.limit = none) (hbs : Separate bs) :
    (s.analyzeBodies bs).report.problems.Perm
      (bs.flatMap fun b => (s.analyzeBodies [b]).report.problems) := by
  induction bs with
  | nil =>
      rw [problems_analyzeBodies hlimit]
      exact List.Perm.refl _
  | cons b bs ih =>
      obtain ⟨hb, hrest⟩ := List.pairwise_cons.1 hbs
      have hids : Disjoint (bodyIds [b]) (bodyIds bs) := by
        apply disjoint_bodyIds
        intro b' hb' c hc
        rw [List.mem_singleton.1 hb']
        exact hb c hc
      exact (merges_append hlimit hids).problems.trans ((ih hrest).append_left _)

end Session

/-! ## Programs -/

theorem Decl.itemsList_append (space : Namespace) (ds es : List Decl) :
    Decl.itemsList space (ds ++ es) = Decl.itemsList space ds ++ Decl.itemsList space es := by
  induction ds with
  | nil => rfl
  | cons d ds ih => rw [List.cons_append, itemsList, itemsList, ih, List.append_assoc]

namespace Program

theorem bodies_append (ds es : List Decl) :
    (Program.mk (ds ++ es)).bodies = (Program.mk ds).bodies ++ (Program.mk es).bodies := by
  rw [bodies, items, Decl.itemsList_append, List.flatMap_append]
  rfl

theorem bodies_flatMap (ps : List Program) :
    (Program.mk (ps.flatMap Program.decls)).bodies = ps.flatMap Program.bodies := by
  induction ps with
  | nil => rfl
  | cons p ps ih => rw [List.flatMap_cons, bodies_append, ih, List.flatMap_cons]

theorem mem_exprIds_iff {p : Program} {i : ℕ} : i ∈ p.exprIds ↔ i ∈ bodyIds p.bodies := by
  constructor
  · intro hi
    obtain ⟨v, hv, hid⟩ := List.mem_filterMap.1 hi
    obtain ⟨b, hb, hv⟩ := List.mem_flatMap.1 hv
    split at hid
    next e henter =>
      obtain rfl := Option.some.inj hid
      exact ⟨b, hb, Block.id_mem_ids (Block.contains_of_mem_tour hv (Or.inl henter))⟩
    next => cases hid
  · rintro ⟨b, hb, e, he, rfl⟩
    obtain ⟨setting, hv⟩ :=
      Fragment.exists_enter_mem_visits (Block.has_expr_iff.2 he) .outermost
    exact List.mem_filterMap.2 ⟨⟨setting, .enterExpr e⟩, List.mem_flatMap.2 ⟨b, hb, hv⟩, rfl⟩

theorem disjoint_bodyIds_iff {p q : Program} :
    Disjoint (bodyIds p.bodies) (bodyIds q.bodies) ↔ List.Disjoint p.exprIds q.exprIds := by
  rw [Set.disjoint_left]
  constructor
  · intro h i hp hq
    exact h (mem_exprIds_iff.1 hp) (mem_exprIds_iff.1 hq)
  · intro h i hp hq
    exact h (mem_exprIds_iff.2 hp) (mem_exprIds_iff.2 hq)

end Program

namespace Session

variable {s : Session}

theorem merges_analyze (hlimit : s.options.limit = none) {p q : Program}
    (hids : List.Disjoint p.exprIds q.exprIds) :
    (s.analyze p).Merges (s.analyze q) (s.analyze ⟨p.decls ++ q.decls⟩) := by
  have hmerges := merges_append hlimit (Program.disjoint_bodyIds_iff.2 hids)
  rwa [← Program.bodies_append] at hmerges

theorem mergesAll_analyze (hlimit : s.options.limit = none) {ps : List Program}
    (hids : ps.Pairwise fun p q => List.Disjoint p.exprIds q.exprIds) :
    Analysis.MergesAll (s.analyzeAll ps) (s.analyze ⟨ps.flatMap Program.decls⟩) := by
  induction ps with
  | nil =>
      have hempty : s.analyze ⟨[]⟩ = ⟨.empty, .ofLimit none⟩ := by
        rw [← hlimit]
        rfl
      exact hempty ▸ Analysis.MergesAll.nil
  | cons p ps ih =>
      obtain ⟨hp, hrest⟩ := List.pairwise_cons.1 hids
      have hjoined : List.Disjoint p.exprIds (Program.mk (ps.flatMap Program.decls)).exprIds := by
        intro i hi hi'
        rw [Program.mem_exprIds_iff, Program.bodies_flatMap] at hi'
        obtain ⟨b, hb, hib⟩ := hi'
        obtain ⟨q, hq, hb⟩ := List.mem_flatMap.1 hb
        exact hp q hq hi (Program.mem_exprIds_iff.2 ⟨b, hb, hib⟩)
      exact .cons (merges_analyze hlimit hjoined) (ih hrest)

/-- The order of the bodies does not matter to what is said about a node. -/
theorem sameAt_of_perm {bs cs : List Body} (hbs : Separate bs) (hperm : bs.Perm cs) (i : ℕ) :
    (s.analyzeBodies bs).annotations.SameAt i (s.analyzeBodies cs).annotations := by
  have hcs : Separate cs := (hperm.pairwise_iff fun h => h.symm).1 hbs
  by_cases hi : i ∈ bodyIds bs
  · obtain ⟨b, hb, hi⟩ := hi
    obtain ⟨pre, post, rfl⟩ := List.append_of_mem hb
    obtain ⟨pre', post', rfl⟩ := List.append_of_mem (hperm.subset hb)
    exact ((embeds_body hbs).sameAt i hi).trans ((embeds_body hcs).sameAt i hi).symm
  · have hi' : i ∉ bodyIds cs := fun ⟨b, hb, hib⟩ => hi ⟨b, hperm.symm.subset hb, hib⟩
    exact (sameAt_empty hi).trans (sameAt_empty hi').symm

theorem problems_perm_of_perm (hlimit : s.options.limit = none) {bs cs : List Body}
    (hbs : Separate bs) (hperm : bs.Perm cs) :
    (s.analyzeBodies bs).report.problems.Perm (s.analyzeBodies cs).report.problems := by
  have hcs : Separate cs := (hperm.pairwise_iff fun h => h.symm).1 hbs
  exact (problems_perm hlimit hbs).trans
    ((hperm.flatMap_right _).trans (problems_perm hlimit hcs).symm)

/-- Analysis is compositional. Two programs without a common node are analysed together
as each of them is, and so are several, however a program is split into them. A function
of a program is analysed as it is alone, and reordering the functions changes neither
what is said about any node nor the problems. The caches that the functions of a program
share do not show. -/
theorem analyze_compositional (s : Session) (hlimit : s.options.limit = none) :
    (∀ p q : Program, List.Disjoint p.exprIds q.exprIds →
      (s.analyze p).Merges (s.analyze q) (s.analyze ⟨p.decls ++ q.decls⟩)) ∧
    (∀ ps : List Program, ps.Pairwise (fun p q => List.Disjoint p.exprIds q.exprIds) →
      Analysis.MergesAll (s.analyzeAll ps) (s.analyze ⟨ps.flatMap Program.decls⟩)) ∧
    (∀ p : Program, Separate p.bodies →
      (s.analyze p).report.problems.Perm
        (p.bodies.flatMap fun b => (s.analyzeBodies [b]).report.problems) ∧
      ∀ pre b post, p.bodies = pre ++ b :: post →
        (s.analyzeBodies [b]).annotations.Embeds b.block.ids
          (s.analyzeBodies pre).annotations.bindings.length (s.analyze p).annotations) ∧
    (∀ p p' : Program, Separate p.bodies → p.bodies.Perm p'.bodies →
      (s.analyze p).report.problems.Perm (s.analyze p').report.problems ∧
      ∀ i, (s.analyze p).annotations.SameAt i (s.analyze p').annotations) ∧
    ∀ p : Program, s.cachedAnalyze p = s.analyze p := by
  refine ⟨fun p q => merges_analyze hlimit, fun ps => mergesAll_analyze hlimit, fun p hp => ?_,
    fun p p' hp hperm => ⟨problems_perm_of_perm hlimit hp hperm, sameAt_of_perm hp hperm⟩,
    s.cachedAnalyze_eq⟩
  refine ⟨problems_perm hlimit hp, fun pre b post hsplit => ?_⟩
  rw [analyze_eq_analyzeBodies, hsplit]
  exact embeds_body (hsplit ▸ hp)

end Session

namespace TwoUnits

def node (id : ℕ) (type : TypeRef) (form : ExprForm) : Expr := ⟨id, .nowhere, type, form⟩

def block (stmts : List Stmt) : Block := ⟨.nowhere, stmts⟩

def cell : TypeRef := .named "Cell"

def number : TypeRef := .named "i32"

def maybe : TypeRef := .applied "Maybe" [number]

def sum (id : ℕ) : Expr :=
  node id number (.binary (node (id + 1) number (.var "n")) .add .checked
    (node (id + 2) number (.var "n")))

def choice (id : ℕ) : Expr :=
  node id number (.matchOn .nowhere (node (id + 1) maybe (.var "m"))
    [⟨.variants .nowhere [⟨.nowhere, "none", .none⟩], block []⟩, ⟨.catchAll .nowhere, block []⟩])

def fails (id : ℕ) : Expr := node id (.named "void") (.call [] "fails" [])

/-- A function that binds its parameter again, adds, matches, and has a call that fails in a
`try` statement and another outside of it. -/
def work (name param kept : String) (id : ℕ) : FunctionDecl :=
  ⟨⟨name, .nowhere⟩, [], [⟨⟨param, .nowhere⟩, cell⟩], none, false,
    some (block [.bind ⟨kept, .nowhere⟩ false cell (node id cell (.var param)),
      .expr (sum (id + 1)), .expr (choice (id + 4)),
      .attempt (block [.expr (fails (id + 6))]) none (block []), .expr (fails (id + 7))])⟩

def first : Program where
  decls := [.type (.classType ⟨⟨"Cell", .nowhere⟩, [], [], []⟩),
    .type (.enumType ⟨⟨"Maybe", .nowhere⟩, ["T"], none,
      [⟨⟨"none", .nowhere⟩, .nowhere, none, .unit⟩,
        ⟨⟨"some", .nowhere⟩, .nowhere, none, .single (.named "T")⟩]⟩),
    .function ⟨⟨"fails", .nowhere⟩, [], [], none, true, none⟩, .function (work "one" "x" "y" 10)]

def second : Program where
  decls := [.function (work "two" "z" "w" 20)]

def session : Session := ((Session.start .default).register first).1.close.1

def both : Program := ⟨first.decls ++ second.decls⟩

def maybeNumber : Concrete :=
  ⟨1, "Maybe<i32>", [.int .i32], .enumType none [⟨"none", .nowhere, none, none, .unit⟩,
    ⟨"some", .nowhere, none, none, .single (.int .i32)⟩]⟩

theorem tables_first :
    (session.analyze first).annotations.instances[15]? = some maybeNumber ∧
      (session.analyze first).annotations.plans[14]? = some [["none"], ["some"]] ∧
      (session.analyze first).annotations.routes[16]? = some .caught := by
  decide +kernel

theorem tables_second :
    (session.analyze second).annotations.instances[25]? = some maybeNumber ∧
      (session.analyze second).annotations.plans[24]? = some [["none"], ["some"]] ∧
      (session.analyze second).annotations.routes[26]? = some .caught := by
  decide +kernel

theorem analyze_compositional_both :
    session.options.limit = none ∧ List.Disjoint first.exprIds second.exprIds ∧
      (session.analyze both).annotations.bindings.map Ident.name = ["x", "y", "z", "w"] ∧
      (session.analyze both).annotations.obligations.items.toList =
        [.retain 10, .release "y" 1 none .nowhere, .release "x" 0 none .nowhere,
          .retain 20, .release "w" 3 none .nowhere, .release "z" 2 none .nowhere] ∧
      (session.analyze both).annotations.markers.items.toList =
        [.overflow 11 .add .i32 false, .overflow 21 .add .i32 false] ∧
      ((session.analyze both).annotations.instances[15]? = some maybeNumber ∧
        (session.analyze both).annotations.instances[25]? = some maybeNumber) ∧
      ((session.analyze both).annotations.plans[14]? = some [["none"], ["some"]] ∧
        (session.analyze both).annotations.plans[24]? = some [["none"], ["some"]]) ∧
      ((session.analyze both).annotations.routes[16]? = some .caught ∧
        (session.analyze both).annotations.routes[26]? = some .caught) ∧
      (session.analyze both).report.problems.Perm
        [⟨.propagation "fails" "one", .nowhere⟩, ⟨.propagation "fails" "two", .nowhere⟩] ∧
      Analysis.MergesAll (session.analyzeAll [first, second]) (session.analyze both) ∧
      (∃ b, both.bodies = first.bodies ++ [b] ∧ (session.analyzeBodies [b]).annotations.Embeds
        b.block.ids 2 (session.analyze both).annotations) ∧
      ∀ i, (session.analyze both).annotations.SameAt i
        (session.analyze ⟨second.decls ++ first.decls⟩).annotations := by
  have hids : ∀ i ∈ first.exprIds, i ∉ second.exprIds := by decide
  have hdisjoint : List.Disjoint first.exprIds second.exprIds := fun i => hids i
  have hseparate : Session.Separate both.bodies := by
    have hids := Program.disjoint_bodyIds_iff.2 hdisjoint
    exact List.pairwise_pair.2 (hids.mono (ids_subset_bodyIds List.mem_cons_self)
      (ids_subset_bodyIds List.mem_cons_self))
  have hperm : both.bodies.Perm (Program.mk (second.decls ++ first.decls)).bodies := by
    rw [both, Program.bodies_append, Program.bodies_append]
    exact List.perm_append_comm
  have htwo : (session.analyzeBodies first.bodies).annotations.bindings.length = 2 := by
    decide +kernel
  obtain ⟨hmerges, hunits, halone, hreorder, -⟩ := Session.analyze_compositional session rfl
  have hboth := hmerges first second hdisjoint
  have hnames := (congrArg (List.map Ident.name) hboth.bindings).trans
    (show _ = ["x", "y", "z", "w"] by decide +kernel)
  have hlast := (halone both hseparate).2 first.bodies _ [] rfl
  rw [htwo] at hlast
  have hproblems : (session.analyze first).report.problems ++
      (session.analyze second).report.problems =
        [⟨.propagation "fails" "one", .nowhere⟩, ⟨.propagation "fails" "two", .nowhere⟩] := by
    decide +kernel
  obtain ⟨hinstance, hplan, hroute⟩ := tables_first
  obtain ⟨hinstance', hplan', hroute'⟩ := tables_second
  refine ⟨rfl, hdisjoint, hnames, hboth.obligations.trans (by decide +kernel),
    hboth.markers.trans (by decide +kernel), ⟨?_, ?_⟩, ⟨?_, ?_⟩, ⟨?_, ?_⟩,
    hproblems ▸ hboth.problems, hunits [first, second] (List.pairwise_pair.2 hdisjoint),
    ⟨_, rfl, hlast⟩, (hreorder both _ hseparate hperm).2⟩
  · exact (hboth.instances 15 _).2 (Or.inl hinstance)
  · exact (hboth.instances 25 _).2 (Or.inr hinstance')
  · exact (hboth.plans 14 _).2 (Or.inl hplan)
  · exact (hboth.plans 24 _).2 (Or.inr hplan')
  · exact (hboth.routes 16 _).2 (Or.inl hroute)
  · exact (hboth.routes 26 _).2 (Or.inr hroute')

end TwoUnits

end ProgramSafety
