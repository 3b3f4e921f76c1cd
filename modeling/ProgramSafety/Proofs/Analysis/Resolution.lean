import Mathlib.Computability.Primrec.List
import Mathlib.Data.List.Forall2
import ProgramSafety.Proofs.Analysis.Bodies
import ProgramSafety.Proofs.Analysis.TypeProblems
import ProgramSafety.Proofs.Report.Limit
import ProgramSafety.Proofs.Tree.DeclaredBodies
import ProgramSafety.Proofs.Typing.Shadowing

/-!
# Resolution reaches every node

The types of a program are resolved on a tour of its bodies. Each of the three maps of the table
gets at most one entry from a fragment, and if ids are distinct no entry replaces another, so a
fragment finds its own (`TypeTable.Column.getElem?_ofBodies`). The analyses that follow take a
missing entry for an unknown type and keep silent about it, so they depend on nothing being left
out. The same tour reports the types that are spelled out and do not resolve, one by one
(`Session.filter_isAboutType`).
-/

namespace ProgramSafety

/-! ## The table of types -/

/-- Ids that are picked from different fragments are different, if those of the expressions
picked from are. -/
theorem nodup_filterMap_of_ids {α : Type} {f : α → Option ℕ} {pick : α → List Expr}
    (hpick : ∀ x, (f x).toList.Sublist ((pick x).map Expr.id)) {xs : List α}
    (hids : ((xs.flatMap pick).map Expr.id).Nodup) : (xs.filterMap f).Nodup := by
  rw [List.map_flatMap] at hids
  rw [List.filterMap_eq_flatMap_toList]
  exact hids.sublist (List.Sublist.flatMap_right xs fun x _ => hpick x)

namespace TypeTable

variable {r : Registry}

def insert? (m : Std.TreeMap ℕ Ty) : Option (ℕ × Ty) → Std.TreeMap ℕ Ty
  | some (id, u) => m.insert id u
  | none => m

def exprRow? (r : Registry) : Scope × Fragment → Option (ℕ × Ty)
  | (scope, .expr e) => some (e.id, r.typeOf scope e.type)
  | _ => none

def bindingRow? (r : Registry) : Scope × Fragment → Option (ℕ × Ty)
  | (scope, .stmt (.bind _ _ type init)) => some (init.id, r.typeOf scope type)
  | _ => none

def castRow? (r : Registry) : Scope × Fragment → Option (ℕ × Ty)
  | (scope, .expr e) =>
    match e.form with
    | .cast _ _ target => some (e.id, r.typeOf scope target)
    | _ => none
  | _ => none

theorem enter_enter (t : TypeTable) (x : Scope × Fragment) :
    t.enter r x.1 x.2.enter =
      ⟨insert? t.exprs (exprRow? r x), insert? t.bindings (bindingRow? r x),
        insert? t.casts (castRow? r x)⟩ := by
  obtain ⟨scope, n⟩ := x
  cases n with
  | expr e =>
      simp only [enter, Fragment.enter, exprRow?, castRow?]
      cases e.form <;> rfl
  | stmt s => cases s <;> rfl
  | block role b => rfl

theorem enter_leave (scope : Scope) (t : TypeTable) (n : Fragment) :
    t.enter r scope n.leave = t := by
  cases n <;> rfl

theorem addBody_eq (t : TypeTable) (b : Body) :
    t.addBody r b = b.block.entered.foldl (fun t n => t.enter r b.scope n.enter) t := by
  have hvisits : ∀ (vs : List Visit) (t : TypeTable),
      vs.foldl (fun t v => t.enter r b.scope v.event) t =
        (vs.filterMap (·.event.enteredFragment?)).foldl
          (fun t n => t.enter r b.scope n.enter) t := by
    intro vs
    induction vs with
    | nil => exact fun _ => rfl
    | cons v vs ih =>
        intro t
        obtain ⟨here, event⟩ := v
        obtain ⟨n, rfl⟩ | ⟨n, rfl⟩ := event.enter_or_leave
        · simp [ih]
        · simp [ih, enter_leave]
  exact hvisits b.block.tour t

theorem ofBodies_eq (r : Registry) (bs : List Body) :
    ofBodies r bs = (fragmentsOf bs).foldl (fun t x => t.enter r x.1 x.2.enter) empty := by
  have hbody : addBody r = fun t b =>
      (b.block.entered.map (b.scope, ·)).foldl (fun t x => t.enter r x.1 x.2.enter) t := by
    funext t b
    rw [addBody_eq, List.foldl_map]
  rw [ofBodies, fragmentsOf, List.foldl_flatMap, hbody]

/-- One of the maps of a table, with the row that a fragment adds to it and the expressions that
the row can be about. -/
structure Column (r : Registry) where
  read : TypeTable → Std.TreeMap ℕ Ty
  row? : Scope × Fragment → Option (ℕ × Ty)
  about : Fragment → List Expr
  read_empty : read empty = ∅
  read_enter : ∀ t x, read (t.enter r x.1 x.2.enter) = insert? (read t) (row? x)
  row_about : ∀ x, ((row? x).map Prod.fst).toList.Sublist ((about x.2).map Expr.id)

namespace Column

def ofExprs (r : Registry) : Column r where
  read := exprs
  row? := exprRow? r
  about := Fragment.own
  read_empty := rfl
  read_enter t x := by rw [enter_enter]
  row_about x := by
    obtain ⟨scope, n⟩ := x
    cases n with
    | expr e => exact List.Sublist.refl _
    | _ => exact List.nil_sublist _

def ofBindings (r : Registry) : Column r where
  read := bindings
  row? := bindingRow? r
  about := Fragment.children
  read_empty := rfl
  read_enter t x := by rw [enter_enter]
  row_about x := by
    obtain ⟨scope, n⟩ := x
    cases n with
    | stmt s =>
        cases s with
        | bind => exact List.Sublist.refl _
        | _ => exact List.nil_sublist _
    | _ => exact List.nil_sublist _

def ofCasts (r : Registry) : Column r where
  read := casts
  row? := castRow? r
  about := Fragment.own
  read_empty := rfl
  read_enter t x := by rw [enter_enter]
  row_about x := by
    obtain ⟨scope, n⟩ := x
    cases n with
    | expr e =>
        rw [castRow?]
        cases e.form with
        | cast => exact List.Sublist.refl _
        | _ => exact List.nil_sublist _
    | _ => exact List.nil_sublist _

theorem read_ofBodies (column : Column r) (bs : List Body) :
    column.read (ofBodies r bs) =
      (∅ : Std.TreeMap ℕ Ty).insertMany ((fragmentsOf bs).filterMap column.row?) := by
  have hfold : ∀ (xs : List (Scope × Fragment)) (t : TypeTable),
      column.read (xs.foldl (fun t x => t.enter r x.1 x.2.enter) t) =
        (column.read t).insertMany (xs.filterMap column.row?) := by
    intro xs
    induction xs with
    | nil => exact fun t => Std.TreeMap.insertMany_nil.symm
    | cons x xs ih =>
        intro t
        rw [List.foldl_cons, ih, column.read_enter]
        cases hrow : column.row? x with
        | none => rw [List.filterMap_cons_none hrow, insert?]
        | some row =>
            rw [List.filterMap_cons_some hrow, insert?, Std.TreeMap.insertMany_cons]
  rw [ofBodies_eq, hfold, column.read_empty]

/-- Where the rows of a column are about different expressions, a fragment finds its own. -/
theorem getElem?_ofBodies (column : Column r) {bs : List Body}
    (hids : (((fragmentsOf bs).flatMap fun x => column.about x.2).map Expr.id).Nodup)
    {x : Scope × Fragment} (hx : x ∈ fragmentsOf bs) {id : ℕ} {u : Ty}
    (hrow : column.row? x = some (id, u)) : (column.read (ofBodies r bs))[id]? = some u := by
  have hkeys := nodup_filterMap_of_ids column.row_about hids
  rw [← List.map_filterMap] at hkeys
  have hdistinct : ((fragmentsOf bs).filterMap column.row?).Pairwise
      fun a b => ¬ compare a.1 b.1 = .eq := by
    refine (List.pairwise_map.1 hkeys).imp fun hne => ?_
    simpa using hne
  rw [read_ofBodies]
  exact Std.TreeMap.getElem?_insertMany_list_of_mem (by simp) hdistinct
    (List.mem_filterMap.2 ⟨x, hx, hrow⟩)

end Column

end TypeTable

/-- What a written type means: the type that it resolves to, or the unknown type if it does
not resolve. -/
inductive Registry.Means (r : Registry) (scope : Scope) (t : TypeRef) : Ty → Prop where
  | resolved {u : Ty} (h : r.resolve scope t = .ok u) (hu : u ≠ .unknown) : Means r scope t u
  | failed {q : Problem} (h : r.resolve scope t = .error q) : Means r scope t .unknown

theorem Registry.means_typeOf (r : Registry) (scope : Scope) (t : TypeRef) :
    r.Means scope t (r.typeOf scope t) := by
  unfold typeOf
  split
  next u hu => exact .resolved hu (ne_unknown_of_resolve hu)
  next q hq => exact .failed hq

theorem Registry.Means.eq_typeOf {r : Registry} {scope : Scope} {t : TypeRef} {u : Ty}
    (h : r.Means scope t u) : u = r.typeOf scope t := by
  unfold typeOf
  cases h with
  | resolved h => rw [h]
  | failed h => rw [h]

namespace Program

variable {p : Program} {r : Registry} {scope : Scope} {block : Block} {e : Expr}

theorem means_expr (hids : p.exprIds.Nodup) (hbody : p.HasBody scope block)
    (he : block.Contains e) :
    r.Means scope e.type ((TypeTable.ofBodies r p.bodies).expr e) := by
  have hx := mem_fragmentsOf_iff.2 ⟨block, hbody, Block.has_expr_iff.2 he⟩
  have hget : (TypeTable.ofBodies r p.bodies).exprs[e.id]? = some (r.typeOf scope e.type) :=
    (TypeTable.Column.ofExprs r).getElem?_ofBodies (nodup_own hids) hx rfl
  rw [TypeTable.expr, Std.TreeMap.getD_eq_getD_getElem?, hget]
  exact r.means_typeOf scope e.type

theorem means_binding (hids : p.exprIds.Nodup) (hbody : p.HasBody scope block) {name : Ident}
    {isMutable : Bool} {type : TypeRef} {init : Expr}
    (hbind : block.Has (.stmt (.bind name isMutable type init))) :
    r.Means scope type ((TypeTable.ofBodies r p.bodies).binding init) := by
  have hx := mem_fragmentsOf_iff.2 ⟨block, hbody, hbind⟩
  have hget : (TypeTable.ofBodies r p.bodies).bindings[init.id]? = some (r.typeOf scope type) :=
    (TypeTable.Column.ofBindings r).getElem?_ofBodies (nodup_children hids) hx rfl
  rw [TypeTable.binding, Std.TreeMap.getD_eq_getD_getElem?, hget]
  exact r.means_typeOf scope type

theorem means_castTarget (hids : p.exprIds.Nodup) (hbody : p.HasBody scope block)
    (he : block.Contains e) {x : Expr} {form : CastForm} {target : TypeRef}
    (hform : e.form = .cast x form target) :
    r.Means scope target ((TypeTable.ofBodies r p.bodies).castTarget e) := by
  have hx := mem_fragmentsOf_iff.2 ⟨block, hbody, Block.has_expr_iff.2 he⟩
  have hrow : TypeTable.castRow? r (scope, .expr e) = some (e.id, r.typeOf scope target) := by
    rw [TypeTable.castRow?, hform]
  have hget : (TypeTable.ofBodies r p.bodies).casts[e.id]? = some (r.typeOf scope target) :=
    (TypeTable.Column.ofCasts r).getElem?_ofBodies (nodup_own hids) hx hrow
  rw [TypeTable.castTarget, Std.TreeMap.getD_eq_getD_getElem?, hget]
  exact r.means_typeOf scope target

end Program

/-! ## Problems with written types -/

inductive TypeSite where
  | binding (init : ℕ)
  | node (id : ℕ)
deriving DecidableEq

namespace TypeSite

def binding? : TypeSite → Option ℕ
  | binding init => some init
  | node _ => none

def node? : TypeSite → Option ℕ
  | binding _ => none
  | node id => some id

theorem nodup_of_filterMap {sites : List TypeSite} (hbinding : (sites.filterMap binding?).Nodup)
    (hnode : (sites.filterMap node?).Nodup) : sites.Nodup := by
  induction sites with
  | nil => exact List.nodup_nil
  | cons site sites ih =>
      cases site with
      | binding init =>
          obtain ⟨hnew, hrest⟩ := List.nodup_cons.1 hbinding
          refine List.nodup_cons.2 ⟨fun hmem => hnew ?_, ih hrest hnode⟩
          exact List.mem_filterMap.2 ⟨_, hmem, rfl⟩
      | node id =>
          obtain ⟨hnew, hrest⟩ := List.nodup_cons.1 hnode
          refine List.nodup_cons.2 ⟨fun hmem => hnew ?_, ih hbinding hrest⟩
          exact List.mem_filterMap.2 ⟨_, hmem, rfl⟩

end TypeSite

/-- A type that is spelled out, with its site and the scope in which it is read. -/
structure WrittenType where
  site : TypeSite
  scope : Scope
  type : TypeRef

/-- The fragment spells out a type: that of a binding, the target of a cast, or the type of
what an expression constructs. -/
inductive Fragment.Writes : Fragment → TypeSite → TypeRef → Prop where
  | binding {name : Ident} {isMutable : Bool} {type : TypeRef} {init : Expr} :
      Writes (.stmt (.bind name isMutable type init)) (.binding init.id) type
  | cast {e x : Expr} {form : CastForm} {target : TypeRef} (hform : e.form = .cast x form target) :
      Writes (.expr e) (.node e.id) target
  | construct {e : Expr} {type : TypeRef} {fields : List (String × Expr)}
      (hform : e.form = .construct type fields) : Writes (.expr e) (.node e.id) type
  | variant {e : Expr} {type : TypeRef} {name : String} {args : Arguments}
      (hform : e.form = .variant type name args) : Writes (.expr e) (.node e.id) type

def Program.Writes (p : Program) (w : WrittenType) : Prop :=
  ∃ block n, p.HasBody w.scope block ∧ block.Has n ∧ n.Writes w.site w.type

def WrittenType.of? : Scope × Fragment → Option WrittenType
  | (scope, .stmt (.bind _ _ type init)) => some ⟨.binding init.id, scope, type⟩
  | (scope, .expr e) => (Registry.spelledTypes e).head?.map (⟨.node e.id, scope, ·⟩)
  | _ => none

theorem WrittenType.of?_eq_some_iff {x : Scope × Fragment} {w : WrittenType} :
    of? x = some w ↔ x.1 = w.scope ∧ x.2.Writes w.site w.type := by
  obtain ⟨scope, n⟩ := x
  obtain ⟨site, scope', t⟩ := w
  constructor
  · intro h
    cases n with
    | expr e =>
        obtain ⟨u, hu, heq⟩ := Option.map_eq_some_iff.1 h
        obtain ⟨rfl, rfl, rfl⟩ := WrittenType.mk.inj heq
        unfold Registry.spelledTypes at hu
        split at hu
        next hform =>
          obtain rfl := Option.some.inj hu
          exact ⟨rfl, .cast hform⟩
        next hform =>
          obtain rfl := Option.some.inj hu
          exact ⟨rfl, .construct hform⟩
        next hform =>
          obtain rfl := Option.some.inj hu
          exact ⟨rfl, .variant hform⟩
        next => cases hu
    | stmt s =>
        cases s with
        | bind =>
            obtain ⟨rfl, rfl, rfl⟩ := WrittenType.mk.inj (Option.some.inj h)
            exact ⟨rfl, .binding⟩
        | _ => cases h
    | block role b => cases h
  · rintro ⟨hscope, hwrites⟩
    dsimp only at hscope hwrites
    subst hscope
    cases hwrites with
    | binding => rfl
    | cast hform | construct hform | variant hform => simp [of?, Registry.spelledTypes, hform]

def writtenTypes (bs : List Body) : List WrittenType := (fragmentsOf bs).filterMap WrittenType.of?

namespace Program

variable {p : Program}

theorem mem_writtenTypes_iff {w : WrittenType} : w ∈ writtenTypes p.bodies ↔ p.Writes w := by
  constructor
  · intro h
    obtain ⟨⟨scope, n⟩, hx, hof⟩ := List.mem_filterMap.1 h
    obtain ⟨rfl, hwrites⟩ := WrittenType.of?_eq_some_iff.1 hof
    obtain ⟨block, hbody, hn⟩ := mem_fragmentsOf_iff.1 hx
    exact ⟨block, n, hbody, hn, hwrites⟩
  · rintro ⟨block, n, hbody, hn, hwrites⟩
    exact List.mem_filterMap.2 ⟨(w.scope, n), mem_fragmentsOf_iff.2 ⟨block, hbody, hn⟩,
      WrittenType.of?_eq_some_iff.2 ⟨rfl, hwrites⟩⟩

/-- No two types are written at the same site. -/
theorem nodup_sites (hids : p.exprIds.Nodup) :
    ((writtenTypes p.bodies).map WrittenType.site).Nodup := by
  have hpicked : ∀ {f : TypeSite → Option ℕ} {pick : Fragment → List Expr},
      (∀ n site t, Fragment.Writes n site t → (f site).toList.Sublist ((pick n).map Expr.id)) →
      (((fragmentsOf p.bodies).flatMap fun x => pick x.2).map Expr.id).Nodup →
      (((writtenTypes p.bodies).map WrittenType.site).filterMap f).Nodup := by
    intro f pick hpick hids
    rw [writtenTypes, List.map_filterMap, List.filterMap_filterMap]
    refine nodup_filterMap_of_ids (fun x => ?_) hids
    cases hx : WrittenType.of? x with
    | none => exact List.nil_sublist _
    | some w => exact hpick x.2 w.site w.type (WrittenType.of?_eq_some_iff.1 hx).2
  apply TypeSite.nodup_of_filterMap
  · refine hpicked (fun n site t hwrites => ?_) (nodup_children hids)
    cases hwrites with
    | binding => exact List.Sublist.refl _
    | cast | construct | variant => exact List.nil_sublist _
  · refine hpicked (fun n site t hwrites => ?_) (nodup_own hids)
    cases hwrites with
    | binding => exact List.nil_sublist _
    | cast | construct | variant => exact List.Sublist.refl _

end Program

namespace Registry

def failure? (r : Registry) (w : WrittenType) : Option Problem :=
  match r.resolve w.scope w.type with
  | .ok _ => none
  | .error q => some q

theorem failure?_eq_some_iff {r : Registry} {w : WrittenType} {q : Problem} :
    r.failure? w = some q ↔ r.resolve w.scope w.type = .error q := by
  unfold failure?
  cases r.resolve w.scope w.type with
  | ok u => simp
  | error q' => simp

theorem toList_failure? (r : Registry) (w : WrittenType) :
    (r.failure? w).toList = r.problemsOf w.scope w.type := by
  unfold failure? problemsOf
  cases r.resolve w.scope w.type <;> rfl

/-- Entering a fragment reports the type that it spells out, if that does not resolve. -/
theorem filterMap_typeFindings (r : Registry) (x : Scope × Fragment) :
    (r.typeFindings x.1 x.2.enter).filterMap Finding.problem? =
      ((WrittenType.of? x).bind r.failure?).toList := by
  have hproblems : ∀ ps : List Problem,
      (ps.map Finding.problem).filterMap Finding.problem? = ps := by
    intro ps
    rw [List.filterMap_map]
    exact List.filterMap_some
  obtain ⟨scope, n⟩ := x
  cases n with
  | expr e =>
      have hinstances : ((r.usedInstance? scope e).toList.map (.instantiated e.id ·)).filterMap
          Finding.problem? = [] := by
        cases r.usedInstance? scope e <;> rfl
      have hspelled : (spelledTypes e).flatMap (r.problemsOf scope) =
          (((spelledTypes e).head?.map (⟨.node e.id, scope, ·⟩)).bind r.failure?).toList := by
        unfold spelledTypes
        cases e.form <;> simp [toList_failure?]
      rw [← hproblems ((spelledTypes e).flatMap _)] at hspelled
      simp only [typeFindings, Fragment.enter, List.filterMap_append, hinstances, hspelled,
        List.nil_append, WrittenType.of?]
  | stmt stmt =>
      cases stmt with
      | bind name isMutable type init =>
          exact (hproblems _).trans (r.toList_failure? ⟨.binding init.id, scope, type⟩).symm
      | _ => rfl
  | block role b => rfl

theorem filterMap_bodyTypeFindings (r : Registry) (bs : List Body) :
    (bs.flatMap r.bodyTypeFindings).filterMap Finding.problem? =
      (writtenTypes bs).filterMap r.failure? := by
  have hbody : ∀ b ∈ bs, (r.bodyTypeFindings b).filterMap Finding.problem? =
      (b.block.entered.map (b.scope, ·)).flatMap fun x =>
        ((WrittenType.of? x).bind r.failure?).toList := by
    intro b _
    rw [bodyTypeFindings, Block.flatMap_tour fun n => by cases n <;> rfl, List.filterMap_flatMap,
      List.flatMap_map]
    exact List.flatMap_congr fun n _ => r.filterMap_typeFindings (b.scope, n)
  rw [List.filterMap_flatMap, List.flatMap_congr hbody, ← List.flatMap_assoc, writtenTypes,
    List.filterMap_filterMap, List.filterMap_eq_flatMap_toList]
  rfl

end Registry

namespace Session

/-- Without a limit, the problems with written types are those that resolving them meets. -/
theorem filter_isAboutType {s : Session} (hlimit : s.options.limit = none) (p : Program) :
    (s.analyze p).report.problems.filter Problem.isAboutType =
      (writtenTypes p.bodies).filterMap s.registry.failure? := by
  have hreport : (s.analyze p).report.problems =
      (p.bodies.flatMap s.registry.bodyTypeFindings).filterMap Finding.problem? ++
        (s.ranFindings p.bodies).filterMap Finding.problem? := by
    have hcut : (s.analyze p).report = .cut none ((s.findings p).filterMap Finding.problem?) := by
      rw [← hlimit]
      exact Report.ofProblems_eq_cut _ _
    rw [hcut, ← List.filterMap_append]
    rfl
  have htypes : ∀ q ∈ (writtenTypes p.bodies).filterMap s.registry.failure?,
      q.isAboutType = true := by
    intro q hq
    obtain ⟨w, -, hw⟩ := List.mem_filterMap.1 hq
    exact Registry.isAboutType_of_resolve (Registry.failure?_eq_some_iff.1 hw)
  have hran : ∀ q ∈ (s.ranFindings p.bodies).filterMap Finding.problem?,
      ¬ q.isAboutType = true := by
    intro q hq
    obtain ⟨f, hf, hproblem⟩ := List.mem_filterMap.1 hq
    obtain rfl : f = .problem q := by
      cases f with
      | problem => exact congrArg Finding.problem (Option.some.inj hproblem)
      | _ => cases hproblem
    obtain ⟨next, b, -, hf⟩ := Context.exists_of_mem_transduce hf
    rw [Context.isAboutType_of_mem_findings hf]
    exact Bool.false_ne_true
  rw [hreport, List.filter_append, Registry.filterMap_bodyTypeFindings,
    List.filter_eq_self.2 htypes, List.filter_eq_nil_iff.2 hran, List.append_nil]

/-- Resolution reaches every expression of every body, every initialiser and every cast, in the
scope of the body. Without a limit, each written type that does not resolve is reported once. -/
theorem resolution_reaches (s : Session) (p : Program) (hids : p.exprIds.Nodup) :
    let types := TypeTable.ofBodies s.registry p.bodies
    (∀ scope block, p.HasBody scope block →
      (∀ e, block.Contains e → s.registry.Means scope e.type (types.expr e)) ∧
      (∀ name isMutable type init, block.Has (.stmt (.bind name isMutable type init)) →
        s.registry.Means scope type (types.binding init)) ∧
      ∀ e x form target, block.Contains e → e.form = .cast x form target →
        s.registry.Means scope target (types.castTarget e)) ∧
    (s.options.limit = none → ∃ failing : List WrittenType,
      (failing.map WrittenType.site).Nodup ∧
      (∀ w, w ∈ failing ↔ p.Writes w ∧ ∃ q, s.registry.resolve w.scope w.type = .error q) ∧
      List.Forall₂ (fun w q => s.registry.resolve w.scope w.type = .error q) failing
        ((s.analyze p).report.problems.filter Problem.isAboutType)) := by
  intro types
  refine ⟨fun scope block hbody => ⟨?_, ?_, ?_⟩, fun hlimit => ?_⟩
  · intro e he
    exact Program.means_expr hids hbody he
  · intro name isMutable type init hbind
    exact Program.means_binding hids hbody hbind
  · intro e x form target he hform
    exact Program.means_castTarget hids hbody he hform
  · refine ⟨(writtenTypes p.bodies).filter fun w => (s.registry.failure? w).isSome,
      (Program.nodup_sites hids).sublist (List.filter_sublist.map _), fun w => ?_, ?_⟩
    · rw [List.mem_filter, Program.mem_writtenTypes_iff, Option.isSome_iff_exists]
      simp only [Registry.failure?_eq_some_iff]
    · rw [filter_isAboutType hlimit]
      exact (forall₂_filterMap s.registry.failure? _).imp fun w q hq =>
        Registry.failure?_eq_some_iff.1 hq

end Session

namespace NestedTypes

def operand : Expr := ⟨1, .nowhere, .named "T", .var "x"⟩

def lost : Expr := ⟨2, .nowhere, .named "U", .cast operand .asserting (.named "Lost")⟩

def scrutinee : Expr := ⟨3, .nowhere, .named "T", .var "x"⟩

def choice : Expr :=
  ⟨4, .nowhere, .named "void", .matchOn .nowhere scrutinee
    [⟨.catchAll .nowhere, ⟨.nowhere, [.bind ⟨"y", .nowhere⟩ false (.named "Gone") lost]⟩⟩]⟩

/-- The cast initialises a binding in an arm of a match in a handler. -/
def body : Block := ⟨.nowhere, [.attempt ⟨.nowhere, []⟩ none ⟨.nowhere, [.expr choice]⟩]⟩

def get : FunctionDecl := ⟨⟨"get", .nowhere⟩, ["U"], [], none, false, some body⟩

def box : ClassDecl := ⟨⟨"Box", .nowhere⟩, ["T"], [], [get]⟩

def program : Program := ⟨[.space "lib" [.type (.classType box)]]⟩

def session : Session := .start .default

/-- Type parameters of the class come before those of the method. -/
def scope : Scope := ⟨["lib"], ["T", "U"]⟩

theorem resolution_reaches_lost :
    program.exprIds.Nodup ∧ program.HasBody scope body ∧ body.Contains lost ∧
      (TypeTable.ofBodies session.registry program.bodies).expr operand = .param "T" ∧
      (TypeTable.ofBodies session.registry program.bodies).expr lost = .param "U" ∧
      (TypeTable.ofBodies session.registry program.bodies).castTarget lost = .unknown ∧
      ∃ failing : List WrittenType, ⟨.binding 2, scope, .named "Gone"⟩ ∈ failing ∧
        ⟨.node 2, scope, .named "Lost"⟩ ∈ failing ∧
        failing.length =
          ((session.analyze program).report.problems.filter Problem.isAboutType).length := by
  have hids : program.exprIds.Nodup := by decide
  have hclass : Decl.Declares program.decls ["lib"] (.type (.classType box)) :=
    .space (List.mem_singleton.2 rfl) (.type (List.mem_singleton.2 rfl))
  have hbody : program.HasBody scope body :=
    .method hclass (m := get) (List.mem_singleton.2 rfl) rfl
  have hcontains : ∀ e ∈ [scrutinee, operand, lost, choice], body.Contains e :=
    fun e he => Block.mem_exprs_iff.1 he
  have hlost := hcontains lost (by simp)
  have hbind : body.Has (.stmt (.bind ⟨"y", .nowhere⟩ false (.named "Gone") lost)) :=
    Block.has_of_getElem? (i := 4) rfl
  have hgoneType : session.registry.resolve scope (.named "Gone") =
      .error ⟨.unknownType "Gone", .nowhere⟩ := by cbv
  have hlostType : session.registry.resolve scope (.named "Lost") =
      .error ⟨.unknownType "Lost", .nowhere⟩ := by cbv
  obtain ⟨htypes, hreport⟩ := Session.resolution_reaches session program hids
  obtain ⟨hexpr, -, hcast⟩ := htypes scope body hbody
  obtain ⟨failing, -, hmem, hforall⟩ := hreport rfl
  refine ⟨hids, hbody, hlost, ?_, ?_, ?_, failing, ?_, ?_, hforall.length_eq⟩
  · exact (hexpr operand (hcontains operand (by simp))).eq_typeOf.trans (by cbv)
  · exact (hexpr lost hlost).eq_typeOf.trans (by cbv)
  · exact (hcast lost _ _ _ hlost rfl).eq_typeOf.trans (by cbv)
  · exact (hmem _).2 ⟨⟨body, _, hbody, hbind, .binding⟩, _, hgoneType⟩
  · exact (hmem _).2 ⟨⟨body, _, hbody, Block.has_expr_iff.2 hlost, .cast rfl⟩, _, hlostType⟩

end NestedTypes

end ProgramSafety
