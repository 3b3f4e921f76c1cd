import Mathlib.Data.List.Perm.Basic
import ProgramSafety.Proofs.Tree.Tour

/-!
# Fragments inside fragments

`Fragment.Within` says that a fragment stands in another at some depth, and
`Fragment.nested` lists the fragments inside a fragment in the order in which the
tour leaves them. Every expression of a body is an immediate part of exactly one
fragment of the body (`Block.children_perm_exprs`), so what fragments say about
their immediate parts is said about each expression once.
-/

namespace ProgramSafety

def Event.leftFragment? : Event → Option Fragment
  | .leaveExpr e => some (.expr e)
  | .leaveStmt s => some (.stmt s)
  | .closeBlock role b => some (.block role b)
  | _ => none

theorem Event.enter_or_leave (event : Event) :
    (∃ n : Fragment, event = n.enter) ∨ ∃ n : Fragment, event = n.leave := by
  cases event with
  | openBlock role b => exact Or.inl ⟨.block role b, rfl⟩
  | enterStmt s => exact Or.inl ⟨.stmt s, rfl⟩
  | enterExpr e => exact Or.inl ⟨.expr e, rfl⟩
  | closeBlock role b => exact Or.inr ⟨.block role b, rfl⟩
  | leaveStmt s => exact Or.inr ⟨.stmt s, rfl⟩
  | leaveExpr e => exact Or.inr ⟨.expr e, rfl⟩

@[simp] theorem Event.leftFragment?_enter (n : Fragment) : n.enter.leftFragment? = none := by
  cases n <;> rfl

@[simp] theorem Event.leftFragment?_leave (n : Fragment) : n.leave.leftFragment? = some n := by
  cases n <;> rfl

theorem Event.eq_leave_of_leftFragment? {event : Event} {n : Fragment}
    (h : event.leftFragment? = some n) : event = n.leave := by
  obtain ⟨m, rfl⟩ | ⟨m, rfl⟩ := event.enter_or_leave
  · simp at h
  · obtain rfl : m = n := by simpa using h
    rfl

namespace Fragment

def children (n : Fragment) : List Expr := n.inside.flatMap own

inductive Within (m : Fragment) : Fragment → Prop where
  | here : Within m m
  | inside {n k : Fragment} (hk : k ∈ n.inside) (h : Within m k) : Within m n

variable {here : Setting} {n m : Fragment} {e : Expr}

theorem Within.trans {k : Fragment} (hm : Within m n) (hn : Within n k) : Within m k := by
  induction hn with
  | here => exact hm
  | inside hk _ ih => exact .inside hk ih

theorem flatMap_snd_parts {α : Type} (here : Setting) (n : Fragment) (f : Fragment → List α) :
    (n.parts here).flatMap (fun p => f p.2) = n.inside.flatMap f := by
  rw [← map_snd_parts here, List.flatMap_map]

theorem inside_expr (e : Expr) : (expr e).inside = e.form.parts := by
  simp [inside, parts, Function.comp_def]

theorem children_expr (e : Expr) : (expr e).children = e.form.parts.flatMap own := by
  rw [children, inside_expr]

@[simp] theorem flatMap_own_exprs (es : List Expr) : (es.map expr).flatMap own = es := by
  simp [List.flatMap_map, own]

@[simp] theorem flatMap_own_fields (fs : List (String × Expr)) :
    (fs.map fun f => expr f.2).flatMap own = fs.map (·.2) := by
  rw [List.flatMap_map, List.map_eq_flatMap]
  rfl

theorem size_lt_of_mem_inside (hm : m ∈ n.inside) : m.size < n.size := by
  obtain ⟨setting, hp⟩ := exists_mem_parts_of_mem_inside hm .outermost
  exact size_lt_of_mem_parts hp

theorem toured_all (here : Setting) (n : Fragment) :
    n.toured (fun _ => true) here = n.parts here := by
  cases n <;> rfl

/-! ## All fragments of a fragment -/

/-- The fragments of a fragment in the order in which the tour leaves them. -/
def nested (here : Setting) (n : Fragment) : List Fragment :=
  (n.visits (fun _ => true) here).filterMap (·.event.leftFragment?)

theorem nested_eq (here : Setting) (n : Fragment) :
    n.nested here = (n.parts here).flatMap (fun p => p.2.nested p.1) ++ [n] := by
  rw [nested, visits_eq, toured_all]
  simp [nested, List.filterMap_flatMap]

theorem mem_nested_iff : m ∈ n.nested here ↔ Within m n := by
  constructor
  · intro hm
    induction n using Fragment.induction generalizing here with
    | step n ih =>
        rw [nested_eq, List.mem_append, List.mem_flatMap, List.mem_singleton] at hm
        rcases hm with ⟨p, hp, hm⟩ | rfl
        · exact .inside (mem_inside_of_mem_parts hp) (ih here p hp hm)
        · exact .here
  · intro hm
    induction hm generalizing here with
    | here =>
        rw [nested_eq]
        exact List.mem_append_right _ (List.mem_singleton.2 rfl)
    | inside hk _ ih =>
        obtain ⟨setting, hp⟩ := exists_mem_parts_of_mem_inside hk here
        rw [nested_eq]
        exact List.mem_append_left _ (List.mem_flatMap.2 ⟨_, hp, ih⟩)

/-- The immediate expressions of all fragments make up the expressions of the
tour, the outermost one apart. -/
theorem children_perm_exprs (here : Setting) (n : Fragment) :
    ((n.nested here).flatMap children ++ n.own).Perm (n.exprs (fun _ => true) here) := by
  induction n using Fragment.induction generalizing here with
  | step n ih =>
      rw [nested_eq, exprs_eq, toured_all, List.flatMap_append, List.flatMap_singleton, children,
        ← flatMap_snd_parts here, List.flatMap_assoc]
      apply List.Perm.append_right
      exact (List.flatMap_append_perm _ _ _).trans
        (List.Perm.flatMap_left _ fun p hp => ih here p hp p.1)

/-! ## What a tour comes by -/

/-- A tour enters and leaves nothing but fragments inside of what it goes through. -/
theorem within_of_mem_visits {below : Expr → Bool} {v : Visit} (hv : v ∈ n.visits below here) :
    ∃ m : Fragment, m.Within n ∧ (v.event = m.enter ∨ v.event = m.leave) := by
  induction n using Fragment.induction generalizing here with
  | step n ih =>
      rw [visits_eq, List.mem_append, List.mem_cons, List.mem_flatMap, List.mem_singleton] at hv
      rcases hv with (rfl | ⟨p, hp, hv⟩) | rfl
      · exact ⟨n, .here, Or.inl rfl⟩
      · have hparts := mem_parts_of_mem_toured hp
        obtain ⟨m, hm, hevent⟩ := ih here p hparts hv
        exact ⟨m, .inside (mem_inside_of_mem_parts hparts) hm, hevent⟩
      · exact ⟨n, .here, Or.inr rfl⟩

theorem exists_enter_mem_visits (hm : m.Within n) (here : Setting) :
    ∃ setting, ⟨setting, m.enter⟩ ∈ n.visits (fun _ => true) here := by
  induction hm generalizing here with
  | here =>
      refine ⟨here, ?_⟩
      rw [visits_eq]
      exact List.mem_append_left _ List.mem_cons_self
  | inside hk _ ih =>
      obtain ⟨inner, hp⟩ := exists_mem_parts_of_mem_inside hk here
      obtain ⟨setting, hvisit⟩ := ih inner
      refine ⟨setting, ?_⟩
      rw [visits_eq, toured_all]
      exact List.mem_append_left _ (List.mem_cons_of_mem _ (List.mem_flatMap.2 ⟨_, hp, hvisit⟩))

/-- A tour asks only about the expressions that occur where it goes. -/
theorem visits_congr {below below' : Expr → Bool}
    (h : ∀ e, n.Occurs e → below e = below' e) (here : Setting) :
    n.visits below here = n.visits below' here := by
  induction n using Fragment.induction generalizing here with
  | step n ih =>
      have htoured : n.toured below here = n.toured below' here := by
        cases n with
        | expr e => rw [toured, toured, h e .here]
        | stmt s => rfl
        | block role b => rfl
      have hparts : ∀ p ∈ n.toured below' here, p.2.visits below p.1 = p.2.visits below' p.1 := by
        intro p hp
        have hmem := mem_parts_of_mem_toured hp
        exact ih here p hmem (fun e he => h e (.inside hmem he)) p.1
      rw [visits_eq, visits_eq below', htoured, List.flatMap_congr hparts]

theorem within_iff_occurs : (expr e).Within n ↔ n.Occurs e := by
  constructor
  · intro he
    induction he with
    | here => exact .here
    | inside hk _ ih =>
        obtain ⟨setting, hp⟩ := exists_mem_parts_of_mem_inside hk .outermost
        exact .inside hp ih
  · intro he
    induction he with
    | here => exact .here
    | inside hm _ ih => exact .inside (mem_inside_of_mem_parts hm) ih

theorem mem_inside_of_mem_children (he : e ∈ n.children) : expr e ∈ n.inside := by
  obtain ⟨m, hm, hown⟩ := List.mem_flatMap.1 he
  exact mem_own_iff.1 hown ▸ hm

/-- The block of an arm stands beside the scrutinee of its match. -/
theorem scrutinee_mem_inside {scrutinee : Expr} {pattern : Pattern} {b : Block}
    (hb : block (.arm scrutinee pattern) b ∈ n.inside) : expr scrutinee ∈ n.inside := by
  cases n with
  | expr e =>
      rw [inside_expr] at hb ⊢
      cases hform : e.form with
      | matchOn span x arms =>
          rw [hform] at hb
          rcases List.mem_cons.1 hb with hx | harm
          · cases hx
          · obtain ⟨arm, -, heq⟩ := List.mem_map.1 harm
            obtain ⟨hrole, -⟩ := block.inj heq
            obtain ⟨rfl, -⟩ := Role.arm.inj hrole
            exact List.mem_cons_self
      | variant type name args => cases args <;> simp [hform, ExprForm.parts] at hb
      | _ => simp [hform, ExprForm.parts] at hb
  | stmt s =>
      cases s with
      | ret value => cases value <;> simp [inside, parts, Stmt.parts] at hb
      | branch cond t e => cases e <;> simp [inside, parts, Stmt.parts] at hb
      | _ => simp [inside, parts, Stmt.parts] at hb
  | block role inner => simp [inside, parts] at hb

theorem within_scrutinee {scrutinee : Expr} {pattern : Pattern} {b : Block}
    (hb : (block (.arm scrutinee pattern) b).Within n) :
    n = block (.arm scrutinee pattern) b ∨ (expr scrutinee).Within n := by
  induction hb with
  | here => exact Or.inl rfl
  | inside hk _ ih =>
      rcases ih with rfl | hscrutinee
      · exact Or.inr (.inside (scrutinee_mem_inside hk) .here)
      · exact Or.inr (.inside hk hscrutinee)

/-- The expressions that a fragment is about: the expression that it is, those among
its parts, and for the block of an arm the scrutinee. -/
def subjects : Fragment → List Expr
  | block (.arm scrutinee _) _ => [scrutinee]
  | n => n.own ++ n.children

theorem mem_subjects_self (e : Expr) : e ∈ (expr e).subjects :=
  List.mem_append_left _ (List.mem_singleton.2 rfl)

theorem mem_subjects_of_mem_inside (he : expr e ∈ n.inside) : e ∈ n.subjects := by
  have hchild : e ∈ n.own ++ n.children :=
    List.mem_append_right _ (List.mem_flatMap.2 ⟨_, he, List.mem_singleton.2 rfl⟩)
  cases n with
  | block role b =>
      cases role with
      | arm scrutinee pattern => simp [inside, parts] at he
      | _ => exact hchild
  | _ => exact hchild

theorem mem_subjects_of_mem_parts {x : Expr} (hx : expr x ∈ e.form.parts) :
    x ∈ (expr e).subjects :=
  mem_subjects_of_mem_inside (inside_expr e ▸ hx)

end Fragment

namespace Block

def fragments (b : Block) : List Fragment := Fragment.nested .outermost (.block .body b)

def Has (b : Block) (n : Fragment) : Prop := n.Within (.block .body b)

variable {b : Block}

theorem mem_fragments_iff {n : Fragment} : n ∈ b.fragments ↔ b.Has n := Fragment.mem_nested_iff

theorem has_of_getElem? {i : ℕ} {n : Fragment} (hn : b.fragments[i]? = some n) : b.Has n :=
  mem_fragments_iff.1 (List.mem_of_getElem? hn)

theorem has_of_mem_stmts {s : Stmt} (hs : s ∈ b.stmts) : b.Has (.stmt s) := by
  refine .inside ?_ .here
  simpa [Fragment.inside, Fragment.parts] using hs

theorem has_expr_iff {e : Expr} : b.Has (.expr e) ↔ b.Contains e := Fragment.within_iff_occurs

theorem has_of_mem_tour {v : Visit} (hv : v ∈ b.tour) :
    ∃ n : Fragment, b.Has n ∧ (v.event = n.enter ∨ v.event = n.leave) := by
  have hvisits : v ∈ Fragment.visits (fun _ => true) .outermost (.block .body b) := hv
  exact Fragment.within_of_mem_visits hvisits

theorem contains_of_mem_tour {v : Visit} {e : Expr} (hv : v ∈ b.tour)
    (hevent : v.event = .enterExpr e ∨ v.event = .leaveExpr e) : b.Contains e := by
  obtain ⟨n, hn, hfragment⟩ := has_of_mem_tour hv
  have hexpr : n = .expr e := by
    cases n with
    | expr x =>
        rcases hevent with hevent | hevent <;> rw [hevent] at hfragment <;>
          simpa [Fragment.enter, Fragment.leave, eq_comm] using hfragment
    | stmt s =>
        rcases hevent with hevent | hevent <;> rw [hevent] at hfragment <;>
          simp [Fragment.enter, Fragment.leave] at hfragment
    | block role inner =>
        rcases hevent with hevent | hevent <;> rw [hevent] at hfragment <;>
          simp [Fragment.enter, Fragment.leave] at hfragment
  exact has_expr_iff.1 (hexpr ▸ hn)

/-- What the fragments of a body are about stands in the body. -/
theorem Has.contains_of_mem_subjects {n : Fragment} {e : Expr} (hn : b.Has n)
    (he : e ∈ n.subjects) : b.Contains e := by
  have hparts : e ∈ n.own ++ n.children → b.Contains e := by
    intro he
    rcases List.mem_append.1 he with he | he
    · exact has_expr_iff.1 (Fragment.mem_own_iff.1 he ▸ hn)
    · have hinside : (Fragment.expr e).Within n :=
        .inside (Fragment.mem_inside_of_mem_children he) .here
      exact has_expr_iff.1 (hinside.trans hn)
  unfold Fragment.subjects at he
  split at he
  · obtain rfl := List.mem_singleton.1 he
    rcases Fragment.within_scrutinee hn with hroot | hscrutinee
    · cases hroot
    · exact has_expr_iff.1 hscrutinee
  · exact hparts he

theorem children_perm_exprs (b : Block) : (b.fragments.flatMap Fragment.children).Perm b.exprs := by
  have hperm := Fragment.children_perm_exprs .outermost (.block .body b)
  have hown : (Fragment.block .body b).own = [] := rfl
  rwa [hown, List.append_nil] at hperm

theorem DistinctIds.nodup_children (hids : b.DistinctIds) :
    ((b.fragments.flatMap Fragment.children).map Expr.id).Nodup :=
  (b.children_perm_exprs.map Expr.id).nodup_iff.2 hids

end Block

end ProgramSafety
