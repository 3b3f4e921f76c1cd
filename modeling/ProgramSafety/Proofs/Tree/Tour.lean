import Mathlib.Data.List.Flatten
import Mathlib.Data.List.Nodup
import ProgramSafety.Proofs.Tree.Fragment

/-!
# The expressions of a tour

`Fragment.exprs` lists the expressions of a fragment in the order in which its
tour leaves them. The list reaches everything that occurs in the fragment, except
below expressions that the tour was told not to enter, and an expression comes
after the expressions it is made of. Analyses that work bottom up rely on nothing
else.
-/

namespace ProgramSafety

def Event.left? : Event → Option Expr
  | .leaveExpr e => some e
  | _ => none

namespace Fragment

variable (below : Expr → Bool)

/-- The expressions of a fragment in the order in which the tour leaves them. -/
def exprs (here : Setting) (n : Fragment) : List Expr :=
  (n.visits below here).filterMap (·.event.left?)

def own : Fragment → List Expr
  | expr e => [e]
  | _ => []

theorem exprs_eq (here : Setting) (n : Fragment) :
    n.exprs below here = (n.toured below here).flatMap (fun p => p.2.exprs below p.1) ++ n.own := by
  rw [exprs, visits_eq]
  cases n <;> simp [exprs, enter, leave, own, Event.left?, List.filterMap_flatMap]

variable {below} {here : Setting} {n : Fragment} {e : Expr}

theorem mem_own_iff : e ∈ n.own ↔ n = expr e := by
  cases n with
  | expr x => simp [own, eq_comm]
  | stmt s => simp [own]
  | block role b => simp [own]

theorem mem_exprs_iff :
    e ∈ n.exprs below here ↔
      (∃ p ∈ n.toured below here, e ∈ p.2.exprs below p.1) ∨ n = expr e := by
  rw [exprs_eq, List.mem_append, List.mem_flatMap, mem_own_iff]

theorem mem_parts_of_mem_toured {p : Setting × Fragment} (hp : p ∈ n.toured below here) :
    p ∈ n.parts here := by
  cases n with
  | expr x =>
      rw [toured] at hp
      split at hp
      · exact hp
      · simp at hp
  | stmt s => exact hp
  | block role b => exact hp

/-! ## Occurrences -/

theorem occurs_of_mem_exprs (he : e ∈ n.exprs below here) : n.Occurs e := by
  induction n using Fragment.induction generalizing here with
  | step n ih =>
      rcases mem_exprs_iff.1 he with ⟨p, hp, hmem⟩ | rfl
      · have hparts := mem_parts_of_mem_toured hp
        exact .inside hparts (ih here p hparts hmem)
      · exact .here

/-- What occurs in a fragment is met by the tour, or lies inside an expression that
the tour meets but does not go below. -/
theorem mem_exprs_of_occurs (he : n.Occurs e) (here : Setting) :
    e ∈ n.exprs below here ∨
      ∃ x ∈ n.exprs below here, below x = false ∧
        ∃ p ∈ (expr x).parts here, p.2.Occurs e := by
  induction he generalizing here with
  | here => exact Or.inl (mem_exprs_iff.2 (Or.inr rfl))
  | @inside n m setting setting' hm he ih =>
      obtain ⟨setting'', hm⟩ :=
        exists_mem_parts_of_mem_inside (mem_inside_of_mem_parts hm) here
      by_cases htour : (setting'', m) ∈ n.toured below here
      · have hlift : ∀ x ∈ m.exprs below setting'', x ∈ n.exprs below here :=
          fun x hx => mem_exprs_iff.2 (Or.inl ⟨_, htour, hx⟩)
        rcases ih setting'' with hmem | ⟨x, hx, hbelow, p, hp, hocc⟩
        · exact Or.inl (hlift e hmem)
        · obtain ⟨a, hp⟩ := exists_mem_parts_of_mem_inside (mem_inside_of_mem_parts hp) here
          exact Or.inr ⟨x, hlift x hx, hbelow, _, hp, hocc⟩
      · cases n with
        | expr x =>
            have hbelow : below x = false := by
              cases hb : below x with
              | false => rfl
              | true => exact absurd (by simpa [toured, hb] using hm) htour
            exact Or.inr ⟨x, mem_exprs_iff.2 (Or.inr rfl), hbelow, _, hm, he⟩
        | stmt s => exact absurd hm htour
        | block role b => exact absurd hm htour

theorem exprs_sublist (below : Expr → Bool) (here : Setting) (n : Fragment) :
    (n.exprs below here).Sublist (n.exprs (fun _ => true) here) := by
  induction n using Fragment.induction generalizing here with
  | step n ih =>
      rw [exprs_eq, exprs_eq (fun _ => true)]
      apply List.Sublist.append_right
      have htoured : n.toured (fun _ => true) here = n.parts here := by
        cases n <;> rfl
      have hsub : (n.toured below here).Sublist (n.parts here) := by
        cases n with
        | expr x =>
            rw [toured]
            split
            · exact List.Sublist.refl _
            · exact List.nil_sublist _
        | stmt s => exact List.Sublist.refl _
        | block role b => exact List.Sublist.refl _
      rw [htoured]
      exact (hsub.flatMap _).trans (List.Sublist.flatMap_right _ fun p hp => ih here p hp p.1)

/-! ## Parts come first -/

/-- Every expression of the list that a tour goes below stands behind the
expressions it is made of. -/
def PartsFirst (below : Expr → Bool) (es : List Expr) : Prop :=
  ∀ pre e post, es = pre ++ e :: post → below e = true →
    ∀ x, expr x ∈ e.form.parts → x ∈ pre

theorem partsFirst_nil : PartsFirst below [] := by
  intro pre e post h
  simp at h

theorem PartsFirst.append {es fs : List Expr} (hes : PartsFirst below es)
    (hfs : PartsFirst below fs) : PartsFirst below (es ++ fs) := by
  intro pre e post h hbelow x hx
  rcases List.append_eq_append_iff.1 h with ⟨as, hpre, hfs'⟩ | ⟨bs, hes', hpost⟩
  · rw [hpre]
    exact List.mem_append_right _ (hfs as e post hfs' hbelow x hx)
  · cases bs with
    | nil =>
        have hmem := hfs [] e post (by simpa using hpost.symm) hbelow x hx
        exact absurd hmem List.not_mem_nil
    | cons b bs =>
        obtain ⟨rfl, -⟩ := List.cons.inj hpost
        exact hes pre e bs hes' hbelow x hx

theorem PartsFirst.flatMap {α : Type} {as : List α} {f : α → List Expr}
    (hf : ∀ a ∈ as, PartsFirst below (f a)) : PartsFirst below (as.flatMap f) := by
  induction as with
  | nil => exact partsFirst_nil
  | cons a as ih =>
      rw [List.flatMap_cons]
      exact (hf a (by simp)).append (ih fun b hb => hf b (by simp [hb]))

theorem PartsFirst.concat {es : List Expr} (hes : PartsFirst below es)
    (he : below e = true → ∀ x, expr x ∈ e.form.parts → x ∈ es) :
    PartsFirst below (es ++ [e]) := by
  intro pre y post h hbelow x hx
  rcases List.append_eq_append_iff.1 h with ⟨as, hpre, hsingle⟩ | ⟨bs, hes', hpost⟩
  · rw [hpre]
    cases as with
    | nil =>
        obtain ⟨rfl, -⟩ := List.cons.inj hsingle
        exact List.mem_append_left _ (he hbelow x hx)
    | cons a as => simp at hsingle
  · cases bs with
    | nil =>
        obtain ⟨rfl, -⟩ := List.cons.inj hpost
        rw [hes', List.append_nil] at he
        exact he hbelow x hx
    | cons b bs =>
        obtain ⟨rfl, -⟩ := List.cons.inj hpost
        exact hes pre y bs hes' hbelow x hx

theorem partsFirst_exprs (below : Expr → Bool) (here : Setting) (n : Fragment) :
    PartsFirst below (n.exprs below here) := by
  induction n using Fragment.induction generalizing here with
  | step n ih =>
      have hinner : PartsFirst below
          ((n.toured below here).flatMap fun p => p.2.exprs below p.1) :=
        PartsFirst.flatMap fun p hp => ih here p (mem_parts_of_mem_toured hp) p.1
      rw [exprs_eq]
      cases n with
      | expr e =>
          apply hinner.concat
          intro hbelow x hx
          have hp : (here, expr x) ∈ (expr e).toured below here := by
            rw [toured, if_pos hbelow]
            exact List.mem_map.2 ⟨_, hx, rfl⟩
          exact List.mem_flatMap.2 ⟨_, hp, mem_exprs_iff.2 (Or.inr rfl)⟩
      | stmt s => simpa [own] using hinner
      | block role b => simpa [own] using hinner

end Fragment

namespace Block

def exprs (b : Block) : List Expr := Fragment.exprs (fun _ => true) .outermost (.block .body b)

def Contains (b : Block) (e : Expr) : Prop := (Fragment.block .body b).Occurs e

def DistinctIds (b : Block) : Prop := (b.exprs.map Expr.id).Nodup

variable {b : Block}

theorem mem_exprs_iff {e : Expr} : e ∈ b.exprs ↔ b.Contains e := by
  constructor
  · intro he
    exact Fragment.occurs_of_mem_exprs he
  · intro he
    rcases Fragment.mem_exprs_of_occurs he .outermost with hmem | ⟨x, -, hbelow, -⟩
    · exact hmem
    · cases hbelow

theorem DistinctIds.eq_of_id_eq (hids : b.DistinctIds) {e x : Expr} (he : b.Contains e)
    (hx : b.Contains x) (hid : e.id = x.id) : e = x :=
  List.inj_on_of_nodup_map hids (mem_exprs_iff.2 he) (mem_exprs_iff.2 hx) hid

end Block

end ProgramSafety
