import Mathlib.Data.List.Pairwise
import ProgramSafety.Proofs.Tree.Nesting

/-!
# Regions of a body

Some statements open a region, such as the body of a `try` statement, in which
failures are caught. The tour marks the settings of the visits inside a region,
carrying the mark down from part to part. `Fragment.Enclosed` says the same of the
syntax alone: some statement opens a region, and the fragment stands in it. In a
body with distinct ids a fragment that holds an expression is visited once, so the
mark of its visit tells whether it is enclosed (`Block.DistinctIds.mark_iff`).
-/

namespace ProgramSafety

/-- A kind of region: the block of a statement that is one, and the mark that the
tour puts on settings inside. Nothing else sets or clears the mark. -/
structure Region where
  opened? : Stmt → Option Block
  mark : Setting → Bool
  mark_outermost : mark .outermost = false
  opened_inside : ∀ {s : Stmt} {b : Block}, opened? s = some b →
    .block .plain b ∈ (Fragment.stmt s).inside
  mark_parts : ∀ {n : Fragment} {here : Setting} {p : Setting × Fragment}, p ∈ n.parts here →
    (mark p.1 = true ↔ mark here = true ∨
      ∃ s b, n = .stmt s ∧ opened? s = some b ∧ p.2 = .block .plain b)

/-- Two statements change the setting, each for its own block: a `try` statement for its
body, and an unsafe block. All other parts stand in the setting of the whole. -/
theorem Fragment.setting_of_mem_parts {n : Fragment} {here : Setting} {p : Setting × Fragment}
    (hp : p ∈ n.parts here) :
    (∃ body binder handler, n = .stmt (.attempt body binder handler) ∧
      p = ({ here with guarded := true }, .block .plain body)) ∨
    (∃ body, n = .stmt (.unsafeBlock body) ∧
      p = ({ here with rawAllowed := true }, .block .plain body)) ∨
    p.1 = here ∧ (∀ body, n ≠ .stmt (.unsafeBlock body)) ∧
      ∀ body binder handler, n = .stmt (.attempt body binder handler) →
        p.2 ≠ .block .plain body := by
  cases n with
  | expr e =>
      obtain ⟨m, -, rfl⟩ := List.mem_map.1 hp
      simp
  | block role b =>
      obtain ⟨s, -, rfl⟩ := List.mem_map.1 hp
      simp
  | stmt s =>
      cases s with
      | attempt body binder handler =>
          obtain rfl | rfl : _ ∨ _ := by simpa [parts, Stmt.parts] using hp
          · exact Or.inl ⟨body, binder, handler, rfl, rfl⟩
          · exact Or.inr (Or.inr ⟨rfl, by simp, by simp⟩)
      | unsafeBlock body => exact Or.inr (Or.inl ⟨body, rfl, List.mem_singleton.1 hp⟩)
      | ret value => cases value <;> simp_all [parts, Stmt.parts]
      | branch cond t e =>
          cases e <;> simp only [parts, Stmt.parts, List.mem_cons, List.not_mem_nil, or_false] at hp
          · rcases hp with rfl | rfl <;> simp
          · rcases hp with rfl | rfl | rfl <;> simp
      | assign | loop =>
          simp only [parts, Stmt.parts, List.mem_cons, List.not_mem_nil, or_false] at hp
          rcases hp with rfl | rfl <;> simp
      | bind | expr | block | raise =>
          obtain rfl := List.mem_singleton.1 hp
          simp

/-- The body of a `try` statement; its handler is outside. -/
def Region.guarded : Region where
  opened?
    | .attempt body _ _ => some body
    | _ => none
  mark := Setting.guarded
  mark_outermost := rfl
  opened_inside := by
    intro s b hopen
    cases s with
    | attempt body binder handler =>
        obtain rfl : body = b := by simpa using hopen
        exact List.mem_cons_self
    | _ => simp at hopen
  mark_parts := by
    intro n here p hp
    obtain ⟨body, binder, handler, rfl, rfl⟩ | ⟨body, rfl, rfl⟩ | ⟨hhere, -, hbody⟩ :=
      Fragment.setting_of_mem_parts hp
    · simp
    · simp
    · rw [hhere, iff_self_or]
      rintro ⟨s, b, rfl, hopen, hblock⟩
      cases s with
      | attempt body binder handler =>
          obtain rfl : body = b := by simpa using hopen
          exact absurd hblock (hbody body binder handler rfl)
      | _ => simp at hopen

def Region.rawAllowed : Region where
  opened?
    | .unsafeBlock body => some body
    | _ => none
  mark := Setting.rawAllowed
  mark_outermost := rfl
  opened_inside := by
    intro s b hopen
    cases s with
    | unsafeBlock body =>
        obtain rfl : body = b := by simpa using hopen
        exact List.mem_cons_self
    | _ => simp at hopen
  mark_parts := by
    intro n here p hp
    obtain ⟨body, binder, handler, rfl, rfl⟩ | ⟨body, rfl, rfl⟩ | ⟨hhere, hsafe, -⟩ :=
      Fragment.setting_of_mem_parts hp
    · simp
    · simp
    · rw [hhere, iff_self_or]
      rintro ⟨s, b, rfl, hopen, -⟩
      cases s with
      | unsafeBlock body => exact absurd rfl (hsafe body)
      | _ => simp at hopen

namespace Fragment

variable {region : Region} {here setting : Setting} {n m : Fragment}

/-- A statement of the fragment opens a region that the other fragment stands in. -/
def Enclosed (region : Region) (n m : Fragment) : Prop :=
  ∃ s b, region.opened? s = some b ∧ (stmt s).Within n ∧ m.Within (block .plain b)

theorem Enclosed.inside {k : Fragment} (hk : k ∈ n.inside) (hm : k.Enclosed region m) :
    n.Enclosed region m := by
  obtain ⟨s, b, hopen, hs, hm⟩ := hm
  exact ⟨s, b, hopen, .inside hk hs, hm⟩

/-! ## Visits that leave a fragment -/

theorem leave_injective : Function.Injective leave := by
  intro n m h
  simpa using congrArg Event.leftFragment? h

theorem leave_ne_enter (n m : Fragment) : n.leave ≠ m.enter := by
  intro h
  simpa using congrArg Event.leftFragment? h

theorem leave_mem_visits_iff :
    ⟨setting, m.leave⟩ ∈ n.visits (fun _ => true) here ↔
      (∃ p ∈ n.parts here, ⟨setting, m.leave⟩ ∈ p.2.visits (fun _ => true) p.1) ∨
        setting = here ∧ m = n := by
  rw [visits_eq, toured_all]
  simp [leave_ne_enter, leave_injective.eq_iff]

theorem within_of_leave_mem (hm : ⟨setting, m.leave⟩ ∈ n.visits (fun _ => true) here) :
    m.Within n :=
  mem_nested_iff.1 (List.mem_filterMap.2 ⟨_, hm, Event.leftFragment?_leave m⟩)

/-- The tour goes through the parts of what it visits, in their settings. -/
theorem visits_subset_of_mem_parts (hm : ⟨setting, m.leave⟩ ∈ n.visits (fun _ => true) here)
    {p : Setting × Fragment} (hp : p ∈ m.parts setting) :
    p.2.visits (fun _ => true) p.1 ⊆ n.visits (fun _ => true) here := by
  induction n using Fragment.induction generalizing here with
  | step n ih =>
      have hpart : ∀ q ∈ n.parts here,
          q.2.visits (fun _ => true) q.1 ⊆ n.visits (fun _ => true) here := by
        intro q hq v hv
        rw [visits_eq, toured_all]
        exact List.mem_append_left _ (List.mem_cons_of_mem _ (List.mem_flatMap.2 ⟨q, hq, hv⟩))
      rcases leave_mem_visits_iff.1 hm with ⟨q, hq, hm⟩ | ⟨rfl, rfl⟩
      · exact List.Subset.trans (ih here q hq hm) (hpart q hq)
      · exact hpart p hp

theorem leave_mem_self (here : Setting) (n : Fragment) :
    ⟨here, n.leave⟩ ∈ n.visits (fun _ => true) here :=
  leave_mem_visits_iff.2 (Or.inr ⟨rfl, rfl⟩)

/-! ## Marks -/

/-- A marked visit was marked from the start, or lies in a region. -/
theorem mark_or_enclosed (hm : ⟨setting, m.leave⟩ ∈ n.visits (fun _ => true) here)
    (hmark : region.mark setting = true) : region.mark here = true ∨ n.Enclosed region m := by
  induction n using Fragment.induction generalizing here with
  | step n ih =>
      rcases leave_mem_visits_iff.1 hm with ⟨p, hp, hpart⟩ | ⟨rfl, rfl⟩
      · rcases ih here p hp hpart with hinner | henclosed
        · rcases (region.mark_parts hp).1 hinner with hhere | ⟨s, b, rfl, hopen, hblock⟩
          · exact Or.inl hhere
          · exact Or.inr ⟨s, b, hopen, .here, hblock ▸ within_of_leave_mem hpart⟩
        · exact Or.inr (henclosed.inside (mem_inside_of_mem_parts hp))
      · exact Or.inl hmark

/-- Inside a region every visit is marked. -/
theorem exists_visit_of_within (region : Region) (hm : m.Within n) (here : Setting) :
    ∃ setting, ⟨setting, m.leave⟩ ∈ n.visits (fun _ => true) here ∧
      (region.mark here = true → region.mark setting = true) := by
  induction hm generalizing here with
  | here => exact ⟨here, leave_mem_self here _, id⟩
  | inside hk _ ih =>
      obtain ⟨inner, hp⟩ := exists_mem_parts_of_mem_inside hk here
      obtain ⟨setting, hvisit, hmark⟩ := ih inner
      refine ⟨setting, leave_mem_visits_iff.2 (Or.inl ⟨_, hp, hvisit⟩), fun hhere => ?_⟩
      exact hmark ((region.mark_parts hp).2 (Or.inl hhere))

theorem exists_marked_visit (hm : n.Enclosed region m) (here : Setting) :
    ∃ setting, ⟨setting, m.leave⟩ ∈ n.visits (fun _ => true) here ∧
      region.mark setting = true := by
  obtain ⟨s, b, hopen, hs, hm⟩ := hm
  obtain ⟨outer, hstmt, -⟩ := exists_visit_of_within region hs here
  obtain ⟨inner, hp⟩ := exists_mem_parts_of_mem_inside (region.opened_inside hopen) outer
  have hinner : region.mark inner = true :=
    (region.mark_parts hp).2 (Or.inr ⟨s, b, rfl, hopen, rfl⟩)
  obtain ⟨setting, hvisit, hmark⟩ := exists_visit_of_within region hm inner
  exact ⟨setting, visits_subset_of_mem_parts hstmt hp hvisit, hmark hinner⟩

/-! ## Fragments that hold an expression -/

/-- The fragment is an expression or has one among its immediate parts. -/
def Holds (n : Fragment) : Prop := n.own ≠ [] ∨ n.children ≠ []

theorem flatMap_own_nested (here : Setting) (n : Fragment) :
    (n.nested here).flatMap own = n.exprs (fun _ => true) here := by
  induction n using Fragment.induction generalizing here with
  | step n ih =>
      rw [nested_eq, exprs_eq, toured_all, List.flatMap_append, List.flatMap_singleton,
        List.flatMap_assoc]
      congr 1
      exact List.flatMap_congr fun p hp => ih here p hp p.1

end Fragment

namespace Block

variable {b : Block} {region : Region} {m n : Fragment} {setting setting' : Setting}

def Encloses (b : Block) (region : Region) (m : Fragment) : Prop :=
  (Fragment.block .body b).Enclosed region m

theorem mem_tour_iff_has : (∃ setting, ⟨setting, m.leave⟩ ∈ b.tour) ↔ b.Has m := by
  constructor
  · rintro ⟨setting, hm⟩
    exact Fragment.within_of_leave_mem hm
  · intro hm
    obtain ⟨setting, hvisit, -⟩ :=
      Fragment.exists_visit_of_within .guarded hm .outermost
    exact ⟨setting, hvisit⟩

theorem mem_tour_of_mem_parts (hm : ⟨setting, m.leave⟩ ∈ b.tour) {p : Setting × Fragment}
    (hp : p ∈ m.parts setting) : ⟨p.1, p.2.leave⟩ ∈ b.tour := by
  have htour : b.tour = (Fragment.block .body b).visits (fun _ => true) .outermost := rfl
  rw [htour] at hm ⊢
  exact Fragment.visits_subset_of_mem_parts hm hp (Fragment.leave_mem_self p.1 p.2)

/-- In a body with distinct ids no two fragments that hold an expression are the
same. -/
theorem DistinctIds.pairwise_fragments (hids : b.DistinctIds) :
    b.fragments.Pairwise fun m n => m.Holds → m ≠ n := by
  have howns : (b.fragments.flatMap Fragment.own).Nodup := by
    have hexprs : b.fragments.flatMap Fragment.own = b.exprs := Fragment.flatMap_own_nested _ _
    rw [hexprs]
    exact List.Nodup.of_map _ hids
  have hchildren : (b.fragments.flatMap Fragment.children).Nodup :=
    List.Nodup.of_map _ hids.nodup_children
  refine ((List.nodup_flatMap.1 howns).2.and (List.nodup_flatMap.1 hchildren).2).imp ?_
  rintro m n ⟨hown, hchild⟩ hm rfl
  rcases hm with hm | hm
  · exact hm (List.eq_nil_iff_forall_not_mem.2 fun e he => hown he he)
  · exact hm (List.eq_nil_iff_forall_not_mem.2 fun e he => hchild he he)

theorem DistinctIds.pairwise_tour (hids : b.DistinctIds) :
    b.tour.Pairwise fun v w =>
      ∀ m : Fragment, v.event = m.leave → m.Holds → w.event ≠ m.leave := by
  refine (List.pairwise_filterMap.1 hids.pairwise_fragments).imp ?_
  intro v w hvw m hv hm hw
  exact hvw m (by simp [hv]) m (by simp [hw]) hm rfl

/-- A fragment that holds an expression is visited once. -/
theorem DistinctIds.setting_eq (hids : b.DistinctIds) (hholds : m.Holds)
    (hm : ⟨setting, m.leave⟩ ∈ b.tour) (hm' : ⟨setting', m.leave⟩ ∈ b.tour) :
    setting = setting' := by
  by_contra hne
  have hsymm : Std.Symm fun v w : Visit =>
      ∀ m : Fragment, v.event = m.leave → m.Holds → w.event ≠ m.leave :=
    ⟨fun v w hvw m hw hm hv => hvw m hv hm hw⟩
  exact hids.pairwise_tour.forall hm hm' (by simpa using hne) m rfl hholds rfl

/-- The mark of a visit tells whether what it leaves is enclosed. -/
theorem DistinctIds.mark_iff (hids : b.DistinctIds) (region : Region) (hholds : m.Holds)
    (hm : ⟨setting, m.leave⟩ ∈ b.tour) :
    region.mark setting = true ↔ b.Encloses region m := by
  constructor
  · intro hmark
    have htour : ⟨setting, m.leave⟩ ∈
        (Fragment.block .body b).visits (fun _ => true) .outermost := hm
    rcases Fragment.mark_or_enclosed htour hmark with hstart | henclosed
    · exact absurd hstart (by simp [region.mark_outermost])
    · exact henclosed
  · intro henclosed
    obtain ⟨setting', hm', hmark⟩ := Fragment.exists_marked_visit henclosed .outermost
    rwa [hids.setting_eq hholds hm hm']

end Block

end ProgramSafety
