import Mathlib.Data.Set.Finite.Basic
import Mathlib.Order.WellFounded
import ProgramSafety.Proofs.Store.Client

/-!
# References between objects

The live objects of a heap are the vertices of a graph, in which an object refers to
what its strong handles reach. `Heap.residents` lists the vertices and `Heap.Refers`
is the edge relation; weak handles are no edges.

An object of which the client owns no handle is kept alive by other objects alone. If
the client owns nothing at all, every live object is referred to by a live object, and
as there are finitely many of them the way back from an object to its owners runs
into a cycle. So a disciplined client that has given up all of its handles leaves
nothing behind but cycles and what hangs on them (`Client.leaks_only_cycles`).
-/

namespace ProgramSafety

def Slot.handle? (slot : Slot) (i : ℕ) : Option Handle :=
  slot.entry.map fun _ => ⟨i, slot.generation⟩

namespace Heap

open Relation

def residents (s : Heap) : List Handle := s.slots.zipIdx.filterMap fun p => p.1.handle? p.2

def held (s : Heap) (h : Handle) : List Handle := (s.get? h).elim [] fun e => e.object.handles

/-- The object behind `a` owns a strong handle to the object behind `b`. -/
def Refers (s : Heap) (a b : Handle) : Prop := b ∈ s.held a

variable {s : Heap} {a b x : Handle} {e : Entry}

/-! ## Live objects -/

theorem held_of_get? (he : s.get? x = some e) : s.held x = e.object.handles := by
  simp [held, he]

theorem isAlive_of_refers (h : s.Refers a b) : s.isAlive a = true := by
  unfold Refers held at h
  cases he : s.get? a with
  | none => simp [he] at h
  | some e => simp [isAlive, he]

theorem mem_residents_iff : x ∈ s.residents ↔ s.isAlive x = true := by
  rw [isAlive_iff, residents, List.mem_filterMap]
  constructor
  · rintro ⟨⟨⟨g, entry⟩, i⟩, hmem, hx⟩
    obtain ⟨e, rfl, rfl⟩ := Option.map_eq_some_iff.1 hx
    exact ⟨e, get?_eq_some_iff.2 (List.mk_mem_zipIdx_iff_getElem?.1 hmem)⟩
  · rintro ⟨e, he⟩
    exact ⟨_, List.mk_mem_zipIdx_iff_getElem?.2 (exists_slot_of_get? he), rfl⟩

theorem exists_isAlive_of_live_ne_zero (h : s.live ≠ 0) : ∃ x, s.isAlive x = true := by
  obtain ⟨⟨g, entry⟩, hmem, hsome⟩ := List.countP_pos_iff.1 (Nat.pos_of_ne_zero h)
  obtain ⟨i, hslot⟩ := List.mem_iff_getElem?.1 hmem
  obtain ⟨e, rfl⟩ := Option.isSome_iff_exists.1 hsome
  exact ⟨⟨i, g⟩, isAlive_iff.2 ⟨e, get?_eq_some_iff.2 hslot⟩⟩

/-- The strong handles inside live objects are the ends of references. -/
theorem mem_stored_iff : b ∈ s.stored ↔ ∃ a, s.Refers a b := by
  constructor
  · intro hb
    obtain ⟨⟨g, entry⟩, hmem, hb⟩ := List.mem_flatMap.1 (Multiset.mem_coe.1 hb)
    obtain ⟨i, hslot⟩ := List.mem_iff_getElem?.1 hmem
    cases entry with
    | none => simp [Slot.handles] at hb
    | some e =>
        have he : s.get? ⟨i, g⟩ = some e := get?_eq_some_iff.2 hslot
        exact ⟨⟨i, g⟩, by simpa [Refers, held_of_get? he, Slot.handles] using hb⟩
  · rintro ⟨a, hb⟩
    obtain ⟨e, he⟩ := isAlive_iff.1 (isAlive_of_refers hb)
    rw [Refers, held_of_get? he] at hb
    exact List.mem_flatMap.2 ⟨_, List.mem_of_getElem? (exists_slot_of_get? he), hb⟩

/-! ## Cycles -/

/-- If every live object is referred to, the way back from each of them leads to a
cycle. -/
theorem exists_cycle_of_forall_referred (href : ∀ b, s.isAlive b = true → ∃ a, s.Refers a b)
    (hx : s.isAlive x = true) : ∃ c, TransGen s.Refers c c ∧ ReflTransGen s.Refers c x := by
  by_contra hno
  -- the live objects from which `x` is reached, ordered by reachability
  let Above := { a : Handle // s.isAlive a = true ∧ ReflTransGen s.Refers a x }
  have hfinite : Finite Above := by
    refine Set.Finite.subset (List.finite_toSet s.residents) ?_
    intro a ha
    exact mem_residents_iff.2 ha.1
  let below : Above → Above → Prop := fun a b => TransGen s.Refers a.1 b.1
  have htrans : IsTrans Above below := ⟨fun _ _ _ => TransGen.trans⟩
  have hirrefl : Std.Irrefl below := ⟨fun c hc => hno ⟨c.1, hc, c.2.2⟩⟩
  obtain ⟨⟨m, hm, hmx⟩, -, hmin⟩ :=
    (Finite.wellFounded_of_trans_of_irrefl below).has_min Set.univ ⟨⟨x, hx, .refl⟩, trivial⟩
  obtain ⟨a, ha⟩ := href m hm
  exact hmin ⟨a, isAlive_of_refers ha, .head ha hmx⟩ trivial (.single ha)

/-- With no handles outside, an object is alive because another one refers to it. -/
theorem Accounted.exists_refers (ha : s.Accounted 0) (hb : s.isAlive b = true) :
    ∃ a, s.Refers a b := by
  obtain ⟨e, he⟩ := isAlive_iff.1 hb
  have hpos := ha.count_pos b e he
  have hcount := ha.count_eq b e he
  rw [Multiset.count_zero, zero_add] at hcount
  exact mem_stored_iff.1 (Multiset.count_pos.1 (by omega))

end Heap

namespace Client

open Relation

/-- A disciplined client that owns no handle at the end of a run has either left no
object behind or a cycle of references among the live ones; and whatever is alive then
is reached from such a cycle. -/
theorem leaks_only_cycles (qs : List Request) (hqs : start.Disciplined qs)
    (hnone : (start.run qs).owned = 0) :
    ((start.run qs).heap.live = 0 ∨
      ∃ c, (start.run qs).heap.isAlive c = true ∧ TransGen (start.run qs).heap.Refers c c) ∧
    ∀ x, (start.run qs).heap.isAlive x = true →
      ∃ c, TransGen (start.run qs).heap.Refers c c ∧
        ReflTransGen (start.run qs).heap.Refers c x := by
  have ha : (start.run qs).heap.Accounted 0 := by
    have hrun : (start.run qs).Accounted := Accounted.run Heap.accounted_empty hqs
    rwa [Accounted, hnone] at hrun
  have hcycle : ∀ x, (start.run qs).heap.isAlive x = true →
      ∃ c, TransGen (start.run qs).heap.Refers c c ∧
        ReflTransGen (start.run qs).heap.Refers c x :=
    fun x hx => Heap.exists_cycle_of_forall_referred (fun b => ha.exists_refers) hx
  refine ⟨or_iff_not_imp_left.2 fun hlive => ?_, hcycle⟩
  obtain ⟨x, hx⟩ := Heap.exists_isAlive_of_live_ne_zero hlive
  obtain ⟨c, hc, -⟩ := hcycle x hx
  obtain ⟨d, hd, -⟩ := TransGen.head'_iff.1 hc
  exact ⟨c, Heap.isAlive_of_refers hd, hc⟩

/-- Two objects come to own each other, one through an optional and one as an array on
which a third object hangs, and the client stores its last handle in the array. -/
def abandonedCycle : List Request :=
  [.newInstance "Node" [("next", .absent)],
   .upgrade ⟨⟨0, 0⟩⟩,
   .newInstance "Leaf" [],
   .newArray [.object ⟨0, 0⟩, .object ⟨1, 0⟩],
   .setField ⟨0, 0⟩ "next" (.present (.array ⟨2, 0⟩)),
   .push ⟨2, 0⟩ (.object ⟨0, 0⟩)]

theorem leaks_only_cycles_abandoned :
    start.Disciplined abandonedCycle ∧ (start.run abandonedCycle).owned = 0 ∧
      (start.run abandonedCycle).heap.live = 3 ∧
      ∃ c, (start.run abandonedCycle).heap.isAlive c = true ∧
        TransGen (start.run abandonedCycle).heap.Refers c c := by
  have hrun : start.Disciplined abandonedCycle ∧ (start.run abandonedCycle).owned = 0 ∧
      (start.run abandonedCycle).heap.live = 3 := by decide
  obtain ⟨hqs, hnone, hlive⟩ := hrun
  obtain ⟨hdead | hcycle, -⟩ := leaks_only_cycles abandonedCycle hqs hnone
  · omega
  · exact ⟨hqs, hnone, hlive, hcycle⟩

end Client

end ProgramSafety
