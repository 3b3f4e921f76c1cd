import ProgramSafety.Proofs.Store.Client

/-!
# Copies

A copy makes every strong handle of a value an owner once more, as often as the handle
occurs in the value. `s.withOwners hs` is the heap `s` with these owners added and
nothing else changed. Adding owners is additive in the handles and their order does not
matter, so what a copy has added can be taken away from the front. Counts are unbounded,
so there is no condition on how many owners an object has.

A drop of the copy releases the same handles. An object with owners of its own has one
left whenever an added owner is released, so no release on the way destroys anything
and no cascade begins: the heap is, slot by slot, the one before the copy
(`Heap.drop_copy`).
-/

namespace ProgramSafety

def Slot.addOwners (slot : Slot) (n : ℕ) : Slot :=
  { slot with entry := slot.entry.map fun e => { e with count := e.count + n } }

theorem Slot.addOwners_zero (slot : Slot) : slot.addOwners 0 = slot := by
  obtain ⟨g, entry⟩ := slot
  cases entry <;> rfl

theorem Slot.addOwners_add (slot : Slot) (m n : ℕ) :
    (slot.addOwners m).addOwners n = slot.addOwners (m + n) := by
  obtain ⟨g, entry⟩ := slot
  cases entry with
  | none => rfl
  | some e => simp [addOwners, Nat.add_assoc]

namespace Heap

/-- The heap in which every object has further owners, as many as there are handles to
it in the list. -/
def withOwners (s : Heap) (hs : List Handle) : Heap :=
  { s with slots := s.slots.mapIdx fun i slot => slot.addOwners (hs.count ⟨i, slot.generation⟩) }

variable {s : Heap} {h : Handle} {e : Entry} {hs hs' rest : List Handle}

/-! ## Adding owners -/

theorem getElem?_withOwners (s : Heap) (hs : List Handle) (i : ℕ) :
    (s.withOwners hs).slots[i]? =
      s.slots[i]?.map fun slot => slot.addOwners (hs.count ⟨i, slot.generation⟩) :=
  List.getElem?_mapIdx

theorem get?_withOwners (he : s.get? h = some e) (hs : List Handle) :
    (s.withOwners hs).get? h = some { e with count := e.count + hs.count h } := by
  rw [get?_eq_some_iff, getElem?_withOwners, exists_slot_of_get? he]
  rfl

theorem isAlive_withOwners (halive : s.isAlive h = true) (hs : List Handle) :
    (s.withOwners hs).isAlive h = true := by
  obtain ⟨e, he⟩ := isAlive_iff.1 halive
  exact isAlive_iff.2 ⟨_, get?_withOwners he hs⟩

theorem withOwners_nil (s : Heap) : s.withOwners [] = s := by
  have hslots : (s.withOwners []).slots = s.slots := by
    refine List.ext_getElem? fun i => ?_
    rw [getElem?_withOwners]
    simp [Slot.addOwners_zero]
  exact congrArg (Heap.mk · s.free) hslots

theorem withOwners_append (s : Heap) (hs hs' : List Handle) :
    (s.withOwners hs).withOwners hs' = s.withOwners (hs ++ hs') := by
  have hslots : ((s.withOwners hs).withOwners hs').slots = (s.withOwners (hs ++ hs')).slots := by
    refine List.ext_getElem? fun i => ?_
    rw [getElem?_withOwners, getElem?_withOwners, getElem?_withOwners, Option.map_map]
    refine congrArg (Option.map · s.slots[i]?) (funext fun slot => ?_)
    exact (slot.addOwners_add _ _).trans (by rw [List.count_append]; rfl)
  exact congrArg (Heap.mk · s.free) hslots

theorem withOwners_perm (hperm : hs.Perm hs') : s.withOwners hs = s.withOwners hs' := by
  simp only [withOwners, hperm.count_eq]

/-- One owner is added by writing one slot. -/
theorem setEntry_eq_withOwners (he : s.get? h = some e) :
    s.setEntry h { e with count := e.count + 1 } = s.withOwners [h] := by
  have hslot := exists_slot_of_get? he
  have hlt := (List.getElem?_eq_some_iff.1 hslot).1
  have hslots : (s.setEntry h { e with count := e.count + 1 }).slots =
      (s.withOwners [h]).slots := by
    refine List.ext_getElem? fun i => ?_
    rw [getElem?_withOwners]
    by_cases hi : h.index = i
    · subst hi
      rw [setEntry, List.getElem?_set_self hlt, hslot]
      simp [Slot.addOwners]
    · have hnone : ∀ g, [h].count ⟨i, g⟩ = 0 := by
        intro g
        refine List.count_eq_zero.2 fun hmem => hi ?_
        rw [← List.mem_singleton.1 hmem]
      simp [setEntry, List.getElem?_set_ne hi, hnone, Slot.addOwners_zero]
  exact congrArg (Heap.mk · s.free) hslots

/-! ## Retaining and releasing -/

theorem retain_eq_withOwners (he : s.get? h = some e) :
    retain h s = .ok (e.count + 1) (s.withOwners [h]) := by
  simp only [retain, he, setEntry_eq_withOwners he]

theorem retainEach_eq_withOwners (halive : ∀ x ∈ hs, s.isAlive x = true) :
    retainEach hs s = .ok () (s.withOwners hs) := by
  induction hs generalizing s with
  | nil => rw [withOwners_nil, retainEach]
  | cons h hs ih =>
      obtain ⟨e, he⟩ := isAlive_iff.1 (halive h List.mem_cons_self)
      have hrest : ∀ x ∈ hs, (s.withOwners [h]).isAlive x = true :=
        fun x hx => isAlive_withOwners (halive x (List.mem_cons_of_mem h hx)) [h]
      simp only [retainEach, retain_eq_withOwners he, ih hrest, withOwners_append,
        List.singleton_append]

/-- An owner beside others is given up without further consequences. -/
theorem release_withOwners_singleton (he : s.get? h = some e) (hpos : 1 ≤ e.count) :
    release h (s.withOwners [h]) = .ok (.alive e.count) s := by
  have hadded : (s.withOwners [h]).get? h = some { e with count := e.count + 1 } := by
    simpa using get?_withOwners he [h]
  have hback : (s.withOwners [h]).setEntry h e = s := by
    rw [← setEntry_eq_withOwners he, setEntry, setEntry, List.set_set]
    obtain ⟨hlt, hslot⟩ := List.getElem?_eq_some_iff.1 (exists_slot_of_get? he)
    rw [← hslot, List.set_getElem_self]
  have hone : releaseOne h (s.withOwners [h]) = .ok (.alive e.count, []) s := by
    simp only [releaseOne, hadded, if_pos (Nat.lt_add_of_pos_left hpos), Nat.add_sub_cancel,
      hback]
  simp only [release, hone, List.reverse_nil, releaseAll]

/-- The first of the added owners is given up and the others stay. -/
theorem release_withOwners_cons (he : s.get? h = some e) (hpos : 1 ≤ e.count) :
    release h (s.withOwners (h :: rest)) =
      .ok (.alive (e.count + rest.count h)) (s.withOwners rest) := by
  have hlast : s.withOwners (h :: rest) = (s.withOwners rest).withOwners [h] := by
    rw [withOwners_append]
    exact withOwners_perm (List.perm_append_singleton h rest).symm
  rw [hlast]
  exact release_withOwners_singleton (get?_withOwners he rest) (Nat.le_add_right_of_le hpos)

theorem releaseEach_withOwners (hpos : ∀ x e, s.get? x = some e → 1 ≤ e.count)
    (halive : ∀ x ∈ hs, s.isAlive x = true) (rest : List Handle) :
    releaseEach hs (s.withOwners (hs ++ rest)) = .ok () (s.withOwners rest) := by
  induction hs with
  | nil => rfl
  | cons h hs ih =>
      obtain ⟨e, he⟩ := isAlive_iff.1 (halive h List.mem_cons_self)
      have hrest := ih fun x hx => halive x (List.mem_cons_of_mem h hx)
      simp only [List.cons_append, releaseEach, release_withOwners_cons he (hpos h e he), hrest]

/-! ## Dropping a copy -/

/-- Let live objects have owners and let the strong handles of `v` be alive. A copy of
`v` succeeds with the value `v` and adds an owner for each of these handles. Dropping the
copy succeeds and gives the heap before the copy back, and each release on the way, of
`x` with the handles in `rest` to follow, leaves the object of `x` alive. -/
theorem drop_copy (s : Heap) (v : Value) (hpos : ∀ x e, s.get? x = some e → 1 ≤ e.count)
    (halive : ∀ x ∈ v.handles, s.isAlive x = true) :
    copy v s = .ok v (s.withOwners v.handles) ∧
    drop v (s.withOwners v.handles) = .ok () s ∧
    ∀ released x rest, v.handles = released ++ x :: rest →
      releaseEach released (s.withOwners v.handles) = .ok () (s.withOwners (x :: rest)) ∧
      ∃ n, 1 ≤ n ∧
        release x (s.withOwners (x :: rest)) = .ok (.alive n) (s.withOwners rest) := by
  refine ⟨?_, ?_, fun released x rest hsplit => ?_⟩
  · obtain ⟨-, s', heach, hcopy⟩ | ⟨x, hx, hdead, -⟩ := copy_cases v s
    · rw [retainEach_eq_withOwners halive] at heach
      cases heach
      exact hcopy
    · exact Bool.noConfusion ((halive x hx).symm.trans hdead)
  · have hall := releaseEach_withOwners hpos halive []
    rwa [List.append_nil, withOwners_nil] at hall
  · rw [hsplit] at halive ⊢
    obtain ⟨e, he⟩ := isAlive_iff.1 (halive x (by simp))
    have hbefore : ∀ y ∈ released, s.isAlive y = true :=
      fun y hy => halive y (List.mem_append_left _ hy)
    exact ⟨releaseEach_withOwners hpos hbefore _, _, Nat.le_add_right_of_le (hpos x e he),
      release_withOwners_cons he (hpos x e he)⟩

def sharedNode : List Request :=
  [.newInstance "Node" [], .upgrade ⟨⟨0, 0⟩⟩, .newArray [.object ⟨0, 0⟩]]

/-- A struct that leads to the node of `sharedNode` twice, through an optional and through
a variant, and to the array once. -/
def sharedNodeTwice : Value :=
  .struct "Pair" [("a", .present (.object ⟨0, 0⟩)), ("b", .array ⟨1, 0⟩),
    ("c", .variant "Link" "To" (.single (.object ⟨0, 0⟩)))]

theorem drop_copy_sharedNodeTwice :
    copy sharedNodeTwice (Client.start.run sharedNode).heap =
      .ok sharedNodeTwice
        ⟨[⟨0, some ⟨4, .classInstance "Node" []⟩⟩, ⟨0, some ⟨2, .array [.object ⟨0, 0⟩]⟩⟩], []⟩ ∧
    drop sharedNodeTwice
        ⟨[⟨0, some ⟨4, .classInstance "Node" []⟩⟩, ⟨0, some ⟨2, .array [.object ⟨0, 0⟩]⟩⟩], []⟩ =
      .ok () (Client.start.run sharedNode).heap := by
  have hqs : Client.start.Disciplined sharedNode := by decide
  have ha : (Client.start.run sharedNode).Accounted := Client.Accounted.run accounted_empty hqs
  obtain ⟨hcopy, hdrop, -⟩ := drop_copy _ sharedNodeTwice ha.count_pos (by decide)
  exact ⟨hcopy, hdrop⟩

end Heap

end ProgramSafety
