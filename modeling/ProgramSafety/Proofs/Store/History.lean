import ProgramSafety.Proofs.Store.Aging

/-!
# The history of a slot

A slot is emptied and filled again as a heap is used. What keeps an old handle from
reaching a new object is the generation of the slot. A request that places nothing
ages the heap, so along a run the generation of a slot counts its destructions,
modulo `2 ^ 32`. The count itself, `Heap.destructions`, does not look at
generations, only at which slots hold an object.
-/

namespace ProgramSafety

/-! ## Runs -/

namespace Request

def places : Request → Bool
  | newInstance .. | newArray _ => true
  | _ => false

theorem perform_of_places {q : Request} (hq : q.places = true) : ∃ o, q.perform = place o := by
  cases q with
  | newInstance name fields => exact ⟨_, rfl⟩
  | newArray items => exact ⟨_, rfl⟩
  | _ => simp [places] at hq

theorem placesNothing_perform {q : Request} (hq : q.places = false) :
    HeapM.PlacesNothing q.perform := by
  cases q with
  | newInstance | newArray => simp [places] at hq
  | retain h => exact Heap.placesNothing_retain.map _
  | release h => exact Heap.placesNothing_release.map _
  | upgrade w => exact (Heap.placesNothing_upgrade w).map _
  | readWeak w => exact (Heap.placesNothing_readWeak w).map _
  | copy v => exact Heap.placesNothing_copy.map _
  | drop v => exact Heap.placesNothing_drop.map _
  | setField h name v => exact (Heap.placesNothing_setField name).map _
  | setElement h index v => exact (Heap.placesNothing_setElement index).map _
  | push h v => exact Heap.placesNothing_push.map _

end Request

namespace Heap

/-- The heap after a request, carried out or not. -/
def serve (s : Heap) (q : Request) : Heap := HeapM.after q.perform s

def run (s : Heap) (qs : List Request) : Heap := qs.foldl serve s

/-- The request places an object and returns the handle `h` to it. -/
def Issues (s : Heap) (q : Request) (h : Handle) : Prop :=
  q.places = true ∧ ∃ s', q.perform s = .ok [h] s'

def occupied (s : Heap) (i : ℕ) : Bool := (s.slots[i]?).any (·.entry.isSome)

/-- How many objects of a slot some requests destroy. No request destroys an object
and places another. -/
def destructions (i : ℕ) : Heap → List Request → ℕ
  | _, [] => 0
  | s, q :: qs =>
    (if s.occupied i && !(s.serve q).occupied i then 1 else 0) + (s.serve q).destructions i qs

variable {s : Heap} {h : Handle} {q : Request} {qs : List Request} {i : ℕ} {slot : Slot}

theorem occupied_of_getElem? (hslot : s.slots[i]? = some slot) :
    s.occupied i = slot.entry.isSome := by
  simp [occupied, hslot]

theorem run_cons (s : Heap) (q : Request) (qs : List Request) :
    s.run (q :: qs) = (s.serve q).run qs := rfl

theorem run_append (s : Heap) (qs qs' : List Request) :
    s.run (qs ++ qs') = (s.run qs).run qs' :=
  List.foldl_append

theorem destructions_append (i : ℕ) (s : Heap) (qs qs' : List Request) :
    s.destructions i (qs ++ qs') = s.destructions i qs + (s.run qs).destructions i qs' := by
  induction qs generalizing s with
  | nil => simp [destructions, run]
  | cons q qs ih => rw [List.cons_append, destructions, destructions, ih, run_cons, Nat.add_assoc]

theorem serve_of_place {o : Object} (hq : q.perform = Request.place o) :
    s.serve q = (s.alloc o).2 := by
  simp only [serve, HeapM.after, hq, Request.place]

theorem Issues.exists_alloc (hq : s.Issues q h) :
    ∃ o, h = (s.alloc o).1 ∧ s.serve q = (s.alloc o).2 := by
  obtain ⟨hplaces, s', hok⟩ := hq
  obtain ⟨o, ho⟩ := Request.perform_of_places hplaces
  refine ⟨o, ?_, serve_of_place ho⟩
  obtain ⟨hh, -⟩ := by simpa [ho, Request.place] using hok
  exact hh.symm

theorem ages_serve (hq : q.places = false) : s.Ages (s.serve q) :=
  Request.placesNothing_perform hq s

theorem FreeListed.serve (hf : s.FreeListed) (q : Request) : (s.serve q).FreeListed := by
  cases hq : q.places with
  | true =>
      obtain ⟨o, ho⟩ := Request.perform_of_places hq
      rw [serve_of_place ho]
      exact hf.alloc o
  | false => exact (ages_serve hq).freeListed hf

theorem FreeListed.run (hf : s.FreeListed) (qs : List Request) : (s.run qs).FreeListed := by
  induction qs generalizing s with
  | nil => exact hf
  | cons q qs ih => exact ih (hf.serve q)

/-- Placing an object fills an empty slot and leaves the generations of all slots. -/
theorem generation_alloc (hf : s.FreeListed) (o : Object) (hslot : s.slots[i]? = some slot) :
    ∃ slot', (s.alloc o).2.slots[i]? = some slot' ∧ slot'.generation = slot.generation ∧
      (slot.entry.isSome = true → slot'.entry.isSome = true) := by
  obtain ⟨j, rest, g, -, hfree, halloc⟩ | ⟨-, halloc⟩ := alloc_cases hf o
  · rw [halloc]
    by_cases hij : j = i
    · subst hij
      obtain rfl := Option.some.inj (hfree.symm.trans hslot)
      have hlt := (List.getElem?_eq_some_iff.1 hslot).1
      exact ⟨_, List.getElem?_set_self hlt, rfl, fun _ => rfl⟩
    · exact ⟨slot, by rw [List.getElem?_set_ne hij, hslot], rfl, id⟩
  · have hlt := (List.getElem?_eq_some_iff.1 hslot).1
    rw [halloc]
    exact ⟨slot, by rw [List.getElem?_append_left hlt, hslot], rfl, id⟩

/-- One request: the generation of a slot counts whether its object is destroyed. -/
theorem generation_serve (hf : s.FreeListed) (q : Request) (hslot : s.slots[i]? = some slot) :
    ∃ slot', (s.serve q).slots[i]? = some slot' ∧
      slot'.generation = slot.generation +
        UInt32.ofNat (if s.occupied i && !(s.serve q).occupied i then 1 else 0) := by
  cases hq : q.places with
  | true =>
      obtain ⟨o, ho⟩ := Request.perform_of_places hq
      obtain ⟨slot', hslot', hgen, hfilled⟩ := generation_alloc hf o hslot
      rw [← serve_of_place ho] at hslot'
      refine ⟨slot', hslot', ?_⟩
      rw [occupied_of_getElem? hslot, occupied_of_getElem? hslot', hgen]
      cases hsome : slot.entry.isSome with
      | true => simp [hfilled hsome]
      | false => simp
  | false =>
      obtain ⟨slot', hslot', hages⟩ := (ages_serve hq).slots i slot hslot
      refine ⟨slot', hslot', ?_⟩
      rw [hages.generation_eq, occupied_of_getElem? hslot, occupied_of_getElem? hslot']
      split <;> rfl

/-- A run: the generation of a slot counts the destructions of its objects. -/
theorem generation_run (hf : s.FreeListed) (qs : List Request) (hslot : s.slots[i]? = some slot) :
    ∃ slot', (s.run qs).slots[i]? = some slot' ∧
      slot'.generation = slot.generation + UInt32.ofNat (s.destructions i qs) := by
  induction qs generalizing s slot with
  | nil => exact ⟨slot, hslot, by simp [destructions]⟩
  | cons q qs ih =>
      obtain ⟨slot', hslot', hgen⟩ := generation_serve hf q hslot
      obtain ⟨slot'', hslot'', hgen'⟩ := ih (hf.serve q) hslot'
      refine ⟨slot'', hslot'', ?_⟩
      rw [hgen', hgen, destructions, UInt32.ofNat_add, UInt32.add_assoc]

/-- A slot keeps its object as long as none of its objects is destroyed. -/
theorem occupied_run (hocc : s.occupied i = true) (hnone : s.destructions i qs = 0) :
    (s.run qs).occupied i = true := by
  induction qs generalizing s with
  | nil => exact hocc
  | cons q qs ih =>
      obtain ⟨hstep, hrest⟩ := Nat.add_eq_zero_iff.1 hnone
      refine ih ?_ hrest
      simpa [hocc] using hstep

/-! ## Stale handles -/

/-- Nothing is reached through the handle, nor through an observer made from it. -/
structure Dangles (s : Heap) (h : Handle) : Prop where
  not_alive : s.isAlive h = false
  retain_eq : retain h s = .error (.danglingHandle h.index) s
  release_eq : release h s = .error (.danglingHandle h.index) s
  object_eq : s.object h = .error (.danglingHandle h.index)
  field_eq : ∀ name, s.field h name = .error (.danglingHandle h.index)
  element_eq : ∀ index, s.element h index = .error (.danglingHandle h.index)
  upgrade_eq : ∀ (s₀ : Heap) (w : WeakHandle), s₀.downgrade h = .ok w → upgrade w s = .ok none s
  readWeak_eq : ∀ (s₀ : Heap) (w : WeakHandle), s₀.downgrade h = .ok w →
    readWeak w s = .ok .absent s

theorem target_of_downgrade {w : WeakHandle} (hw : s.downgrade h = .ok w) : w.target = h := by
  unfold downgrade at hw
  cases he : s.entry h with
  | error f => simp [he, Except.map] at hw
  | ok e =>
      obtain rfl := by simpa [he, Except.map] using hw
      rfl

theorem dangles_of_get? (he : s.get? h = none) : s.Dangles h := by
  have hdead : s.isAlive h = false := by simp [isAlive, he]
  have hentry : s.entry h = .error (.danglingHandle h.index) := by simp only [entry, he]
  have hupgrade : ∀ (s₀ : Heap) (w : WeakHandle), s₀.downgrade h = .ok w →
      upgrade w s = .ok none s := by
    intro s₀ w hw
    simp only [upgrade, target_of_downgrade hw, retain_of_dead hdead]
  refine ⟨hdead, retain_of_dead hdead, ?_, ?_, ?_, ?_, hupgrade, ?_⟩
  · simp only [release, releaseOne, he]
  · simp only [object, hentry, Except.map]
  · intro name
    simp only [field, hentry]
  · intro index
    simp only [element, items, hentry]
    rfl
  · intro s₀ w hw
    simp only [readWeak, hupgrade s₀ w hw]

theorem generation_ne (g : UInt32) {d : ℕ} (hpos : 0 < d) (hlt : d < 2 ^ 32) :
    g + UInt32.ofNat d ≠ g := by
  rw [ne_eq, UInt32.add_eq_left, UInt32.ofNat_eq_iff_mod_eq_toNat, Nat.mod_eq_of_lt hlt]
  exact Nat.pos_iff_ne_zero.1 hpos

theorem Issues.getElem?_serve (hf : s.FreeListed) (hq : s.Issues q h) :
    ∃ e, (s.serve q).slots[h.index]? = some ⟨h.generation, some e⟩ := by
  obtain ⟨o, rfl, hserve⟩ := hq.exists_alloc
  rw [hserve]
  exact ⟨_, exists_slot_of_get? (get?_alloc_self hf o)⟩

/-- A handle is issued under the generation of an empty slot. -/
theorem Issues.getElem?_before (hf : s.FreeListed) (hq : s.Issues q h)
    (hslot : s.slots[h.index]? = some slot) : slot = ⟨h.generation, none⟩ := by
  obtain ⟨o, rfl, -⟩ := hq.exists_alloc
  obtain ⟨i, rest, g, -, hfree, halloc⟩ | ⟨-, halloc⟩ := alloc_cases hf o
  · rw [halloc] at hslot ⊢
    exact Option.some.inj (hslot.symm.trans hfree)
  · simp [halloc] at hslot

/-- While its slot has seen fewer than `2 ^ 32` destructions, a handle is alive
exactly as long as it has seen none. -/
theorem isAlive_run_iff (hf : s.FreeListed) (hq : s.Issues q h)
    (hbound : (s.serve q).destructions h.index qs < 2 ^ 32) :
    (s.run (q :: qs)).isAlive h = true ↔ (s.serve q).destructions h.index qs = 0 := by
  obtain ⟨e, hslot⟩ := hq.getElem?_serve hf
  obtain ⟨⟨g, entry⟩, hslot', hgen⟩ := generation_run (hf.serve q) qs hslot
  have hocc : (s.serve q).occupied h.index = true := by simp [occupied, hslot]
  rw [run_cons, isAlive_iff]
  constructor
  · rintro ⟨e', he'⟩
    have hsame := Option.some.inj (hslot'.symm.trans (exists_slot_of_get? he'))
    by_contra hne
    refine generation_ne h.generation (Nat.pos_iff_ne_zero.2 hne) hbound ?_
    rw [← hgen, hsame]
  · intro hnone
    have hfilled := occupied_run hocc hnone
    rw [occupied_of_getElem? hslot'] at hfilled
    obtain ⟨e', rfl⟩ := Option.isSome_iff_exists.1 hfilled
    obtain rfl : g = h.generation := by simpa [hnone] using hgen
    exact ⟨e', get?_eq_some_iff.2 hslot'⟩

/-- The slot of an issued handle is empty when it is used again, so the handle
issued then is another one. -/
theorem Issues.ne_of_issues {q' : Request} {h' : Handle} (hf : s.FreeListed) (hq : s.Issues q h)
    (hbound : (s.serve q).destructions h.index qs < 2 ^ 32)
    (hq' : (s.run (q :: qs)).Issues q' h') : h' ≠ h := by
  rintro rfl
  have hf' := hf.run (q :: qs)
  obtain ⟨e, hslot⟩ := hq.getElem?_serve hf
  obtain ⟨slot, hslot', hgen⟩ := generation_run (hf.serve q) qs hslot
  have hocc : (s.serve q).occupied h'.index = true := by simp [occupied, hslot]
  obtain rfl := hq'.getElem?_before hf' hslot'
  by_cases hnone : (s.serve q).destructions h'.index qs = 0
  · have hfilled := occupied_run hocc hnone
    simp [occupied_of_getElem? hslot'] at hfilled
  · exact generation_ne _ (Nat.pos_iff_ne_zero.2 hnone) hbound hgen.symm

theorem freeListed_empty : empty.FreeListed := accounted_empty.freeListed

/-- Take any requests to a new heap, among them one that issues the handle `h`, and
any number of later ones during which the slot of `h` loses fewer than `2 ^ 32`
objects. The handle is alive until the slot first loses an object. Once this has
happened it dangles for good, whatever the slot holds; and no handle issued
afterwards is the same. -/
theorem stale_handles_dangle (before later : List Request) (q : Request) (h : Handle)
    (hq : (empty.run before).Issues q h)
    (hbound : ((empty.run before).serve q).destructions h.index later < 2 ^ 32) :
    ((empty.run (before ++ q :: later)).isAlive h = true ↔
      ((empty.run before).serve q).destructions h.index later = 0) ∧
    (∀ first, first <+: later → 0 < ((empty.run before).serve q).destructions h.index first →
      (empty.run (before ++ q :: later)).Dangles h) ∧
    ∀ q' h', (empty.run (before ++ q :: later)).Issues q' h' → h' ≠ h := by
  have hf := freeListed_empty.run before
  rw [run_append]
  have halive := isAlive_run_iff hf hq hbound
  refine ⟨halive, ?_, fun q' h' hq' => hq.ne_of_issues hf hbound hq'⟩
  rintro first ⟨rest, rfl⟩ hdestroyed
  rw [destructions_append] at halive
  apply dangles_of_get?
  rw [← Option.not_isSome_iff_eq_none]
  intro hsome
  have := halive.1 hsome
  omega

/-- The slot of the first handle is used again twice, the second time after a
cascade. -/
def reuse : List Request :=
  [.release ⟨0, 0⟩,
   .newArray [],
   .newInstance "Owner" [("items", .array ⟨0, 1⟩)],
   .release ⟨1, 0⟩,
   .retain ⟨0, 0⟩]

theorem stale_handles_dangle_reuse :
    (empty.serve (.newInstance "Node" [])).destructions 0 reuse = 2 ∧
      (empty.run (.newInstance "Node" [] :: reuse)).Dangles ⟨0, 0⟩ ∧
      ∀ q h, (empty.run (.newInstance "Node" [] :: reuse)).Issues q h → h ≠ ⟨0, 0⟩ := by
  have hissued : empty.Issues (.newInstance "Node" []) ⟨0, 0⟩ := ⟨rfl, _, rfl⟩
  have hcount : (empty.serve (.newInstance "Node" [])).destructions 0 reuse = 2 := by
    decide +kernel
  have hbound : (empty.serve (.newInstance "Node" [])).destructions 0 reuse < 2 ^ 32 := by
    rw [hcount]
    decide
  have hdestroyed : 0 < (empty.serve (.newInstance "Node" [])).destructions 0 reuse := by
    rw [hcount]
    decide
  obtain ⟨-, hdangles, hnew⟩ := stale_handles_dangle [] reuse _ ⟨0, 0⟩ hissued hbound
  exact ⟨hcount, hdangles reuse List.prefix_rfl hdestroyed, hnew⟩

end Heap

end ProgramSafety
