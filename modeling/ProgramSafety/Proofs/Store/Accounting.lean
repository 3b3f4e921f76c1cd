import ProgramSafety.Proofs.Store.Writes

/-!
# Reference-count accounting

`s.Accounted R` says that the counts of the heap `s` are what they are meant to
be when `R` collects the strong handles owned from outside: every strong handle,
outside or stored, is alive, and the count of a live object is the number of
these handles that are handles to it.

Work that has been begun is covered by the same predicate. Handles that were
taken out of a destroyed object and wait to be released belong to nobody, and
counting them as owned from outside makes every state in the middle of a cascade
accounted for. A release is therefore one induction along `Heap.releaseAll`.
-/

namespace ProgramSafety

namespace Heap

/-- The counts of the heap, with the strong handles in `R` owned from outside. -/
structure Accounted (s : Heap) (R : Multiset Handle) : Prop where
  owned_alive : ∀ h ∈ R, s.isAlive h
  stored_alive : ∀ h ∈ s.stored, s.isAlive h
  count_pos : ∀ h e, s.get? h = some e → 1 ≤ e.count
  count_eq : ∀ h e, s.get? h = some e → e.count = R.count h + s.stored.count h
  free_nodup : s.free.Nodup
  mem_free_iff : ∀ i, i ∈ s.free ↔ ∃ slot, s.slots[i]? = some slot ∧ slot.entry = none

/-- The count found through a handle, zero for one that dangles. -/
def owners (s : Heap) (h : Handle) : ℕ := (s.get? h).elim 0 Entry.count

variable {s s' : Heap} {R R' : Multiset Handle} {h : Handle} {e : Entry}

theorem owners_of_get? (he : s.get? h = some e) : s.owners h = e.count := by
  simp [owners, he]

theorem owners_of_get?_none (he : s.get? h = none) : s.owners h = 0 := by
  simp [owners, he]

namespace Accounted

theorem freeListed (ha : s.Accounted R) : s.FreeListed := ⟨ha.free_nodup, ha.mem_free_iff⟩

/-- The one equation behind the first four conditions: a handle that dangles is
counted nowhere. -/
theorem owners_eq (ha : s.Accounted R) (h : Handle) :
    s.owners h = R.count h + s.stored.count h := by
  cases he : s.get? h with
  | some e => rw [owners_of_get? he, ha.count_eq h e he]
  | none =>
      have hdead : s.isAlive h ≠ true := by simp [isAlive, he]
      have hR : R.count h = 0 :=
        Multiset.count_eq_zero.2 fun hmem => hdead (ha.owned_alive h hmem)
      have hstored : s.stored.count h = 0 :=
        Multiset.count_eq_zero.2 fun hmem => hdead (ha.stored_alive h hmem)
      rw [owners_of_get?_none he, hR, hstored]

theorem of_owners_eq (howners : ∀ h, s.owners h = R.count h + s.stored.count h)
    (hpos : ∀ h e, s.get? h = some e → 1 ≤ e.count) (hf : s.FreeListed) :
    s.Accounted R := by
  have halive : ∀ h, 0 < s.owners h → s.isAlive h := by
    intro h hlt
    cases he : s.get? h with
    | some e => simp [isAlive, he]
    | none =>
        rw [owners_of_get?_none he] at hlt
        exact absurd hlt (lt_irrefl 0)
  refine ⟨fun h hmem => halive h ?_, fun h hmem => halive h ?_, hpos, fun h e he => ?_,
    hf.nodup, hf.mem_iff⟩
  · have := Multiset.count_pos.2 hmem
    rw [howners]
    omega
  · have := Multiset.count_pos.2 hmem
    rw [howners]
    omega
  · rw [← howners, owners_of_get? he]

/-- What is owned outside, with some of its handles set apart. -/
theorem split {hs : List Handle} (ha : s.Accounted R) (hle : ↑hs ≤ R) :
    s.Accounted (↑hs + (R - ↑hs)) := by
  rwa [add_comm, Multiset.sub_add_cancel hle]

theorem exists_entry (ha : s.Accounted (h ::ₘ R)) : ∃ e, s.get? h = some e :=
  isAlive_iff.1 (ha.owned_alive h (Multiset.mem_cons_self h R))

end Accounted

theorem accounted_empty : empty.Accounted 0 := by
  apply Accounted.of_owners_eq
  · intro h
    rfl
  · intro h e he
    simp [get?, empty] at he
  · exact ⟨List.nodup_nil, fun i => by simp [empty]⟩

/-! ## Counting up and down -/

theorem owners_setEntry (he : s.get? h = some e) (e' : Entry) (h' : Handle) :
    (s.setEntry h e').owners h' = if h' = h then e'.count else s.owners h' := by
  by_cases hne : h' = h
  · subst hne
    simp [owners, get?_setEntry_self he]
  · simp [owners, get?_setEntry_of_ne he hne, hne]

theorem stored_setCount (he : s.get? h = some e) (n : ℕ) :
    (s.setEntry h { e with count := n }).stored = s.stored := by
  have hset : (s.setEntry h { e with count := n }).stored + ↑e.object.handles =
      s.stored + ↑e.object.handles := stored_setEntry he
  exact add_right_cancel hset

namespace Accounted

/-- A changed count is accounted for by as many more, or fewer, handles outside. -/
theorem setCount (ha : s.Accounted R) (he : s.get? h = some e) {n : ℕ} (hn : 1 ≤ n)
    (hR : ∀ h', R'.count h' + (if h' = h then e.count else 0) =
      R.count h' + if h' = h then n else 0) :
    (s.setEntry h { e with count := n }).Accounted R' := by
  apply of_owners_eq
  · intro h'
    have hbefore := ha.owners_eq h'
    have hchange := hR h'
    rw [owners_setEntry he, stored_setCount he]
    by_cases hne : h' = h
    · subst hne
      rw [owners_of_get? he] at hbefore
      simp only [if_true] at hchange ⊢
      omega
    · simp only [if_neg hne] at hchange ⊢
      omega
  · intro h' e' he'
    by_cases hne : h' = h
    · subst hne
      rw [get?_setEntry_self he] at he'
      obtain rfl := Option.some.inj he'
      exact hn
    · rw [get?_setEntry_of_ne he hne] at he'
      exact ha.count_pos h' e' he'
  · exact ha.freeListed.setEntry he

theorem retain (ha : s.Accounted R) {n : ℕ} (hr : Heap.retain h s = .ok n s') :
    s'.Accounted (h ::ₘ R) := by
  unfold Heap.retain at hr
  split at hr
  · next e he =>
    obtain ⟨-, rfl⟩ := by simpa using hr
    apply ha.setCount he (Nat.le_add_left 1 _)
    intro h'
    rw [Multiset.count_cons]
    by_cases hne : h' = h
    · simp only [if_pos hne]
      omega
    · simp only [if_neg hne]
  · simp at hr

/-- An object that loses its last owner leaves the heap: nothing else refers to
it, and what it owned is owned from outside. -/
theorem vacate (ha : s.Accounted (h ::ₘ R)) (he : s.get? h = some e) (hlast : e.count = 1) :
    (s.vacate h).Accounted (↑e.object.handles + R) := by
  have hcount := ha.count_eq h e he
  rw [Multiset.count_cons_self, hlast] at hcount
  apply of_owners_eq
  · intro h'
    have hbefore := ha.owners_eq h'
    have hstored : s.stored.count h' =
        (s.vacate h).stored.count h' + Multiset.count h' ↑e.object.handles := by
      rw [← stored_vacate he, Multiset.count_add]
    rw [Multiset.count_add]
    by_cases hne : h' = h
    · subst hne
      rw [owners_of_get?_none (get?_vacate_self he)]
      omega
    · rw [Multiset.count_cons_of_ne hne] at hbefore
      have hsame : (s.vacate h).owners h' = s.owners h' := by
        simp [owners, get?_vacate_of_ne he hne]
      omega
  · intro h' e' he'
    by_cases hne : h' = h
    · subst hne
      rw [get?_vacate_self he] at he'
      exact absurd he' (by simp)
    · rw [get?_vacate_of_ne he hne] at he'
      exact ha.count_pos h' e' he'
  · exact ha.freeListed.vacate he

/-- The object behind a handle may be exchanged when the handles outside make up
for the difference. -/
theorem setObject (ha : s.Accounted R) (he : s.get? h = some e) {o : Object}
    (hR : R' + ↑o.handles = R + ↑e.object.handles) :
    (s.setEntry h { e with object := o }).Accounted R' := by
  apply of_owners_eq
  · intro h'
    have hsame : (s.setEntry h { e with object := o }).owners h' = s.owners h' := by
      rw [owners_setEntry he]
      split
      · next heq => rw [heq, owners_of_get? he]
      · rfl
    have hstored : (s.setEntry h { e with object := o }).stored + ↑e.object.handles =
        s.stored + ↑o.handles := stored_setEntry he
    have hbefore := ha.owners_eq h'
    replace hstored := congrArg (Multiset.count h') hstored
    replace hR := congrArg (Multiset.count h') hR
    simp only [Multiset.count_add] at hstored hR
    omega
  · intro h' e' he'
    by_cases hne : h' = h
    · subst hne
      rw [get?_setEntry_self he] at he'
      obtain rfl := Option.some.inj he'
      exact ha.count_pos h' e he
    · rw [get?_setEntry_of_ne he hne] at he'
      exact ha.count_pos h' e' he'
  · exact ha.freeListed.setEntry he

/-- Placing an object moves its handles inside and adds the new one outside. -/
theorem alloc {o : Object} (ha : s.Accounted (↑o.handles + R)) :
    (s.alloc o).2.Accounted ((s.alloc o).1 ::ₘ R) := by
  have hf := ha.freeListed
  apply of_owners_eq
  · intro h
    have hbefore := ha.owners_eq h
    rw [Multiset.count_add] at hbefore
    rw [stored_alloc hf, Multiset.count_add]
    by_cases hne : h = (s.alloc o).1
    · rw [owners_of_get?_none (hne ▸ get?_alloc_before hf o)] at hbefore
      rw [hne, Multiset.count_cons_self, ← hne, owners, hne, get?_alloc_self hf, ← hne]
      simp only [Option.elim_some]
      omega
    · rw [Multiset.count_cons_of_ne hne]
      have hsame : (s.alloc o).2.owners h = s.owners h := by
        simp [owners, get?_alloc_of_ne hf o hne]
      omega
  · intro h e he
    by_cases hne : h = (s.alloc o).1
    · rw [hne, get?_alloc_self hf] at he
      obtain rfl := Option.some.inj he
      exact le_rfl
    · rw [get?_alloc_of_ne hf o hne] at he
      exact ha.count_pos h e he
  · exact hf.alloc o

/-! ## The release cascade -/

/-- One step of a release succeeds on an owned handle, and what it sets free takes
the handle's place outside. -/
theorem releaseOne (ha : s.Accounted (h ::ₘ R)) :
    ∃ r hs s', Heap.releaseOne h s = .ok (r, hs) s' ∧ s'.Accounted (↑hs + R) := by
  obtain ⟨e, he⟩ := ha.exists_entry
  have hpos := ha.count_pos h e he
  by_cases hlast : 1 < e.count
  · refine ⟨_, _, _, by simp only [Heap.releaseOne, he, if_pos hlast]; rfl, ?_⟩
    rw [Multiset.coe_nil, zero_add]
    apply ha.setCount he (by omega)
    intro h'
    rw [Multiset.count_cons]
    by_cases hne : h' = h
    · simp only [if_pos hne]
      omega
    · simp only [if_neg hne]
  · exact ⟨_, _, _, by simp only [Heap.releaseOne, he, if_neg hlast]; rfl,
      ha.vacate he (by omega)⟩

theorem uncons {hs : List Handle} (ha : s.Accounted (↑(h :: hs) + R)) :
    s.Accounted (h ::ₘ (↑hs + R)) := by
  rwa [← Multiset.cons_coe, Multiset.cons_add] at ha

theorem releaseAll {stack : List Handle} (ha : s.Accounted (↑stack + R)) :
    ∃ s', Heap.releaseAll stack s = .ok () s' ∧ s'.Accounted R := by
  fun_induction Heap.releaseAll stack s with
  | case1 s => exact ⟨s, rfl, by simpa using ha⟩
  | case2 s h rest f s' hone =>
      obtain ⟨r, hs, s₁, hok, -⟩ := ha.uncons.releaseOne
      rw [hone] at hok
      cases hok
  | case3 s h rest r hs s₁ hone ih =>
      obtain ⟨r', hs', s₁', hok, ha₁⟩ := ha.uncons.releaseOne
      rw [hone] at hok
      cases hok
      apply ih
      rwa [← Multiset.coe_add, Multiset.coe_reverse, add_assoc]

theorem release (ha : s.Accounted (h ::ₘ R)) :
    ∃ r s', Heap.release h s = .ok r s' ∧ s'.Accounted R := by
  obtain ⟨r, hs, s₁, hone, ha₁⟩ := ha.releaseOne
  rw [← Multiset.coe_reverse] at ha₁
  obtain ⟨s', hall, ha'⟩ := ha₁.releaseAll
  exact ⟨r, s', by simp only [Heap.release, hone, hall], ha'⟩

theorem releaseEach {hs : List Handle} (ha : s.Accounted (↑hs + R)) :
    ∃ s', Heap.releaseEach hs s = .ok () s' ∧ s'.Accounted R := by
  induction hs generalizing s with
  | nil => exact ⟨s, rfl, by simpa using ha⟩
  | cons h hs ih =>
      obtain ⟨r, s₁, hrel, ha₁⟩ := ha.uncons.release
      obtain ⟨s', heach, ha'⟩ := ih ha₁
      exact ⟨s', by simp only [Heap.releaseEach, hrel, heach], ha'⟩

theorem drop {v : Value} (ha : s.Accounted (↑v.handles + R)) :
    ∃ s', Heap.drop v s = .ok () s' ∧ s'.Accounted R :=
  ha.releaseEach

end Accounted

/-! ## Copies and observers -/

theorem retain_of_isAlive (halive : s.isAlive h) : ∃ n s', retain h s = .ok n s' := by
  obtain ⟨e, he⟩ := isAlive_iff.1 halive
  exact ⟨_, _, by simp only [retain, he]; rfl⟩

theorem retain_of_dead (hdead : s.isAlive h = false) :
    retain h s = .error (.danglingHandle h.index) s := by
  have he : s.get? h = none := by simpa [isAlive] using hdead
  simp only [retain, he]

theorem isAlive_retain {n : ℕ} (hr : retain h s = .ok n s') (h' : Handle) :
    s'.isAlive h' = s.isAlive h' := by
  unfold retain at hr
  split at hr
  · next e he =>
    obtain ⟨-, rfl⟩ := by simpa using hr
    by_cases hne : h' = h
    · subst hne
      simp [isAlive, get?_setEntry_self he, he]
    · simp [isAlive, get?_setEntry_of_ne he hne]
  · simp at hr

/-- Retaining live handles succeeds, as none of them dies on the way. -/
theorem retainEach_of_isAlive {hs : List Handle} (halive : ∀ x ∈ hs, s.isAlive x = true) :
    ∃ s', retainEach hs s = .ok () s' := by
  induction hs generalizing s with
  | nil => exact ⟨s, rfl⟩
  | cons h hs ih =>
      obtain ⟨n, s₁, hr⟩ := retain_of_isAlive (halive h List.mem_cons_self)
      have hrest : ∀ x ∈ hs, s₁.isAlive x = true := by
        intro x hx
        rw [isAlive_retain hr]
        exact halive x (List.mem_cons_of_mem h hx)
      obtain ⟨s', heach⟩ := ih hrest
      exact ⟨s', by simp only [retainEach, hr, heach]⟩

/-- A copy retains the handles of the value if all of them are alive, and names one that is
dead otherwise. -/
theorem copy_cases (v : Value) (s : Heap) :
    ((∀ x ∈ v.handles, s.isAlive x = true) ∧
        ∃ s', retainEach v.handles s = .ok () s' ∧ copy v s = .ok v s') ∨
      ∃ x ∈ v.handles, s.isAlive x = false ∧ copy v s = .error (.danglingHandle x.index) s := by
  cases hfind : v.handles.find? (!s.isAlive ·) with
  | none =>
      have halive : ∀ x ∈ v.handles, s.isAlive x = true := by
        intro x hx
        simpa using List.find?_eq_none.1 hfind x hx
      obtain ⟨s', heach⟩ := retainEach_of_isAlive halive
      exact Or.inl ⟨halive, s', heach, by simp only [copy, hfind, heach]⟩
  | some x =>
      have hdead : s.isAlive x = false := by simpa using List.find?_some hfind
      exact Or.inr ⟨x, List.mem_of_find?_eq_some hfind, hdead, by simp only [copy, hfind]⟩

/-- An upgrade is a retain whose fault is read as an absent handle. -/
theorem upgrade_cases (w : WeakHandle) (s : Heap) :
    (∃ n s', retain w.target s = .ok n s' ∧ upgrade w s = .ok (some w.target) s') ∨
      upgrade w s = .ok none s := by
  cases halive : s.isAlive w.target with
  | true =>
      obtain ⟨n, s', hr⟩ := retain_of_isAlive halive
      exact Or.inl ⟨n, s', hr, by simp only [upgrade, hr]⟩
  | false => exact Or.inr (by simp only [upgrade, retain_of_dead halive])

namespace Accounted

theorem retainEach {hs : List Handle} (ha : s.Accounted R)
    (heach : Heap.retainEach hs s = .ok () s') : s'.Accounted (↑hs + R) := by
  induction hs generalizing s R with
  | nil =>
      cases heach
      simpa using ha
  | cons h hs ih =>
      cases hr : Heap.retain h s with
      | error f s₁ => simp [Heap.retainEach, hr] at heach
      | ok n s₁ =>
          simp only [Heap.retainEach, hr] at heach
          have ha' := ih (ha.retain hr) heach
          rwa [← Multiset.cons_coe, Multiset.cons_add, ← Multiset.add_cons]

theorem copy (ha : s.Accounted R) (v : Value) :
    (∃ s', Heap.copy v s = .ok v s' ∧ s'.Accounted (↑v.handles + R)) ∨
      ∃ f, Heap.copy v s = .error f s := by
  obtain ⟨-, s', heach, hcopy⟩ | ⟨x, -, -, hcopy⟩ := copy_cases v s
  · exact Or.inl ⟨s', hcopy, ha.retainEach heach⟩
  · exact Or.inr ⟨_, hcopy⟩

theorem upgrade (ha : s.Accounted R) (w : WeakHandle) :
    (∃ s', Heap.upgrade w s = .ok (some w.target) s' ∧ s'.Accounted (w.target ::ₘ R)) ∨
      Heap.upgrade w s = .ok none s := by
  obtain ⟨n, s', hr, hup⟩ | hup := upgrade_cases w s
  · exact Or.inl ⟨s', hup, ha.retain hr⟩
  · exact Or.inr hup

/-- What an observer reads owns the handle that reading it retained. -/
theorem readWeak (ha : s.Accounted R) (w : WeakHandle) :
    ∃ v s', Heap.readWeak w s = .ok v s' ∧ s'.Accounted (↑v.handles + R) := by
  obtain ⟨s', hup, ha'⟩ | hup := ha.upgrade w
  · refine ⟨.present (.object w.target), s', by simp only [Heap.readWeak, hup], ?_⟩
    simpa [Value.handles] using ha'
  · exact ⟨.absent, s, by simp only [Heap.readWeak, hup], by simpa [Value.handles] using ha⟩

end Accounted

/-! ## Writing into objects -/

namespace Accounted

/-- A value that is written into an object changes places with the one that was there. -/
theorem setExchanged {v old : Value} {o : Object} (ha : s.Accounted (↑v.handles + R))
    (he : s.get? h = some e)
    (ho : (↑old.handles + ↑o.handles : Multiset Handle) = ↑v.handles + ↑e.object.handles) :
    (s.setEntry h { e with object := o }).Accounted (↑old.handles + R) := by
  apply ha.setObject he
  rw [add_right_comm, ho, add_right_comm]

/-- An overwritten value is dropped after the new one has taken its place, which
may destroy the object just written to. -/
theorem exchange {v old : Value} {o : Object} (ha : s.Accounted (↑v.handles + R))
    (he : s.get? h = some e)
    (ho : (↑old.handles + ↑o.handles : Multiset Handle) = ↑v.handles + ↑e.object.handles) :
    ∃ s', Heap.drop old (s.setEntry h { e with object := o }) = .ok () s' ∧ s'.Accounted R :=
  (ha.setExchanged he ho).drop

theorem setField {v : Value} (ha : s.Accounted (↑v.handles + R)) (h : Handle) (name : String) :
    (∃ s', Heap.setField h name v s = .ok () s' ∧ s'.Accounted R) ∨
      ∃ f, s.FieldRefused h name f ∧ Heap.setField h name v s = .error f s := by
  obtain ⟨f, hf⟩ | ⟨n, c, fields, old, fields', he, hrep, heq⟩ := setField_cases h name v s
  · exact Or.inr ⟨f, hf, setField_of_refused hf v⟩
  · rw [heq]
    exact Or.inl (ha.exchange he (handles_replaceField hrep c))

theorem setElement {v : Value} (ha : s.Accounted (↑v.handles + R)) (h : Handle) (index : Int) :
    (∃ s', Heap.setElement h index v s = .ok () s' ∧ s'.Accounted R) ∨
      ∃ f, s.ItemRefused h index f ∧ Heap.setElement h index v s = .error f s := by
  obtain ⟨f, hf⟩ | ⟨n, items, old, he, -, hold, heq⟩ := setElement_cases h index v s
  · exact Or.inr ⟨f, hf, setElement_of_refused hf v⟩
  · rw [heq]
    exact Or.inl (ha.exchange he (handles_array_set hold v))

theorem push {v : Value} (ha : s.Accounted (↑v.handles + R)) (h : Handle) :
    (∃ s', Heap.push h v s = .ok () s' ∧ s'.Accounted R) ∨
      ∃ f, Heap.push h v s = .error f s := by
  obtain hf | ⟨n, items, he, heq⟩ := push_cases h v s
  · exact Or.inr hf
  · refine Or.inl ⟨_, heq, ha.setObject he ?_⟩
    rw [handles_array_append, add_left_comm, add_assoc]

end Accounted

end Heap

end ProgramSafety
