import ProgramSafety.Proofs.Store.Accounting

/-!
# Operations that fail

An operation that fails has not begun: it looks at the heap first and refuses before it
writes anything. For a copy this means that all handles of the value are looked at
before the first of them is retained. The overwrites are the exception, as they write
the new value and release the old one afterwards, and that release may fail. What they
refuse is listed by `Heap.FieldRefused` and `Heap.ItemRefused`; in a heap whose counts
are right they fail for no other reason, since the old value is owned by the object
written to.
-/

namespace ProgramSafety

def HeapM.query {α : Type} (q : Heap → Except Fault α) : HeapM α := fun s =>
  match q s with
  | .ok a => .ok a s
  | .error f => .error f s

/-- Whenever the computation faults, the heap is as it was. -/
def HeapM.FaultsCleanly {α : Type} (m : HeapM α) : Prop :=
  ∀ (s : Heap) (f : Fault) (s' : Heap), m s = .error f s' → s' = s

namespace Heap

variable {s s' : Heap} {h : Handle} {f : Fault} {v : Value} {R : Multiset Handle}

/-! ## Faults that change nothing -/

theorem faultsCleanly_query {α : Type} (q : Heap → Except Fault α) :
    HeapM.FaultsCleanly (HeapM.query q) := by
  intro s f s' hq
  unfold HeapM.query at hq
  split at hq <;> cases hq
  rfl

theorem faultsCleanly_retain (h : Handle) : HeapM.FaultsCleanly (retain h) := by
  intro s f s' hr
  cases halive : s.isAlive h with
  | true =>
      obtain ⟨n, s₁, hok⟩ := retain_of_isAlive halive
      cases hok.symm.trans hr
  | false =>
      cases (retain_of_dead halive).symm.trans hr
      rfl

theorem faultsCleanly_copy (v : Value) : HeapM.FaultsCleanly (copy v) := by
  intro s f s' hcopy
  obtain ⟨-, s₁, -, hok⟩ | ⟨x, -, -, herror⟩ := copy_cases v s
  · cases hok.symm.trans hcopy
  · cases herror.symm.trans hcopy
    rfl

theorem copy_fails_iff (v : Value) (s : Heap) :
    (∃ f s', copy v s = .error f s') ↔ ∃ x ∈ v.handles, s.isAlive x = false := by
  obtain ⟨halive, s₁, -, hok⟩ | ⟨x, hx, hdead, herror⟩ := copy_cases v s
  · refine iff_of_false ?_ ?_
    · rintro ⟨f, s', herror⟩
      cases hok.symm.trans herror
    · rintro ⟨x, hx, hdead⟩
      exact Bool.noConfusion ((halive x hx).symm.trans hdead)
  · exact iff_of_true ⟨_, _, herror⟩ ⟨x, hx, hdead⟩

theorem faultsCleanly_push (h : Handle) (v : Value) : HeapM.FaultsCleanly (push h v) := by
  intro s f s' hpush
  obtain ⟨f', hf⟩ | ⟨n, items, he, heq⟩ := push_cases h v s
  · cases hf.symm.trans hpush
    rfl
  · cases heq.symm.trans hpush

/-! ## Overwrites -/

theorem Accounted.setField_error (ha : s.Accounted R) (hv : ↑v.handles ≤ R) {name : String}
    (herror : Heap.setField h name v s = .error f s') : s' = s ∧ s.FieldRefused h name f := by
  obtain ⟨s₁, hok, -⟩ | ⟨f', hf, herror'⟩ := (ha.split hv).setField h name
  · cases hok.symm.trans herror
  · cases herror'.symm.trans herror
    exact ⟨rfl, hf⟩

theorem Accounted.setElement_error (ha : s.Accounted R) (hv : ↑v.handles ≤ R) {index : Int}
    (herror : Heap.setElement h index v s = .error f s') :
    s' = s ∧ s.ItemRefused h index f := by
  obtain ⟨s₁, hok, -⟩ | ⟨f', hf, herror'⟩ := (ha.split hv).setElement h index
  · cases hok.symm.trans herror
  · cases herror'.symm.trans herror
    exact ⟨rfl, hf⟩

/-- Failing leaves the heap as it was: for handles, copies and appended items on every
heap, and for overwrites that are refused. A copy fails exactly if a handle of the value
is dead. With right counts and an owned value overwrites fail only by being refused. -/
theorem failures_leave_heap (s : Heap) :
    (∀ h f s', retain h s = .error f s' → s' = s) ∧
    (∀ h f s', HeapM.query (downgrade · h) s = .error f s' → s' = s) ∧
    (∀ w, (∃ s', upgrade w s = .ok (some w.target) s') ∨ upgrade w s = .ok none s) ∧
    (∀ v f s', copy v s = .error f s' → s' = s) ∧
    (∀ h v f s', push h v s = .error f s' → s' = s) ∧
    (∀ h name v f, s.FieldRefused h name f → setField h name v s = .error f s) ∧
    (∀ h index v f, s.ItemRefused h index f → setElement h index v s = .error f s) ∧
    (∀ v, (∃ f s', copy v s = .error f s') ↔ ∃ x ∈ v.handles, s.isAlive x = false) ∧
    ∀ (R : Multiset Handle) (v : Value), s.Accounted R → ↑v.handles ≤ R →
      (∀ h name f s', setField h name v s = .error f s' → s' = s ∧ s.FieldRefused h name f) ∧
      ∀ h index f s', setElement h index v s = .error f s' → s' = s ∧ s.ItemRefused h index f := by
  refine ⟨fun h => faultsCleanly_retain h s, fun h => faultsCleanly_query _ s,
    fun w => ?_, fun v => faultsCleanly_copy v s,
    fun h v => faultsCleanly_push h v s, fun h name v f hf => setField_of_refused hf v,
    fun h index v f hf => setElement_of_refused hf v, fun v => copy_fails_iff v s, ?_⟩
  · obtain ⟨n, s', -, hup⟩ | hup := upgrade_cases w s
    · exact Or.inl ⟨s', hup⟩
    · exact Or.inr hup
  · intro R v ha hv
    exact ⟨fun h name f s' => ha.setField_error hv, fun h index f s' => ha.setElement_error hv⟩

def oneNode : Heap := (empty.alloc (.classInstance "Node" [("next", .absent)])).2

/-- The first handle of the pair is alive and the second is not, so nothing is copied; and
a field that the object lacks is refused for a value that is owned. -/
theorem failures_leave_heap_oneNode :
    (∃ f, copy (.struct "Pair" [("a", .object ⟨0, 0⟩), ("b", .object ⟨0, 1⟩)]) oneNode =
      .error f oneNode) ∧
    oneNode.Accounted {⟨0, 0⟩} ∧
    ∃ f, setField ⟨0, 0⟩ "prev" (.object ⟨0, 0⟩) oneNode = .error f oneNode ∧
      oneNode.FieldRefused ⟨0, 0⟩ "prev" f := by
  have ha : oneNode.Accounted {⟨0, 0⟩} := Accounted.alloc (R := 0) accounted_empty
  obtain ⟨-, -, -, hcopy, -, -, -, hfails, hwrites⟩ := failures_leave_heap oneNode
  obtain ⟨hfield, -⟩ := hwrites {⟨0, 0⟩} (.object ⟨0, 0⟩) ha (by decide)
  have hprev : setField ⟨0, 0⟩ "prev" (.object ⟨0, 0⟩) oneNode =
      .error (.unknownField "prev") oneNode := rfl
  obtain ⟨f, s', herror⟩ :=
    (hfails (.struct "Pair" [("a", .object ⟨0, 0⟩), ("b", .object ⟨0, 1⟩)])).2
      ⟨⟨0, 1⟩, by simp [Value.handles, Value.fieldHandles], rfl⟩
  obtain rfl := hcopy _ f s' herror
  exact ⟨⟨f, herror⟩, ha, _, hprev, (hfield _ _ _ _ hprev).2⟩

end Heap

end ProgramSafety
