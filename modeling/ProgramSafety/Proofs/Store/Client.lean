import ProgramSafety.Proofs.Store.Accounting

/-!
# Clients of the heap

A client keeps a multiset of the strong handles it owns. A request hands some of
them over to the heap, `Request.given`, and its success brings the client others;
a request that faults brings nothing and takes nothing. The client is disciplined
when it only ever hands over what it owns. Nothing else is asked of it: it may
retain, read and write through any handle, stale ones included, and may build
cycles.

The main result, `Client.accounted_run`, is that the heap of a disciplined client
is accounted for after any number of requests. Counts and slot numbers are
unbounded, so there is no condition on the length of the run.
-/

namespace ProgramSafety

inductive Request where
  | newInstance (name : String) (fields : List (String × Value))
  | newArray (items : List Value)
  | retain (h : Handle)
  | release (h : Handle)
  | upgrade (w : WeakHandle)
  | readWeak (w : WeakHandle)
  | copy (v : Value)
  | drop (v : Value)
  | setField (h : Handle) (name : String) (v : Value)
  | setElement (h : Handle) (index : Int) (v : Value)
  | push (h : Handle) (v : Value)

namespace Request

/-- The strong handles that a request hands over to the heap. -/
def given : Request → List Handle
  | newInstance name fields => (Object.classInstance name fields).handles
  | newArray items => (Object.array items).handles
  | release h => [h]
  | drop v | setField _ _ v | setElement _ _ v | push _ v => v.handles
  | retain _ | upgrade _ | readWeak _ | copy _ => []

def givesUp : Request → Bool
  | release _ | drop _ => true
  | _ => false

def place (o : Object) : HeapM (List Handle) := fun s => .ok [(s.alloc o).1] (s.alloc o).2

/-- Carries out a request. The strong handles that the client comes to own are
returned. -/
def perform : Request → HeapM (List Handle)
  | newInstance name fields => place (.classInstance name fields)
  | newArray items => place (.array items)
  | retain h => (fun _ => [h]) <$> Heap.retain h
  | release h => (fun _ => []) <$> Heap.release h
  | upgrade w => Option.toList <$> Heap.upgrade w
  | readWeak w => Value.handles <$> Heap.readWeak w
  | copy v => Value.handles <$> Heap.copy v
  | drop v => (fun _ => []) <$> Heap.drop v
  | setField h name v => (fun _ => []) <$> Heap.setField h name v
  | setElement h index v => (fun _ => []) <$> Heap.setElement h index v
  | push h v => (fun _ => []) <$> Heap.push h v

end Request

/-- A heap with the strong handles that its client owns. -/
structure Client where
  heap : Heap
  owned : Multiset Handle

namespace Client

def start : Client := ⟨.empty, 0⟩

def Accounted (c : Client) : Prop := c.heap.Accounted c.owned

def Permits (c : Client) (q : Request) : Prop := ↑q.given ≤ c.owned

instance (c : Client) (q : Request) : Decidable (c.Permits q) :=
  inferInstanceAs (Decidable ((↑q.given : Multiset Handle) ≤ c.owned))

def serve (c : Client) (q : Request) : Client :=
  match q.perform c.heap with
  | .ok gained s => ⟨s, ↑gained + (c.owned - ↑q.given)⟩
  | .error _ s => { c with heap := s }

def run (c : Client) (qs : List Request) : Client := qs.foldl serve c

/-- Every request of the list is permitted when its turn comes. -/
def Disciplined : Client → List Request → Prop
  | _, [] => True
  | c, q :: qs => c.Permits q ∧ (c.serve q).Disciplined qs

instance decidableDisciplined : (c : Client) → (qs : List Request) → Decidable (c.Disciplined qs)
  | _, [] => .isTrue trivial
  | c, q :: qs =>
    have := decidableDisciplined (c.serve q) qs
    inferInstanceAs (Decidable (c.Permits q ∧ (c.serve q).Disciplined qs))

end Client

section Perform

variable {α β : Type} {s s' : Heap} {R : Multiset Handle}

theorem HeapM.map_ok {m : HeapM α} {a : α} (f : α → β) (hm : m s = .ok a s') :
    (f <$> m) s = .ok (f a) s' := by
  simp [Functor.map, EStateM.map, hm]

theorem HeapM.map_error {m : HeapM α} {x : Fault} (f : α → β) (hm : m s = .error x s') :
    (f <$> m) s = .error x s' := by
  simp [Functor.map, EStateM.map, hm]

namespace Request

/-- A write either succeeds, its value's handles having left the client, or
changes nothing. -/
theorem accounted_write {m : HeapM Unit}
    (hm : (∃ s', m s = .ok () s' ∧ s'.Accounted R) ∨ ∃ f, m s = .error f s) :
    (∃ gained s', ((fun _ => ([] : List Handle)) <$> m) s = .ok gained s' ∧
        s'.Accounted (↑gained + R)) ∨
      ∃ f, ((fun _ => ([] : List Handle)) <$> m) s = .error f s := by
  obtain ⟨s', hok, ha⟩ | ⟨f, herr⟩ := hm
  · exact Or.inl ⟨_, s', HeapM.map_ok _ hok, by simpa using ha⟩
  · exact Or.inr ⟨f, HeapM.map_error _ herr⟩

/-- One request: it is carried out and the handles gained take the place of those
handed over, or it faults and changes nothing. Giving up handles never faults. -/
theorem accounted_perform (q : Request) (ha : s.Accounted (↑q.given + R)) :
    (∃ gained s', q.perform s = .ok gained s' ∧ s'.Accounted (↑gained + R)) ∨
      q.givesUp = false ∧ ∃ f, q.perform s = .error f s := by
  cases q with
  | newInstance name fields => exact Or.inl ⟨_, _, rfl, ha.alloc⟩
  | newArray items => exact Or.inl ⟨_, _, rfl, ha.alloc⟩
  | retain h =>
      simp only [given, Multiset.coe_nil, zero_add] at ha
      cases halive : s.isAlive h with
      | true =>
          obtain ⟨n, s', hr⟩ := Heap.retain_of_isAlive halive
          exact Or.inl ⟨_, s', HeapM.map_ok _ hr, ha.retain hr⟩
      | false => exact Or.inr ⟨rfl, _, HeapM.map_error _ (Heap.retain_of_dead halive)⟩
  | release h =>
      obtain ⟨r, s', hr, ha'⟩ := Heap.Accounted.release (h := h) ha
      exact Or.inl ⟨_, s', HeapM.map_ok _ hr, by simpa using ha'⟩
  | upgrade w =>
      simp only [given, Multiset.coe_nil, zero_add] at ha
      obtain ⟨s', hup, ha'⟩ | hup := ha.upgrade w
      · exact Or.inl ⟨_, s', HeapM.map_ok _ hup, ha'⟩
      · exact Or.inl ⟨_, s, HeapM.map_ok _ hup, by simpa using ha⟩
  | readWeak w =>
      simp only [given, Multiset.coe_nil, zero_add] at ha
      obtain ⟨v, s', hread, ha'⟩ := ha.readWeak w
      exact Or.inl ⟨_, s', HeapM.map_ok _ hread, ha'⟩
  | copy v =>
      simp only [given, Multiset.coe_nil, zero_add] at ha
      obtain ⟨s', hcopy, ha'⟩ | ⟨f, hcopy⟩ := ha.copy v
      · exact Or.inl ⟨_, s', HeapM.map_ok _ hcopy, ha'⟩
      · exact Or.inr ⟨rfl, f, HeapM.map_error _ hcopy⟩
  | drop v =>
      obtain ⟨s', hdrop, ha'⟩ := Heap.Accounted.drop ha
      exact Or.inl ⟨_, s', HeapM.map_ok _ hdrop, by simpa using ha'⟩
  | setField h name v =>
      have hwrite := (ha.setField h name).imp_right (Exists.imp fun _ => And.right)
      exact (accounted_write hwrite).imp_right fun hf => ⟨rfl, hf⟩
  | setElement h index v =>
      have hwrite := (ha.setElement h index).imp_right (Exists.imp fun _ => And.right)
      exact (accounted_write hwrite).imp_right fun hf => ⟨rfl, hf⟩
  | push h v => exact (accounted_write (ha.push h)).imp_right fun hf => ⟨rfl, hf⟩

end Request

end Perform

namespace Client

variable {c : Client} {q : Request} {qs : List Request}

/-- What a permitted request hands over, set apart from the rest. -/
theorem Accounted.split (ha : c.Accounted) (hq : c.Permits q) :
    c.heap.Accounted (↑q.given + (c.owned - ↑q.given)) :=
  Heap.Accounted.split ha hq

theorem Accounted.serve (ha : c.Accounted) (hq : c.Permits q) : (c.serve q).Accounted := by
  obtain ⟨gained, s, hok, ha'⟩ | ⟨-, f, herr⟩ := q.accounted_perform (ha.split hq)
  · have hserve : c.serve q = ⟨s, ↑gained + (c.owned - ↑q.given)⟩ := by
      simp only [Client.serve, hok]
    rw [hserve]
    exact ha'
  · have hserve : c.serve q = c := by
      simp only [Client.serve, herr]
    rw [hserve]
    exact ha

theorem Disciplined.take (hqs : c.Disciplined qs) (n : ℕ) : c.Disciplined (qs.take n) := by
  induction qs generalizing c n with
  | nil => simpa using hqs
  | cons q qs ih =>
      cases n with
      | zero => trivial
      | succ n => exact ⟨hqs.1, ih hqs.2 n⟩

theorem Accounted.run (ha : c.Accounted) (hqs : c.Disciplined qs) : (c.run qs).Accounted := by
  induction qs generalizing c with
  | nil => exact ha
  | cons q qs ih => exact ih (ha.serve hqs.1) hqs.2

theorem Disciplined.permits {n : ℕ} (hqs : c.Disciplined qs) (hq : qs[n]? = some q) :
    (c.run (qs.take n)).Permits q := by
  induction qs generalizing c n with
  | nil => simp at hq
  | cons q' qs ih =>
      cases n with
      | zero =>
          obtain rfl : q' = q := by simpa using hq
          exact hqs.1
      | succ n => exact ih hqs.2 (by simpa using hq)

/-- Whatever a disciplined client asks for, from the empty heap on, its heap is
accounted for after every request; its next request is carried out or changes
nothing, and is carried out when it only gives handles up. -/
theorem accounted_run (qs : List Request) (hqs : start.Disciplined qs) (n : ℕ) :
    (start.run (qs.take n)).Accounted ∧
      ∀ q, qs[n]? = some q →
        (∃ gained s, q.perform (start.run (qs.take n)).heap = .ok gained s) ∨
          q.givesUp = false ∧
            ∃ f, q.perform (start.run (qs.take n)).heap = .error f (start.run (qs.take n)).heap := by
  have hrun : (start.run (qs.take n)).Accounted :=
    Accounted.run Heap.accounted_empty (hqs.take n)
  refine ⟨hrun, fun q hq => ?_⟩
  obtain ⟨gained, s, hok, -⟩ | hfault := q.accounted_perform (hrun.split (hqs.permits hq))
  · exact Or.inl ⟨gained, s, hok⟩
  · exact Or.inr hfault

/-- Two objects come to own each other, an overwrite cuts the cycle, the last
release destroys both, and a slot is used again. -/
def cutCycle : List Request :=
  [.newInstance "Node" [("next", .absent)],
   .newArray [.object ⟨0, 0⟩],
   .upgrade ⟨⟨0, 0⟩⟩,
   .setField ⟨0, 0⟩ "next" (.present (.array ⟨1, 0⟩)),
   .setElement ⟨1, 0⟩ 0 .absent,
   .release ⟨0, 0⟩,
   .newArray []]

theorem accounted_run_cutCycle :
    start.Disciplined cutCycle ∧ ∀ n, (start.run (cutCycle.take n)).Accounted := by
  have hqs : start.Disciplined cutCycle := by decide +kernel
  exact ⟨hqs, fun n => (accounted_run cutCycle hqs n).1⟩

end Client

end ProgramSafety
