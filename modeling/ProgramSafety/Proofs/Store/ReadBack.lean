import ProgramSafety.Proofs.Store.Cascade

/-!
# Reading after a write

An overwrite puts the new value in place and then drops the old one. The drop may destroy
objects all over the heap, and it may lead back to the object written to. What is read
afterwards through the handle `h` is nevertheless what was written, if the client owned
`h` and the new value before.

The object of `h` survives because it is `Heap.Anchored`: a handle to it is outside and is
not being released, or the object itself holds one. The second case arises when the
client's last handle is part of the value written. Either way an owner is left whenever a
handle to the object is released. All other objects are destroyed or keep their contents
(`Heap.KeepsContents`).
-/

namespace ProgramSafety

theorem Object.handles_subset {o : Object} {v : Value} (hv : v ∈ o.contents) :
    v.handles ⊆ o.handles :=
  fun _ hx => List.mem_flatMap.2 ⟨v, hv, hx⟩

namespace Heap

def KeepsContents (s s' : Heap) : Prop :=
  ∀ x e', s'.get? x = some e' → ∃ e, s.get? x = some e ∧ e'.object = e.object

/-- The object of `h` is alive, and a handle to it is among those in `R` or inside of the
object itself. -/
structure Anchored (s : Heap) (R : Multiset Handle) (h : Handle) : Prop where
  alive : s.isAlive h = true
  held : h ∈ R ∨ s.Refers h h

/-- From `s` to `s'` no contents change but those of the object of `h`, which stays
alive: other objects may be destroyed, and none is new. -/
structure ChangesOnly (s : Heap) (h : Handle) (s' : Heap) : Prop where
  alive : s'.isAlive h = true
  kept : ∀ x, x ≠ h → s.isAlive x = true → s'.isAlive x = false ∨ s'.object x = s.object x
  nothing_new : ∀ x, s'.isAlive x = true → s.isAlive x = true

variable {s s₁ s' : Heap} {R P : Multiset Handle} {h x : Handle} {e e' : Entry} {v : Value}

theorem object_of_get? (he : s.get? h = some e) : s.object h = .ok e.object := by
  simp only [object, entry, he]
  rfl

/-! ## Contents -/

theorem KeepsContents.refl (s : Heap) : s.KeepsContents s := fun _ e he => ⟨e, he, rfl⟩

theorem KeepsContents.trans (h₁ : s.KeepsContents s₁) (h₂ : s₁.KeepsContents s') :
    s.KeepsContents s' := by
  intro x e' he'
  obtain ⟨e₁, he₁, hobject'⟩ := h₂ x e' he'
  obtain ⟨e, he, hobject⟩ := h₁ x e₁ he₁
  exact ⟨e, he, hobject'.trans hobject⟩

theorem keepsContents_releaseEach {hs : List Handle}
    (hpos : ∀ x e, s.get? x = some e → 1 ≤ e.count) (heach : releaseEach hs s = .ok () s') :
    s.KeepsContents s' := by
  induction hs generalizing s with
  | nil =>
      cases heach
      exact .refl s'
  | cons x hs ih =>
      cases hr : release x s with
      | error f s₁ => simp [releaseEach, hr] at heach
      | ok r s₁ =>
          simp only [releaseEach, hr] at heach
          obtain ⟨dead, hc⟩ := (Cascade.start hpos x).releaseAll (releaseAll_of_release hr)
          exact KeepsContents.trans hc.object_eq (ih hc.count_pos heach)

/-- Releases after a write to a live object change nothing but that object. -/
theorem KeepsContents.changesOnly (hkeeps : (s.setEntry h e').KeepsContents s')
    (he : s.get? h = some e) (halive : s'.isAlive h = true) : s.ChangesOnly h s' where
  alive := halive
  kept x hne hx := by
    cases hx' : s'.isAlive x with
    | false => exact Or.inl rfl
    | true =>
        obtain ⟨e₂, he₂⟩ := isAlive_iff.1 hx'
        obtain ⟨e₁, he₁, hsame⟩ := hkeeps x e₂ he₂
        rw [get?_setEntry_of_ne he hne] at he₁
        exact Or.inr (by rw [object_of_get? he₂, object_of_get? he₁, hsame])
  nothing_new x hx := by
    obtain ⟨e₂, he₂⟩ := isAlive_iff.1 hx
    obtain ⟨e₁, he₁, -⟩ := hkeeps x e₂ he₂
    by_cases hne : x = h
    · exact isAlive_iff.2 ⟨e, hne ▸ he⟩
    · exact isAlive_iff.2 ⟨e₁, (get?_setEntry_of_ne he hne).symm.trans he₁⟩

/-! ## The object written to -/

theorem Anchored.of_object_eq (hanch : s.Anchored R h) (he : s.get? h = some e)
    (he' : s'.get? h = some e') (hobject : e'.object = e.object) : s'.Anchored R h where
  alive := isAlive_iff.2 ⟨e', he'⟩
  held := by
    refine hanch.held.imp_right fun hself => ?_
    rw [Refers, held_of_get? he] at hself
    rwa [Refers, held_of_get? he', hobject]

namespace Accounted

/-- The handle released is not the only one to an anchored object. -/
theorem one_lt_count (ha : s.Accounted (h ::ₘ P)) (hle : R ≤ P) (hanch : s.Anchored R h)
    (he : s.get? h = some e) : 1 < e.count := by
  have hcount := ha.count_eq h e he
  rw [Multiset.count_cons_self] at hcount
  obtain hR | hself := hanch.held
  · have := Multiset.count_pos.2 (Multiset.mem_of_le hle hR)
    omega
  · have := Multiset.count_pos.2 (mem_stored_iff.2 ⟨h, hself⟩)
    omega

theorem anchored_releaseOne {r : Released} {owned : List Handle} (ha : s.Accounted (x ::ₘ P))
    (hle : R ≤ P) (hanch : s.Anchored R h) (hone : Heap.releaseOne x s = .ok (r, owned) s') :
    s'.Anchored R h := by
  obtain ⟨e₀, he₀⟩ := isAlive_iff.1 hanch.alive
  obtain ⟨e, he, ⟨-, -, -, rfl⟩ | ⟨hlast, -, -, rfl⟩⟩ := releaseOne_cases hone
  · by_cases hne : h = x
    · subst hne
      exact hanch.of_object_eq he (get?_setEntry_self he) rfl
    · exact hanch.of_object_eq he₀ ((get?_setEntry_of_ne he hne).trans he₀) rfl
  · have hne : h ≠ x := by
      rintro rfl
      exact hlast (ha.one_lt_count hle hanch he)
    exact hanch.of_object_eq he₀ ((get?_vacate_of_ne he hne).trans he₀) rfl

theorem anchored_releaseAll {stack : List Handle} (ha : s.Accounted (↑stack + P)) (hle : R ≤ P)
    (hanch : s.Anchored R h) (hall : Heap.releaseAll stack s = .ok () s') : s'.Anchored R h := by
  fun_induction Heap.releaseAll stack s with
  | case1 s =>
      cases hall
      exact hanch
  | case2 s x rest f s₁ hone => cases hall
  | case3 s x rest r owned s₁ hone ih =>
      -- what is still on the stack is outside as well, but it is not relied on
      obtain ⟨r', owned', s₁', hok, ha₁⟩ := ha.uncons.releaseOne
      cases hone.symm.trans hok
      refine ih ?_ (ha.uncons.anchored_releaseOne ?_ hanch hone) hall
      · rwa [← Multiset.coe_add, Multiset.coe_reverse, add_assoc]
      · exact hle.trans (Multiset.le_add_left _ _)

theorem anchored_releaseEach {hs : List Handle} (ha : s.Accounted (↑hs + R))
    (hanch : s.Anchored R h) (heach : Heap.releaseEach hs s = .ok () s') : s'.Anchored R h := by
  induction hs generalizing s with
  | nil =>
      cases heach
      exact hanch
  | cons x hs ih =>
      obtain ⟨r, s₁, hr, ha₁⟩ := ha.uncons.release
      simp only [Heap.releaseEach, hr] at heach
      have hone : s.Accounted (↑[x] + (↑hs + R)) := ha.uncons
      have hanch₁ : s₁.Anchored R h :=
        hone.anchored_releaseAll (Multiset.le_add_left _ _) hanch (releaseAll_of_release hr)
      exact ih ha₁ hanch₁ heach

/-- An object that received an owned value keeps it while the value that it gave up is
dropped. -/
theorem exchange_effect {old : Value} {o : Object} (ha : s.Accounted R) (hh : h ∈ R)
    (hv : ↑v.handles ≤ R) (he : s.get? h = some e)
    (ho : (↑old.handles + ↑o.handles : Multiset Handle) = ↑v.handles + ↑e.object.handles)
    (hmem : v ∈ o.contents)
    (hdrop : Heap.drop old (s.setEntry h { e with object := o }) = .ok () s') :
    (∃ n, s'.get? h = some ⟨n, o⟩) ∧ s.ChangesOnly h s' := by
  have hwritten : (s.setEntry h { e with object := o }).get? h = some { e with object := o } :=
    get?_setEntry_self he
  have ha₁ := (ha.split hv).setExchanged he ho
  have hanch : (s.setEntry h { e with object := o }).Anchored (R - ↑v.handles) h := by
    refine ⟨isAlive_iff.2 ⟨_, hwritten⟩, ?_⟩
    rw [Refers, held_of_get? hwritten]
    -- the client's handle stays outside or goes into the object with the value
    rw [← Multiset.sub_add_cancel hv, Multiset.mem_add, Multiset.mem_coe] at hh
    exact hh.imp_right fun hmem' => Object.handles_subset hmem hmem'
  have halive := (ha₁.anchored_releaseEach hanch hdrop).alive
  have hkeeps := keepsContents_releaseEach ha₁.count_pos hdrop
  obtain ⟨⟨n, o'⟩, he'⟩ := isAlive_iff.1 halive
  obtain ⟨e₁, he₁, rfl⟩ := hkeeps h _ he'
  obtain rfl := Option.some.inj (hwritten.symm.trans he₁)
  exact ⟨⟨n, he'⟩, hkeeps.changesOnly he halive⟩

end Accounted

/-! ## Fields -/

theorem field_of_find? {n : ℕ} {c name : String} {fields : List (String × Value)}
    {p : String × Value} (he : s.get? h = some ⟨n, .classInstance c fields⟩)
    (hfind : fields.find? (·.1 == name) = some p) : s.field h name = .ok p.2 := by
  simp only [field, entry, he, hfind]

theorem field_congr {n n' : ℕ} {c c' name : String} {fields fields' : List (String × Value)}
    (he : s.get? h = some ⟨n, .classInstance c fields⟩)
    (he' : s'.get? h = some ⟨n', .classInstance c' fields'⟩)
    (hfind : fields'.find? (·.1 == name) = fields.find? (·.1 == name)) :
    s'.field h name = s.field h name := by
  simp only [field, entry, he, he', hfind]

/-! ## Items -/

theorem length_of_get? {n : ℕ} {items : List Value} (he : s.get? h = some ⟨n, .array items⟩) :
    s.length h = .ok items.length := by
  simp only [length, Heap.items, entry, he]
  rfl

theorem element_of_getElem? {n : ℕ} {items : List Value} {index : Int} {u : Value}
    (he : s.get? h = some ⟨n, .array items⟩) (hindex : 0 ≤ index)
    (hu : items[index.toNat]? = some u) : s.element h index = .ok u := by
  have hlt := (List.getElem?_eq_some_iff.1 hu).1
  have hok : checkIndex index items.length = .ok index.toNat := if_pos ⟨hindex, by omega⟩
  simp only [element, Heap.items, entry, he, bind, Except.bind, hok, hu]

theorem element_of_outside {n : ℕ} {items : List Value} {index : Int}
    (he : s.get? h = some ⟨n, .array items⟩) (hindex : ¬ (0 ≤ index ∧ index < items.length)) :
    s.element h index = .error (.outOfBounds index items.length) := by
  simp only [element, Heap.items, entry, he, bind, Except.bind, checkIndex_eq_error hindex]

theorem element_congr {n n' : ℕ} {items items' : List Value} {index : Int}
    (he : s.get? h = some ⟨n, .array items⟩) (he' : s'.get? h = some ⟨n', .array items'⟩)
    (hlength : items'.length = items.length)
    (hget : 0 ≤ index → items'[index.toNat]? = items[index.toNat]?) :
    s'.element h index = s.element h index := by
  by_cases hindex : 0 ≤ index ∧ index < items.length
  · have hu : items[index.toNat]? = some items[index.toNat] :=
      List.getElem?_eq_getElem (by omega)
    rw [element_of_getElem? he hindex.1 hu,
      element_of_getElem? he' hindex.1 ((hget hindex.1).trans hu)]
  · rw [element_of_outside he hindex, element_of_outside he' (by rwa [hlength]), hlength]

/-! ## The three writes -/

namespace Accounted

theorem setField_effect {name : String} (ha : s.Accounted R) (hh : h ∈ R) (hv : ↑v.handles ≤ R)
    (hset : Heap.setField h name v s = .ok () s') :
    s'.field h name = .ok v ∧
    (∀ other, other ≠ name → s'.field h other = s.field h other) ∧
    (∃ c before old after, s.object h = .ok (.classInstance c (before ++ (name, old) :: after)) ∧
      s'.object h = .ok (.classInstance c (before ++ (name, v) :: after)) ∧
      ∀ p ∈ before, p.1 ≠ name) ∧
    s.ChangesOnly h s' := by
  obtain ⟨f, hf⟩ | ⟨n, c, fields, old, fields', he, hrep, heq⟩ := setField_cases h name v s
  · cases (setField_of_refused hf v).symm.trans hset
  · obtain ⟨before, after, rfl, rfl, hbefore⟩ := replaceField_eq_some hrep
    obtain ⟨⟨n', he'⟩, hchanges⟩ := ha.exchange_effect hh hv he (handles_replaceField hrep c)
      (by simp [Object.contents]) (heq.symm.trans hset)
    have hnone : before.find? (·.1 == name) = none :=
      List.find?_eq_none.2 fun p hp => by simpa using hbefore p hp
    refine ⟨field_of_find? (p := (name, v)) he' ?_, fun other hother => ?_, ?_, hchanges⟩
    · simp [List.find?_append, hnone]
    · refine field_congr he he' ?_
      simp [List.find?_append, Ne.symm hother]
    · exact ⟨c, before, old, after, object_of_get? he, object_of_get? he', hbefore⟩

theorem setElement_effect {index : Int} (ha : s.Accounted R) (hh : h ∈ R) (hv : ↑v.handles ≤ R)
    (hset : Heap.setElement h index v s = .ok () s') :
    s'.element h index = .ok v ∧ s'.length h = s.length h ∧
    (∀ other, other ≠ index → s'.element h other = s.element h other) ∧
    s.ChangesOnly h s' := by
  obtain ⟨f, hf⟩ | ⟨n, items, old, he, hindex, hold, heq⟩ := setElement_cases h index v s
  · cases (setElement_of_refused hf v).symm.trans hset
  · have hlt := (List.getElem?_eq_some_iff.1 hold).1
    obtain ⟨⟨n', he'⟩, hchanges⟩ := ha.exchange_effect hh hv he (handles_array_set hold v)
      (List.mem_set hlt v) (heq.symm.trans hset)
    refine ⟨element_of_getElem? he' hindex (List.getElem?_set_self hlt), ?_,
      fun other hother => element_congr he he' List.length_set fun hpos => ?_, hchanges⟩
    · rw [length_of_get? he, length_of_get? he', List.length_set]
    · exact List.getElem?_set_ne (by omega)

end Accounted

theorem push_effect (hpush : push h v s = .ok () s') :
    (∃ n : ℕ, s.length h = .ok n ∧ s'.length h = .ok (n + 1) ∧ s'.element h n = .ok v ∧
      ∀ i : ℕ, i < n → s'.element h i = s.element h i) ∧
    s'.isAlive h = true ∧ ∀ x, x ≠ h → s'.get? x = s.get? x := by
  obtain ⟨f, hf⟩ | ⟨n, items, he, heq⟩ := push_cases h v s
  · cases hf.symm.trans hpush
  cases heq.symm.trans hpush
  have he' : (s.setEntry h ⟨n, .array (items ++ [v])⟩).get? h =
      some ⟨n, .array (items ++ [v])⟩ := get?_setEntry_self he
  refine ⟨⟨items.length, length_of_get? he, ?_, ?_, fun i hi => ?_⟩, isAlive_iff.2 ⟨_, he'⟩,
    fun x hne => get?_setEntry_of_ne he hne⟩
  · rw [length_of_get? he', List.length_append, List.length_singleton]
  · exact element_of_getElem? he' (by omega) (by simp)
  · have hu : items[(i : Int).toNat]? = some items[i] := List.getElem?_eq_getElem hi
    rw [element_of_getElem? he (by omega) hu, element_of_getElem? he' (by omega)
      ((List.getElem?_append_left hi).trans hu)]

/-- In a heap whose counts are right, let the client own the handle `h` and the value
`v`, which may be made of `h` itself. After a write of `v` through `h` the value is read
where it was written, everything else in the object is as before, the object is alive, and
other objects are destroyed or keep their contents; an appended item destroys none. -/
theorem writes_exact (s s' : Heap) (R : Multiset Handle) (h : Handle) (v : Value)
    (ha : s.Accounted R) (hh : h ∈ R) (hv : ↑v.handles ≤ R) :
    (∀ name, setField h name v s = .ok () s' →
      s'.field h name = .ok v ∧
      (∀ other, other ≠ name → s'.field h other = s.field h other) ∧
      (∃ c before old after,
        s.object h = .ok (.classInstance c (before ++ (name, old) :: after)) ∧
        s'.object h = .ok (.classInstance c (before ++ (name, v) :: after)) ∧
        ∀ p ∈ before, p.1 ≠ name) ∧
      s.ChangesOnly h s') ∧
    (∀ index, setElement h index v s = .ok () s' →
      s'.element h index = .ok v ∧ s'.length h = s.length h ∧
      (∀ other, other ≠ index → s'.element h other = s.element h other) ∧
      s.ChangesOnly h s') ∧
    (push h v s = .ok () s' →
      (∃ n : ℕ, s.length h = .ok n ∧ s'.length h = .ok (n + 1) ∧ s'.element h n = .ok v ∧
        ∀ i : ℕ, i < n → s'.element h i = s.element h i) ∧
      s'.isAlive h = true ∧ ∀ x, x ≠ h → s'.get? x = s.get? x) :=
  ⟨fun _ hset => ha.setField_effect hh hv hset, fun _ hset => ha.setElement_effect hh hv hset,
    push_effect⟩

def mutualNodes : List Request :=
  [.newInstance "Node" [("name", .str "a"), ("next", .absent)],
   .upgrade ⟨⟨0, 0⟩⟩,
   .newInstance "Node" [("next", .object ⟨0, 0⟩)],
   .setField ⟨0, 0⟩ "next" (.object ⟨1, 0⟩)]

def heldNode : List Request :=
  [.newInstance "Node" [("name", .str "a")], .newArray [.object ⟨0, 0⟩, .bool true]]

/-- The client's only handle is stored in its own object, in the place of a reference to
the other node. That node is destroyed and gives up its reference to the first, which
has itself as the last owner. In the same way an array is put in the place of the node that
it holds, or at its own end. -/
theorem writes_exact_mutualNodes :
    (Client.start.Disciplined mutualNodes ∧ (Client.start.run mutualNodes).owned = {⟨0, 0⟩} ∧
      ∃ s', setField ⟨0, 0⟩ "next" (.object ⟨0, 0⟩) (Client.start.run mutualNodes).heap =
          .ok () s' ∧
        s'.field ⟨0, 0⟩ "next" = .ok (.object ⟨0, 0⟩) ∧
        s'.field ⟨0, 0⟩ "name" = .ok (.str "a") ∧
        (Client.start.run mutualNodes).heap.ChangesOnly ⟨0, 0⟩ s') ∧
    (Client.start.Disciplined heldNode ∧ (Client.start.run heldNode).owned = {⟨1, 0⟩} ∧
      (∃ s', setElement ⟨1, 0⟩ 0 (.array ⟨1, 0⟩) (Client.start.run heldNode).heap = .ok () s' ∧
        s'.element ⟨1, 0⟩ 0 = .ok (.array ⟨1, 0⟩) ∧ s'.length ⟨1, 0⟩ = .ok 2 ∧
        s'.element ⟨1, 0⟩ 1 = .ok (.bool true) ∧ s'.isAlive ⟨0, 0⟩ = false ∧
        (Client.start.run heldNode).heap.ChangesOnly ⟨1, 0⟩ s') ∧
      ∃ s', push ⟨1, 0⟩ (.array ⟨1, 0⟩) (Client.start.run heldNode).heap = .ok () s' ∧
        s'.length ⟨1, 0⟩ = .ok 3 ∧ s'.element ⟨1, 0⟩ 2 = .ok (.array ⟨1, 0⟩) ∧
        s'.element ⟨1, 0⟩ 0 = .ok (.object ⟨0, 0⟩) ∧ s'.isAlive ⟨0, 0⟩ = true) := by
  have haccounted : ∀ qs, Client.start.Disciplined qs →
      (Client.start.run qs).heap.Accounted (Client.start.run qs).owned :=
    fun qs hqs => Client.Accounted.run accounted_empty hqs
  constructor
  · have hqs : Client.start.Disciplined mutualNodes ∧
        (Client.start.run mutualNodes).owned = {⟨0, 0⟩} := by decide
    have hset : ∃ s', setField ⟨0, 0⟩ "next" (.object ⟨0, 0⟩)
        (Client.start.run mutualNodes).heap = .ok () s' := ⟨_, by cbv⟩
    obtain ⟨s', hset⟩ := hset
    obtain ⟨hfield, -, -⟩ := writes_exact _ s' _ ⟨0, 0⟩ (.object ⟨0, 0⟩)
      (haccounted _ hqs.1) (by decide) (by decide)
    obtain ⟨hnext, hother, -, hchanges⟩ := hfield "next" hset
    exact ⟨hqs.1, hqs.2, s', hset, hnext, hother "name" (by decide), hchanges⟩
  · have hqs : Client.start.Disciplined heldNode ∧
        (Client.start.run heldNode).owned = {⟨1, 0⟩} := by decide
    have ha := haccounted _ hqs.1
    have hlength : (Client.start.run heldNode).heap.length ⟨1, 0⟩ = .ok 2 := rfl
    refine ⟨hqs.1, hqs.2, ?_, ?_⟩
    · have hdrop : setElement ⟨1, 0⟩ 0 (.array ⟨1, 0⟩) (Client.start.run heldNode).heap =
          drop (.object ⟨0, 0⟩) ((Client.start.run heldNode).heap.setEntry ⟨1, 0⟩
            ⟨1, .array [.array ⟨1, 0⟩, .bool true]⟩) := rfl
      have hset : ∃ s', setElement ⟨1, 0⟩ 0 (.array ⟨1, 0⟩) (Client.start.run heldNode).heap =
          .ok () s' ∧ s'.isAlive ⟨0, 0⟩ = false := ⟨_, hdrop.trans (by cbv), by decide⟩
      obtain ⟨s', hset, hdead⟩ := hset
      obtain ⟨-, helement, -⟩ := writes_exact _ s' _ ⟨1, 0⟩ (.array ⟨1, 0⟩) ha (by decide)
        (by decide)
      obtain ⟨hfirst, hsame, hother, hchanges⟩ := helement 0 hset
      have hsecond : (Client.start.run heldNode).heap.element ⟨1, 0⟩ 1 = .ok (.bool true) := rfl
      exact ⟨s', hset, hfirst, hsame.trans hlength, (hother 1 (by decide)).trans hsecond, hdead,
        hchanges⟩
    · have hpush : ∃ s', push ⟨1, 0⟩ (.array ⟨1, 0⟩) (Client.start.run heldNode).heap =
          .ok () s' := ⟨_, rfl⟩
      obtain ⟨s', hpush⟩ := hpush
      obtain ⟨-, -, hwrite⟩ := writes_exact _ s' _ ⟨1, 0⟩ (.array ⟨1, 0⟩) ha (by decide)
        (by decide)
      obtain ⟨⟨n, hn, hgrown, hlast, hearlier⟩, -, hkept⟩ := hwrite hpush
      obtain rfl : n = 2 := Except.ok.inj (hn.symm.trans hlength)
      have hfirst : (Client.start.run heldNode).heap.element ⟨1, 0⟩ 0 =
          .ok (.object ⟨0, 0⟩) := rfl
      have halive : (Client.start.run heldNode).heap.isAlive ⟨0, 0⟩ = true := by decide
      refine ⟨s', hpush, hgrown, hlast, (hearlier 0 (by decide)).trans hfirst, ?_⟩
      rw [isAlive, hkept _ (by decide)]
      exact halive

end Heap

end ProgramSafety
