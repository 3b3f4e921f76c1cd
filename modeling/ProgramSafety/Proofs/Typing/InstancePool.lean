import Mathlib.Data.Finset.Card
import Mathlib.Data.Finset.Union
import ProgramSafety.Proofs.Typing.Substitution

/-!
# Pools of instances

A pool answers a series of requests for instances of registered definitions. Every
instance of a pool was made for a request, and no two were made for the same definition
and arguments (`Pool.Sound`). So an answer is what a pool of its own would have given
(`Pool.read_ask`), also long after it was given, as instances stay where they are
(`Pool.read_of_grows`), and a pool holds one instance for each thing asked for
(`Pool.askAll_transparent`).
-/

namespace ProgramSafety

variable {r : Registry}

/-- A request for an instance of a registered definition. -/
structure Demand (r : Registry) where
  id : ℕ
  definition : TypeDef
  registered : r.get? id = some definition
  args : List Ty

namespace Demand

def key (q : Demand r) : ℕ × List Ty := (q.id, q.args)

def Fits (q : Demand r) : Prop := q.definition.generics.length = q.args.length

instance (q : Demand r) : Decidable q.Fits := inferInstanceAs (Decidable (_ = _))

def instance? (q : Demand r) : Except Problem Concrete := q.definition.instantiate q.id q.args

end Demand

def Concrete.key (c : Concrete) : ℕ × List Ty := (c.id, c.args)

namespace Demand

variable {q q' : Demand r} {c : Concrete}

theorem instance?_of_not_fits (h : ¬ q.Fits) :
    q.instance? = .error ⟨.genericArity q.definition.qualifiedName q.definition.generics.length
      q.args.length, q.definition.span⟩ :=
  if_neg h

theorem instance?_of_fits (h : q.Fits) : q.instance? = .ok (q.definition.concrete q.id q.args) :=
  if_pos h

theorem fits_of_instance? (h : q.instance? = .ok c) : q.Fits :=
  (TypeDef.instantiate_eq_ok_iff.1 h).1

theorem key_of_instance? (h : q.instance? = .ok c) : c.key = q.key := by
  obtain ⟨-, rfl⟩ := TypeDef.instantiate_eq_ok_iff.1 h
  rfl

/-- A registered definition and arguments determine the answer. -/
theorem instance?_congr (h : q.key = q'.key) : q.instance? = q'.instance? := by
  obtain ⟨id, definition, registered, args⟩ := q
  obtain ⟨id', definition', registered', args'⟩ := q'
  obtain ⟨rfl, rfl⟩ := Prod.mk.inj h
  obtain rfl := Option.some.inj (registered.symm.trans registered')
  rfl

end Demand

namespace Pool

variable {p p' : Pool} {q : Demand r} {qs : List (Demand r)} {c : Concrete} {i : ℕ}

def keys (p : Pool) : List (ℕ × List Ty) := p.made.map Concrete.key

theorem position?_eq_some (h : p.position? q.id q.args = some i) :
    ∃ c, p.made[i]? = some c ∧ c.key = q.key := by
  obtain ⟨hlt, hfound, -⟩ := List.findIdx?_eq_some_iff_getElem.1 h
  exact ⟨p.made[i], List.getElem?_eq_getElem hlt,
    by simpa [Concrete.isOf, Concrete.key, Demand.key] using hfound⟩

theorem position?_eq_none (h : p.position? q.id q.args = none) : q.key ∉ p.keys := by
  intro hmem
  obtain ⟨c, hc, hkey⟩ := List.mem_map.1 hmem
  have hnot := List.findIdx?_eq_none_iff.1 h c hc
  simp_all [Concrete.isOf, Concrete.key, Demand.key]

/-! ## One request -/

def ask (p : Pool) (q : Demand r) : Except Problem ℕ × Pool := p.request q.definition q.id q.args

/-- What an answer stands for in a pool. -/
def read (p : Pool) (answer : Except Problem ℕ) : Except Problem (Option Concrete) :=
  answer.map fun i => p.made[i]?

/-- What a pool of its own answers. -/
def alone (q : Demand r) : Except Problem (Option Concrete) :=
  let (answer, p) := empty.ask q
  p.read answer

/-- Every instance was asked for, and no two are of the same. -/
structure Sound (r : Registry) (p : Pool) : Prop where
  nodup : p.keys.Nodup
  asked : ∀ c ∈ p.made, ∃ q : Demand r, q.instance? = .ok c

theorem sound_empty : empty.Sound r := ⟨List.nodup_nil, by simp [empty]⟩

/-- A request is answered from the pool, or refused, or answered by a new instance. -/
theorem ask_cases (hp : p.Sound r) (q : Demand r) :
    (∃ i c, p.made[i]? = some c ∧ q.instance? = .ok c ∧ p.ask q = (.ok i, p)) ∨
    (∃ e, q.instance? = .error e ∧ p.ask q = (.error e, p)) ∨
    ∃ c, q.instance? = .ok c ∧ q.key ∉ p.keys ∧
      p.ask q = (.ok p.made.length, ⟨p.made ++ [c]⟩) := by
  unfold ask request
  split
  next i hposition =>
    obtain ⟨c, hc, hkey⟩ := position?_eq_some hposition
    obtain ⟨q', hq'⟩ := hp.asked c (List.mem_of_getElem? hc)
    have hsame : q.key = q'.key := hkey.symm.trans (Demand.key_of_instance? hq')
    exact Or.inl ⟨i, c, hc, (Demand.instance?_congr hsame).trans hq', rfl⟩
  next hposition =>
    split
    next e he => exact Or.inr (Or.inl ⟨e, he, rfl⟩)
    next c hc => exact Or.inr (Or.inr ⟨c, hc, position?_eq_none hposition, rfl⟩)

theorem Sound.ask (hp : p.Sound r) (q : Demand r) : (p.ask q).2.Sound r := by
  obtain ⟨i, c, -, -, h⟩ | ⟨e, -, h⟩ | ⟨c, hc, hnew, h⟩ := ask_cases hp q
  · rwa [h]
  · rwa [h]
  · rw [h]
    refine ⟨?_, ?_⟩
    · rw [keys, List.map_append, List.map_singleton, Demand.key_of_instance? hc]
      exact List.nodup_append.2 ⟨hp.nodup, List.nodup_singleton _, by
        rintro k hk k' hk' rfl
        exact hnew (List.mem_singleton.1 hk' ▸ hk)⟩
    · intro c' hc'
      rcases List.mem_append.1 hc' with hc' | hc'
      · exact hp.asked c' hc'
      · exact ⟨q, List.mem_singleton.1 hc' ▸ hc⟩

theorem grows_ask (hp : p.Sound r) (q : Demand r) : p.made <+: (p.ask q).2.made := by
  obtain ⟨i, c, -, -, h⟩ | ⟨e, -, h⟩ | ⟨c, -, -, h⟩ := ask_cases hp q
  · rw [h]
  · rw [h]
  · rw [h]
    exact List.prefix_append _ _

/-- An answer is what the definition gives, whatever the pool. -/
theorem read_ask (hp : p.Sound r) (q : Demand r) :
    (p.ask q).2.read (p.ask q).1 = q.instance?.map some := by
  obtain ⟨i, c, hi, hc, h⟩ | ⟨e, he, h⟩ | ⟨c, hc, -, h⟩ := ask_cases hp q
  · simp [h, read, hi, hc, Except.map]
  · simp [h, read, he, Except.map]
  · simp [h, read, hc, Except.map]

theorem alone_eq (q : Demand r) : alone q = q.instance?.map some := read_ask sound_empty q

/-- Answers stay valid while the pool grows. -/
theorem read_of_grows (hgrows : p.made <+: p'.made) {answer : Except Problem ℕ}
    (h : p.read answer = q.instance?.map some) : p'.read answer = q.instance?.map some := by
  cases answer with
  | error e => exact h
  | ok i =>
      rw [← h]
      cases hq : q.instance? with
      | error e => simp [read, hq, Except.map] at h
      | ok c =>
          have hi : p.made[i]? = some c := by simpa [read, hq, Except.map] using h
          have hi' : p'.made[i]? = some c := by
            obtain ⟨rest, hrest⟩ := hgrows
            rw [← hrest, List.getElem?_append_left (List.getElem?_eq_some_iff.1 hi).1, hi]
          simp [read, hi, hi', Except.map]

theorem eq_of_ask_error (hp : p.Sound r) {e : Problem} (h : p.ask q = (.error e, p')) :
    p' = p := by
  obtain ⟨i, c, -, -, h'⟩ | ⟨e', -, h'⟩ | ⟨c, -, -, h'⟩ := ask_cases hp q
  · simp [h'] at h
  · exact (Prod.mk.inj (h.symm.trans h')).2
  · simp [h'] at h

theorem toFinset_keys_ask (hp : p.Sound r) (q : Demand r) : (p.ask q).2.keys.toFinset =
    p.keys.toFinset ∪ (([q].filter (·.Fits)).map Demand.key).toFinset := by
  obtain ⟨i, c, hi, hc, h⟩ | ⟨e, he, h⟩ | ⟨c, hc, -, h⟩ := ask_cases hp q
  · have hmem : q.key ∈ p.keys :=
      List.mem_map.2 ⟨c, List.mem_of_getElem? hi, Demand.key_of_instance? hc⟩
    simp [h, Demand.fits_of_instance? hc, hmem]
  · have hnot : ¬ q.Fits := by
      intro hfits
      rw [Demand.instance?_of_fits hfits] at he
      cases he
    simp [h, hnot]
  · simp [h, keys, Demand.fits_of_instance? hc, Demand.key_of_instance? hc]

/-! ## Series of requests -/

def askAll (p : Pool) : List (Demand r) → List (Except Problem ℕ) × Pool
  | [] => ([], p)
  | q :: qs =>
    let (answer, p') := p.ask q
    let (answers, p'') := p'.askAll qs
    (answer :: answers, p'')

theorem askAll_cons (p : Pool) (q : Demand r) (qs : List (Demand r)) :
    p.askAll (q :: qs) =
      ((p.ask q).1 :: ((p.ask q).2.askAll qs).1, ((p.ask q).2.askAll qs).2) := rfl

theorem Sound.askAll (hp : p.Sound r) (qs : List (Demand r)) : (p.askAll qs).2.Sound r := by
  induction qs generalizing p with
  | nil => exact hp
  | cons q qs ih => exact ih (hp.ask q)

theorem grows_askAll (hp : p.Sound r) (qs : List (Demand r)) :
    p.made <+: (p.askAll qs).2.made := by
  induction qs generalizing p with
  | nil => exact List.prefix_refl _
  | cons q qs ih => exact (grows_ask hp q).trans (ih (hp.ask q))

theorem map_read_askAll (hp : p.Sound r) (qs : List (Demand r)) :
    (p.askAll qs).1.map (p.askAll qs).2.read = qs.map fun q => q.instance?.map some := by
  induction qs generalizing p with
  | nil => rfl
  | cons q qs ih =>
      have hnext := hp.ask q
      rw [askAll_cons, List.map_cons, List.map_cons, ih hnext,
        read_of_grows (grows_askAll hnext qs) (read_ask hp q)]

theorem toFinset_keys_askAll (hp : p.Sound r) (qs : List (Demand r)) :
    (p.askAll qs).2.keys.toFinset =
      p.keys.toFinset ∪ ((qs.filter (·.Fits)).map Demand.key).toFinset := by
  induction qs generalizing p with
  | nil => simp [askAll]
  | cons q qs ih =>
      rw [askAll_cons, ih (hp.ask q), toFinset_keys_ask hp, Finset.union_assoc,
        ← List.toFinset_append, ← List.map_append, ← List.filter_append, List.singleton_append]

/-- An answer that succeeded is the position of the instance that was asked for. -/
theorem key_of_answer (hp : p.Sound r) {k : ℕ} (hq : qs[k]? = some q)
    (hanswer : (p.askAll qs).1[k]? = some (.ok i)) : (p.askAll qs).2.keys[i]? = some q.key := by
  have hread := congrArg (·[k]?) (map_read_askAll hp qs)
  simp only [List.getElem?_map, hanswer, hq, Option.map_some, Option.some.injEq] at hread
  cases hinstance : q.instance? with
  | error e => simp [read, hinstance, Except.map] at hread
  | ok c =>
      have hc : (p.askAll qs).2.made[i]? = some c := by
        simpa [read, hinstance, Except.map] using hread
      rw [keys, List.getElem?_map, hc, Option.map_some, Demand.key_of_instance? hinstance]

/-- Whatever was asked before, an answer is what a pool of its own gives: a problem if the
number of arguments is wrong, and otherwise the definition with its parameters replaced.
Requests share an instance exactly if they are for the same definition and arguments.
Requests that fail leave the pool as it is, which so holds one instance for each definition
and arguments that were asked for with success. -/
theorem askAll_transparent (r : Registry) (qs : List (Demand r)) :
    (empty.askAll qs).1.map (empty.askAll qs).2.read = qs.map alone ∧
    (∀ q ∈ qs, q.definition.generics.length ≠ q.args.length →
      alone q = .error ⟨.genericArity q.definition.qualifiedName q.definition.generics.length
        q.args.length, q.definition.span⟩) ∧
    (∀ q ∈ qs, q.definition.generics.length = q.args.length →
      ∃ c s, alone q = .ok (some c) ∧ c.id = q.id ∧ c.args = q.args ∧
        c.name = (Ty.adt q.id q.definition.qualifiedName q.args).text ∧
        q.definition.shape.Replaced s c.shape ∧
        ∀ n a, s n = some a ↔ ∃ i : ℕ, q.definition.generics[i]? = some n ∧
          q.args[i]? = some a ∧ n ∉ q.definition.generics.drop (i + 1)) ∧
    (∀ (k k' : ℕ) (q q' : Demand r) (i i' : ℕ), qs[k]? = some q → qs[k']? = some q' →
      (empty.askAll qs).1[k]? = some (.ok i) → (empty.askAll qs).1[k']? = some (.ok i') →
        (i = i' ↔ q.id = q'.id ∧ q.args = q'.args)) ∧
    (∀ (q : Demand r) (e : Problem) (p : Pool),
      (empty.askAll qs).2.ask q = (.error e, p) → p = (empty.askAll qs).2) ∧
    (empty.askAll qs).2.made.length =
      ((qs.filter fun q => q.definition.generics.length = q.args.length).map
        fun q => (q.id, q.args)).toFinset.card := by
  have hsound := (sound_empty (r := r)).askAll qs
  refine ⟨?_, ?_, ?_, ?_, ?_, ?_⟩
  · rw [map_read_askAll sound_empty]
    exact List.map_congr_left fun q _ => (alone_eq q).symm
  · intro q _ harity
    rw [alone_eq, Demand.instance?_of_not_fits harity]
    rfl
  · intro q _ harity
    rw [alone_eq, Demand.instance?_of_fits harity]
    exact ⟨_, q.definition.subst q.args, rfl, rfl, rfl, rfl, Shape.replaced_iff.2 rfl,
      fun n a => Subst.ofArgs_eq_some_iff harity⟩
  · intro k k' q q' i i' hq hq' hanswer hanswer'
    have hi := key_of_answer sound_empty hq hanswer
    have hi' := key_of_answer sound_empty hq' hanswer'
    rw [← Prod.mk.injEq]
    constructor
    · rintro rfl
      exact Option.some.inj (hi.symm.trans hi')
    · intro hkey
      have hlt := (List.getElem?_eq_some_iff.1 hi).1
      refine (List.getElem?_inj hlt hsound.nodup).1 ?_
      rw [hi, hi']
      exact congrArg some hkey
  · intro q e p hfailed
    exact eq_of_ask_error hsound hfailed
  · have hkeys := toFinset_keys_askAll (sound_empty (r := r)) qs
    have hcard := List.toFinset_card_of_nodup hsound.nodup
    rw [keys, List.length_map] at hcard
    rw [← hcard]
    exact congrArg Finset.card (hkeys.trans (Finset.empty_union _))

end Pool

end ProgramSafety
