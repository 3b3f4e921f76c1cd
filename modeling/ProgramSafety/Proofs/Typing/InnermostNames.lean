import ProgramSafety.Proofs.Typing.Signatures

/-!
# Innermost names

Types and functions are kept under a namespace and a name. `Innermost` says which of the
namespaces around a place decides about an unqualified name: the longest one that has the
name. It does not speak of a search. Looking outward finds what the innermost namespace has
(`Innermost.findSome?_outward_iff`), for definitions as for functions, and a path is
followed exactly. So a definition that was found can be named in full from anywhere, and an
entry in a namespace that is not around a place leaves all unqualified names there alone
(`Scope.names_innermost`).
-/

namespace ProgramSafety

/-- Of the namespaces around the given one that have the name, `found` is the longest. -/
structure Innermost (keys : List (Namespace × String)) (space : Namespace) (name : String)
    (found : Namespace) : Prop where
  around : found <+: space
  has_name : (found, name) ∈ keys
  longest : ∀ other, other <+: space → (other, name) ∈ keys → other.length ≤ found.length

namespace Innermost

variable {α : Type} {keys : List (Namespace × String)} {space found : Namespace}
  {name : String} {f : Namespace → Option α} {a : α}

/-- Nothing further inside has the name. -/
theorem not_mem_of_inner (h : Innermost keys space name found) {inner : Namespace}
    (hle : found <+: inner) (hge : inner <+: space) (hne : inner ≠ found) :
    (inner, name) ∉ keys := by
  intro hmem
  exact hne (hle.eq_of_length_le (h.longest inner hge hmem)).symm

/-- The search outward finds what the innermost namespace has, if it asks a table with the
given keys. -/
theorem findSome?_outward_iff (hkeys : ∀ ns, f ns = none ↔ (ns, name) ∉ keys) :
    space.outward.findSome? f = some a ↔
      ∃ found, Innermost keys space name found ∧ f found = some a := by
  have hmem : ∀ {ns}, f ns = some a → (ns, name) ∈ keys := by
    intro ns hns
    by_contra hnot
    rw [(hkeys ns).2 hnot] at hns
    cases hns
  rw [Namespace.findSome?_outward_eq_some_iff]
  constructor
  · rintro ⟨found, haround, ha, hinner⟩
    refine ⟨found, ⟨haround, hmem ha, fun other hother hname => ?_⟩, ha⟩
    rcases List.prefix_or_prefix_of_prefix haround hother with hle | hle
    · by_cases hne : other = found
      · exact Nat.le_of_eq (congrArg List.length hne)
      · exact absurd hname ((hkeys other).1 (hinner other hle hother hne))
    · exact hle.length_le
  · rintro ⟨found, h, ha⟩
    exact ⟨found, h.around, ha, fun inner hle hge hne =>
      (hkeys inner).2 (h.not_mem_of_inner hle hge hne)⟩

theorem findSome?_outward_eq_none_iff (hkeys : ∀ ns, f ns = none ↔ (ns, name) ∉ keys) :
    space.outward.findSome? f = none ↔ ∀ around, around <+: space → (around, name) ∉ keys := by
  rw [Namespace.findSome?_outward_eq_none_iff]
  exact forall₂_congr fun around _ => hkeys around

end Innermost

/-- An entry in a namespace that is not around the given one captures no name there. -/
theorem not_captures_of_not_around {known : List (Namespace × String)} {home space : Namespace}
    {added name : String} (hout : ¬ home <+: space) :
    ¬ Captures known [(home, added)] space name := by
  rintro ⟨near, hnear, hmem, -⟩
  obtain ⟨rfl, -⟩ := Prod.mk.inj (List.mem_singleton.1 hmem)
  exact hout hnear

namespace Registry

variable {r r' : Registry} {scope : Scope} {t : TypeRef} {id : ℕ} {d : TypeDef}

theorem find?_of_unqualified (ht : t.path = []) :
    r.find? scope t = scope.space.outward.findSome? (r.lookup? · t.name) := by
  rw [find?, ht]
  rfl

theorem find?_of_qualified (ht : t.path ≠ []) : r.find? scope t = r.lookup? t.path t.name := by
  rw [find?, if_neg (by simpa using ht)]

/-- What is found under a name is a definition of that name. -/
theorem key_of_lookup? {space : Namespace} {name : String} (h : r.lookup? space name = some id)
    (hd : r.get? id = some d) : d.space = space ∧ d.name = name := by
  obtain ⟨d', hd', hkey⟩ := lookup?_eq_some_iff.1 h
  obtain rfl := Option.some.inj (hd'.symm.trans hd)
  exact hkey

theorem find?_eq_some_iff (ht : t.path = []) :
    r.find? scope t = some id ↔
      ∃ found, Innermost r.keys scope.space t.name found ∧ r.lookup? found t.name = some id := by
  rw [find?_of_unqualified ht]
  exact Innermost.findSome?_outward_iff fun _ => lookup?_eq_none_iff

theorem find?_eq_none_iff (ht : t.path = []) :
    r.find? scope t = none ↔ ∀ around, around <+: scope.space → (around, t.name) ∉ r.keys := by
  rw [find?_of_unqualified ht]
  exact Innermost.findSome?_outward_eq_none_iff fun _ => lookup?_eq_none_iff

/-- An unqualified name is found in the innermost namespace that has it. -/
theorem innermost_of_find? (ht : t.path = []) (h : r.find? scope t = some id) :
    ∃ d, r.get? id = some d ∧ d.name = t.name ∧
      Innermost r.keys scope.space t.name d.space := by
  obtain ⟨d, hd⟩ := exists_get?_of_find? h
  obtain ⟨found, hfound, hlookup⟩ := (find?_eq_some_iff ht).1 h
  obtain ⟨rfl, hname⟩ := key_of_lookup? hlookup hd
  exact ⟨d, hd, hname, hfound⟩

/-- A definition that was found is the one under its own name. -/
theorem lookup?_of_find? (h : r.find? scope t = some id) (hd : r.get? id = some d) :
    r.lookup? d.space d.name = some id := by
  have hspace : ∃ space, r.lookup? space t.name = some id := by
    by_cases ht : t.path = []
    · rw [find?_of_unqualified ht] at h
      obtain ⟨space, -, h⟩ := List.exists_of_findSome?_eq_some h
      exact ⟨space, h⟩
    · exact ⟨t.path, (find?_of_qualified ht).symm.trans h⟩
  obtain ⟨space, hlookup⟩ := hspace
  obtain ⟨rfl, hname⟩ := key_of_lookup? hlookup hd
  exact hname ▸ hlookup

/-- A definition that was found is found again by its full name. -/
theorem find?_again (h : r.find? scope t = some id) (hd : r.get? id = some d)
    (hroot : d.space ≠ []) (scope' : Scope) :
    r.find? scope' { t with path := d.space, name := d.name } = some id := by
  rw [find?_of_qualified hroot]
  exact lookup?_of_find? h hd

theorem resolveDef_again (h : r.resolveDef scope t = .ok (id, d)) (hroot : d.space ≠ [])
    (scope' : Scope) :
    r.resolveDef scope' { t with path := d.space, name := d.name } = .ok (id, d) := by
  have hfind := find?_of_resolveDef h
  obtain ⟨e, he⟩ := exists_get?_of_find? hfind
  rw [resolveDef_eq hfind he] at h
  split at h
  next harity =>
    obtain ⟨-, rfl⟩ := Prod.mk.inj (Except.ok.inj h)
    rw [resolveDef_eq (find?_again hfind he hroot scope') he, if_pos harity]
  next => cases h

theorem widens_register (h : r.register d = .ok (id, r')) (name : String) :
    Widens r.keys [d.key] name (r.lookup? · name) (r'.lookup? · name) := by
  obtain ⟨p, hp⟩ | ⟨hopen, hnew, hok⟩ := r.register_cases d
  · rw [hp] at h
    cases h
  · rw [hok] at h
    obtain ⟨-, rfl⟩ := Prod.mk.inj (Except.ok.inj h)
    have hgrown : GrowsBy [d.key] r (r.push d hopen hnew) :=
      ⟨List.prefix_append _ _, keys_push hopen hnew⟩
    exact hgrown.widens name

/-- A definition that is registered outside of all namespaces around a scope changes no
unqualified name there. -/
theorem find?_register_of_not_around (h : r.register d = .ok (id, r'))
    (hout : ¬ d.space <+: scope.space) (ht : t.path = []) :
    r'.find? scope t = r.find? scope t := by
  rw [find?_of_unqualified ht, find?_of_unqualified ht]
  exact (widens_register h t.name).findSome?_eq (not_captures_of_not_around hout)

end Registry

namespace Signatures

variable {s : Signatures} {space home : Namespace} {path : List String} {name : String}
  {g : Signature}

theorem lookupCall?_of_qualified (hpath : path ≠ []) :
    s.lookupCall? path name space = s.get? path name := by
  rw [lookupCall?, if_neg (by simpa using hpath)]

theorem lookupCall?_eq_some_iff :
    s.lookupCall? [] name space = some g ↔
      ∃ found, Innermost s.keys space name found ∧ s.get? found name = some g :=
  Innermost.findSome?_outward_iff fun _ => get?_eq_none_iff

/-- A function that was found is found again by its full name. -/
theorem lookupCall?_again (h : Innermost s.keys space name home) (hroot : home ≠ [])
    (space' : Namespace) :
    s.lookupCall? home name space' = s.lookupCall? [] name space := by
  rw [lookupCall?_of_qualified hroot]
  cases hget : s.get? home name with
  | none => exact absurd h.has_name (get?_eq_none_iff.1 hget)
  | some g => exact (lookupCall?_eq_some_iff.2 ⟨home, h, hget⟩).symm

theorem lookupCall?_add_of_not_around (r : Registry) (f : FunctionDecl)
    (hout : ¬ home <+: space) (name : String) :
    (s.add r home f).1.lookupCall? [] name space = s.lookupCall? [] name space :=
  (s.widens_addAll r [(home, f)] name).findSome?_eq (not_captures_of_not_around hout)

end Signatures

/-- An unqualified type or call stands for what the innermost namespace around it has under
its name, and for nothing if none of them has it. A path is followed exactly, whatever the
scope. A definition or function outside of the root is therefore found again by its own
namespace and name from any scope, and one that is added in a namespace that is not around a
scope changes no unqualified name there. -/
theorem Scope.names_innermost (r : Registry) (s : Signatures) (scope : Scope) :
    (∀ t : TypeRef, t.path = [] →
      (∀ id, r.find? scope t = some id ↔
        ∃ found, Innermost r.keys scope.space t.name found ∧ r.lookup? found t.name = some id) ∧
      (∀ id, r.find? scope t = some id → ∃ d, r.get? id = some d ∧ d.name = t.name ∧
        Innermost r.keys scope.space t.name d.space) ∧
      (r.find? scope t = none ↔
        ∀ around, around <+: scope.space → (around, t.name) ∉ r.keys)) ∧
    (∀ name,
      (∀ g, s.lookupCall? [] name scope.space = some g ↔
        ∃ found, Innermost s.keys scope.space name found ∧ s.get? found name = some g) ∧
      (s.lookupCall? [] name scope.space = none ↔
        ∀ around, around <+: scope.space → (around, name) ∉ s.keys)) ∧
    (∀ t : TypeRef, t.path ≠ [] → r.find? scope t = r.lookup? t.path t.name) ∧
    (∀ path name, path ≠ [] → s.lookupCall? path name scope.space = s.get? path name) ∧
    (∀ (t : TypeRef) id d, r.find? scope t = some id → r.get? id = some d → d.space ≠ [] →
      ∀ scope', r.find? scope' { t with path := d.space, name := d.name } = some id) ∧
    (∀ (t : TypeRef) id d, r.resolveDef scope t = .ok (id, d) → d.space ≠ [] →
      ∀ scope', r.resolveDef scope' { t with path := d.space, name := d.name } = .ok (id, d)) ∧
    (∀ name home, Innermost s.keys scope.space name home → home ≠ [] →
      ∀ space, s.lookupCall? home name space = s.lookupCall? [] name scope.space) ∧
    (∀ d id r', r.register d = .ok (id, r') → ¬ d.space <+: scope.space →
      ∀ t : TypeRef, t.path = [] → r'.find? scope t = r.find? scope t) ∧
    ∀ r' home f, ¬ home <+: scope.space →
      ∀ name, (s.add r' home f).1.lookupCall? [] name scope.space =
        s.lookupCall? [] name scope.space := by
  refine ⟨fun t ht => ⟨fun id => Registry.find?_eq_some_iff ht,
      fun id => Registry.innermost_of_find? ht, Registry.find?_eq_none_iff ht⟩,
    fun name => ⟨fun g => Signatures.lookupCall?_eq_some_iff,
      Innermost.findSome?_outward_eq_none_iff fun ns => Signatures.get?_eq_none_iff⟩,
    fun t ht => Registry.find?_of_qualified ht,
    fun path name hpath => Signatures.lookupCall?_of_qualified hpath, ?_, ?_,
    fun name home h hroot space => Signatures.lookupCall?_again h hroot space, ?_, ?_⟩
  · intro t id d h hd hroot scope'
    exact Registry.find?_again h hd hroot scope'
  · intro t id d h hroot scope'
    exact Registry.resolveDef_again h hroot scope'
  · intro d id r' h hout t ht
    exact Registry.find?_register_of_not_around h hout ht
  · intro r' home f hout name
    exact Signatures.lookupCall?_add_of_not_around r' f hout name

end ProgramSafety
