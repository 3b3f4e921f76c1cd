import ProgramSafety.Proofs.Typing.Substitution
import ProgramSafety.Session

/-!
# Weak references in instances

`Ty.weakSites` lists the weak references in a type, each with what it observes and
whether it is the operand of an optional. A type is accepted if all of them are legal
(`Registry.weakUse_eq_nil_iff`). Applying an accepted definition to accepted arguments
never brings a weak reference out of its optional, and the weak references that come
with the arguments stay legal. What a member observes is another matter: a type
parameter is accepted there as something that may turn out to be a class, and nobody
looks again at what it is replaced by. So the members of an instance are accepted
exactly if every observed parameter is replaced by something observable
(`Registry.weakUse_instance_iff`).
-/

namespace ProgramSafety

/-- A weak reference in a type: what it observes, and whether it is the operand of an
optional. -/
structure WeakSite where
  target : Ty
  wrapped : Bool
deriving DecidableEq

def WeakSite.substitute (s : Subst) (w : WeakSite) : WeakSite :=
  { w with target := w.target.substitute s }

namespace Ty

mutual

def weakSites (inside : Bool) : Ty → List WeakSite
  | weak t => ⟨t, inside⟩ :: t.weakSites false
  | optional t => t.weakSites true
  | array t | rawPtr t => t.weakSites false
  | adt _ _ args => weakSitesList args
  | unknown | void | bool | int _ | float _ | str | param _ => []

def weakSitesList : List Ty → List WeakSite
  | [] => []
  | t :: ts => t.weakSites false ++ weakSitesList ts

end

/-- Being the operand of an optional matters to a weak reference only. -/
theorem weakSites_inside {t : Ty} (ht : ∀ w ∈ t.weakSites false, w.wrapped = true)
    (inside : Bool) : t.weakSites inside = t.weakSites false := by
  cases t with
  | wrap w u =>
      cases w with
      | weak =>
          have hbare : false = true := ht ⟨u, false⟩ (by simp [weakSites])
          cases hbare
      | _ => rfl
  | _ => rfl

end Ty

namespace Registry

variable {r : Registry} {span : Span}

def siteProblems (r : Registry) (span : Span) (w : WeakSite) : List Problem :=
  (if w.wrapped then [] else [.weakUnwrapped w.target span]) ++
    (if r.observable w.target then [] else [.weakTarget w.target span])

/-- A weak reference in an optional to something that may be a class. -/
def Legal (r : Registry) (w : WeakSite) : Prop :=
  w.wrapped = true ∧ r.observable w.target = true

theorem siteProblems_eq_nil_iff {w : WeakSite} : r.siteProblems span w = [] ↔ r.Legal w := by
  simp [siteProblems, Legal]

mutual

/-- The problems of a type are those of its weak references. -/
theorem weakProblems_eq_flatMap (r : Registry) (span : Span) :
    ∀ (inside : Bool) (t : Ty),
      r.weakProblems span inside t = (t.weakSites inside).flatMap (r.siteProblems span)
  | inside, .wrap .weak t => by
    rw [weakProblems, Ty.weakSites, List.flatMap_cons, weakProblems_eq_flatMap r span false t]
    rfl
  | inside, .wrap .optional t => weakProblems_eq_flatMap r span true t
  | inside, .wrap .array t => weakProblems_eq_flatMap r span false t
  | inside, .wrap .rawPtr t => weakProblems_eq_flatMap r span false t
  | inside, .adt id name args => weakProblemsList_eq_sites r span args
  | inside, .unknown | inside, .void | inside, .bool | inside, .int _ | inside, .float _
  | inside, .str | inside, .param _ => rfl

theorem weakProblemsList_eq_sites (r : Registry) (span : Span) :
    ∀ ts : List Ty,
      r.weakProblemsList span ts = (Ty.weakSitesList ts).flatMap (r.siteProblems span)
  | [] => rfl
  | t :: ts => by
    rw [weakProblemsList, Ty.weakSitesList, List.flatMap_append,
      weakProblems_eq_flatMap r span false t, weakProblemsList_eq_sites r span ts]

end

/-- A type is accepted if all its weak references are legal. -/
theorem weakUse_eq_nil_iff {t : Ty} :
    r.weakUse span t = [] ↔ ∀ w ∈ t.weakSites false, r.Legal w := by
  rw [weakUse, weakProblems_eq_flatMap, List.flatMap_eq_nil_iff]
  simp only [siteProblems_eq_nil_iff]

/-- Whether a type is accepted does not depend on where it is written. -/
theorem weakUse_eq_nil_at {t : Ty} (ht : r.weakUse span t = []) (span' : Span) :
    r.weakUse span' t = [] :=
  weakUse_eq_nil_iff.2 (weakUse_eq_nil_iff.1 ht)

end Registry

/-! ## Substitution -/

/-- The replacements have no weak reference outside an optional. -/
def Subst.Wrapping (s : Subst) : Prop :=
  ∀ n t, s n = some t → ∀ w ∈ t.weakSites false, w.wrapped = true

namespace Ty

variable {s : Subst}

mutual

/-- A weak reference stays where it is when parameters are replaced. -/
theorem substitute_mem_weakSites (s : Subst) :
    ∀ {t : Ty} (inside : Bool) {w : WeakSite}, w ∈ t.weakSites inside →
      w.substitute s ∈ (t.substitute s).weakSites inside
  | .wrap .weak t, inside, w, hw => by
    rw [weakSites, List.mem_cons] at hw
    rw [substitute, weakSites, List.mem_cons]
    rcases hw with rfl | hw
    · exact Or.inl rfl
    · exact Or.inr (substitute_mem_weakSites s false hw)
  | .wrap .optional _, _, _, hw => substitute_mem_weakSites s true hw
  | .wrap .array _, _, _, hw => substitute_mem_weakSites s false hw
  | .wrap .rawPtr _, _, _, hw => substitute_mem_weakSites s false hw
  | .adt _ _ _, _, _, hw => substitute_mem_weakSitesList s hw

theorem substitute_mem_weakSitesList (s : Subst) :
    ∀ {ts : List Ty} {w : WeakSite}, w ∈ weakSitesList ts →
      w.substitute s ∈ weakSitesList (substituteList s ts)
  | t :: ts, w, hw => by
    rw [weakSitesList, List.mem_append] at hw
    rw [substituteList, weakSitesList, List.mem_append]
    exact hw.imp (substitute_mem_weakSites s false) (substitute_mem_weakSitesList s)

end

mutual

/-- A weak reference of a type with its parameters replaced was there before or came
in with a replacement. -/
theorem of_mem_weakSites_substitute (hs : s.Wrapping) :
    ∀ {t : Ty} (inside : Bool) {w : WeakSite}, w ∈ (t.substitute s).weakSites inside →
      (∃ v ∈ t.weakSites inside, v.substitute s = w) ∨
        ∃ n u, s n = some u ∧ w ∈ u.weakSites false
  | .wrap .weak t, inside, w, hw => by
    rw [substitute, weakSites, List.mem_cons] at hw
    rcases hw with rfl | hw
    · exact Or.inl ⟨⟨t, inside⟩, by simp [weakSites], rfl⟩
    · rcases of_mem_weakSites_substitute hs false hw with ⟨v, hv, rfl⟩ | hnew
      · exact Or.inl ⟨v, by simp [weakSites, hv], rfl⟩
      · exact Or.inr hnew
  | .wrap .optional _, _, _, hw => of_mem_weakSites_substitute hs true hw
  | .wrap .array _, _, _, hw => of_mem_weakSites_substitute hs false hw
  | .wrap .rawPtr _, _, _, hw => of_mem_weakSites_substitute hs false hw
  | .adt _ _ _, _, _, hw => of_mem_weakSitesList_substitute hs hw
  | .param n, inside, w, hw => by
    rw [substitute] at hw
    cases hn : s n with
    | none => simp [hn, weakSites] at hw
    | some u =>
        rw [hn, Option.getD_some, weakSites_inside (hs n u hn)] at hw
        exact Or.inr ⟨n, u, hn, hw⟩

theorem of_mem_weakSitesList_substitute (hs : s.Wrapping) :
    ∀ {ts : List Ty} {w : WeakSite}, w ∈ weakSitesList (substituteList s ts) →
      (∃ v ∈ weakSitesList ts, v.substitute s = w) ∨ ∃ n u, s n = some u ∧ w ∈ u.weakSites false
  | t :: ts, w, hw => by
    rw [substituteList, weakSitesList, List.mem_append] at hw
    have hlift : ∀ {vs : List WeakSite}, vs ⊆ weakSitesList (t :: ts) →
        (∃ v ∈ vs, v.substitute s = w) → ∃ v ∈ weakSitesList (t :: ts), v.substitute s = w := by
      rintro vs hvs ⟨v, hv, rfl⟩
      exact ⟨v, hvs hv, rfl⟩
    rcases hw with hw | hw
    · exact (of_mem_weakSites_substitute hs false hw).imp_left (hlift (List.subset_append_left _ _))
    · exact (of_mem_weakSitesList_substitute hs hw).imp_left (hlift (List.subset_append_right _ _))

end

end Ty

namespace Registry

variable {r : Registry} {span : Span} {s : Subst}

/-- Whether a type can be observed is seen from the outside, unless it is a
parameter. -/
theorem observable_substitute {t : Ty} (ht : r.observable t = true) :
    r.observable (t.substitute s) = true ↔
      ∀ n, t = .param n → r.observable ((s n).getD (.param n)) = true := by
  cases t with
  | param n => simp [Ty.substitute]
  | adt id name args => simpa [Ty.substitute, observable] using ht
  | unknown => simp [Ty.substitute, observable]
  | wrap w u => cases w <;> simp [observable] at ht
  | void | bool | int | float | str => simp [observable] at ht

end Registry

def Ty.observedParams (t : Ty) : List String :=
  (t.weakSites false).filterMap fun w =>
    match w.target with
    | .param n => some n
    | _ => none

theorem Ty.mem_observedParams_iff {t : Ty} {n : String} :
    n ∈ t.observedParams ↔ ∃ w ∈ t.weakSites false, w.target = .param n := by
  rw [observedParams, List.mem_filterMap]
  constructor
  · rintro ⟨w, hw, hn⟩
    refine ⟨w, hw, ?_⟩
    split at hn
    next m htarget => rw [htarget, Option.some.inj hn]
    next => cases hn
  · rintro ⟨w, hw, htarget⟩
    exact ⟨w, hw, by rw [htarget]⟩

namespace Registry

variable {r : Registry} {span : Span} {s : Subst} {t : Ty}

theorem wrapping_of_weakUse (hs : ∀ n u, s n = some u → r.weakUse span u = []) : s.Wrapping :=
  fun n u hn w hw => (weakUse_eq_nil_iff.1 (hs n u hn) w hw).1

/-- Accepted replacements leave the weak references of an accepted type in their
optionals. -/
theorem wrapped_of_mem_substitute (ht : r.weakUse span t = [])
    (hs : ∀ n u, s n = some u → r.weakUse span u = []) {w : WeakSite}
    (hw : w ∈ (t.substitute s).weakSites false) : w.wrapped = true := by
  have hwrapping := wrapping_of_weakUse hs
  rcases Ty.of_mem_weakSites_substitute hwrapping false hw with ⟨v, hv, rfl⟩ | ⟨n, u, hn, hw⟩
  · exact (weakUse_eq_nil_iff.1 ht v hv).1
  · exact hwrapping n u hn w hw

/-- With accepted replacements, an accepted type stays accepted exactly if the
parameters that it observes become observable. -/
theorem weakUse_substitute_iff (ht : r.weakUse span t = [])
    (hs : ∀ n u, s n = some u → r.weakUse span u = []) :
    r.weakUse span (t.substitute s) = [] ↔
      ∀ n ∈ t.observedParams, r.observable ((s n).getD (.param n)) = true := by
  have hdeclared := weakUse_eq_nil_iff.1 ht
  rw [weakUse_eq_nil_iff]
  constructor
  · intro hlegal n hn
    obtain ⟨w, hw, htarget⟩ := Ty.mem_observedParams_iff.1 hn
    have hobserved := (hlegal _ (Ty.substitute_mem_weakSites s false hw)).2
    exact (observable_substitute (hdeclared w hw).2).1 hobserved n htarget
  · intro hobserved w hw
    refine ⟨wrapped_of_mem_substitute ht hs hw, ?_⟩
    rcases Ty.of_mem_weakSites_substitute (wrapping_of_weakUse hs) false hw with
      ⟨v, hv, rfl⟩ | ⟨n, u, hn, hw⟩
    · refine (observable_substitute (hdeclared v hv).2).2 ?_
      intro n htarget
      exact hobserved n (Ty.mem_observedParams_iff.2 ⟨v, hv, htarget⟩)
    · exact (weakUse_eq_nil_iff.1 (hs n u hn) w hw).2

end Registry

/-! ## Instances -/

namespace Registry

variable {r : Registry} {span : Span}

/-- Where nothing is wrong with the declarations, every member is accepted. -/
theorem weakUse_member {sigs : Signatures} (hdeclared : r.declaredWeakUse sigs = []) {id : ℕ}
    {d : TypeDef} (hd : r.get? id = some d) {t : Ty} (ht : t ∈ d.shape.memberTypes) :
    r.weakUse span t = [] := by
  have hshape : r.shapeWeakUse d.shape = [] :=
    List.flatMap_eq_nil_iff.1 (List.append_eq_nil_iff.1 hdeclared).1 d (List.mem_of_getElem? hd)
  have hfields : ∀ {fs : List Field}, r.fieldWeakUse fs = [] → ∀ f ∈ fs,
      r.weakUse span f.type = [] := by
    intro fs hfs f hf
    exact weakUse_eq_nil_at (List.flatMap_eq_nil_iff.1 hfs f hf) span
  rcases List.mem_append.1 ht with ht | ht
  · obtain ⟨f, hf, rfl⟩ := List.mem_map.1 ht
    cases hcase : d.shape with
    | structType fs =>
        rw [hcase] at hshape hf
        exact hfields hshape f hf
    | classType fs ms =>
        rw [hcase] at hshape hf
        exact hfields (List.append_eq_nil_iff.1 hshape).1 f hf
    | enumType underlying vs => simp [hcase, Shape.fields] at hf
  · obtain ⟨v, hv, ht⟩ := List.mem_flatMap.1 ht
    cases hcase : d.shape with
    | structType fs | classType fs ms => simp [hcase, Shape.variants] at hv
    | enumType underlying vs =>
        rw [hcase] at hshape hv
        have hpayloads := List.flatMap_eq_nil_iff.1 hshape v hv
        exact weakUse_eq_nil_at (List.flatMap_eq_nil_iff.1 hpayloads t ht) span

/-- The members of an instance of an accepted definition keep their weak references in
optionals, and are accepted exactly if every parameter that a member observes is
replaced by a class or an unknown type. -/
theorem weakUse_instance_iff (r : Registry) (sigs : Signatures) (id : ℕ) (d : TypeDef)
    (args : List Ty) (span : Span) (hdeclared : r.declaredWeakUse sigs = [])
    (hd : r.get? id = some d) (harity : d.generics.length = args.length)
    (hargs : r.weakUse span (.adt id d.qualifiedName args) = []) :
    ∃ c, d.instantiate id args = .ok c ∧
      (∀ t ∈ c.shape.memberTypes, ∀ w ∈ t.weakSites false, w.wrapped = true) ∧
      ((∀ t ∈ c.shape.memberTypes, r.weakUse span t = []) ↔
        ∀ n ∈ d.shape.memberTypes.flatMap Ty.observedParams,
          r.observable ((d.subst args n).getD (.param n)) = true) := by
  have hreplaced : ∀ n u, d.subst args n = some u → r.weakUse span u = [] := by
    intro n u hn
    rw [weakUse, weakProblems, weakProblemsList_eq_flatMap, List.flatMap_eq_nil_iff] at hargs
    exact hargs u (Subst.mem_args_of_ofArgs hn)
  have hmembers : ∀ t ∈ d.shape.memberTypes, r.weakUse span t = [] := fun t ht =>
    weakUse_member hdeclared hd ht
  refine ⟨_, if_pos harity, ?_, ?_⟩
  · intro t ht w hw
    rw [Shape.memberTypes_substitute] at ht
    obtain ⟨u, hu, rfl⟩ := List.mem_map.1 ht
    exact wrapped_of_mem_substitute (hmembers u hu) hreplaced hw
  · rw [Shape.memberTypes_substitute, List.forall_mem_map]
    constructor
    · intro hlegal n hn
      obtain ⟨t, ht, hn⟩ := List.mem_flatMap.1 hn
      exact (weakUse_substitute_iff (hmembers t ht) hreplaced).1 (hlegal t ht) n hn
    · intro hobserved t ht
      refine (weakUse_substitute_iff (hmembers t ht) hreplaced).2 ?_
      intro n hn
      exact hobserved n (List.mem_flatMap.2 ⟨t, ht, hn⟩)

end Registry

namespace Watchers

def link : TypeRef := .applied "Optional" [.applied "Weak" [.named "T"]]

/-- A watcher links to the thing it watches and to the next watcher of it. -/
def program : Program where
  decls :=
    [.type (.classType ⟨⟨"Node", .nowhere⟩, [], [], []⟩),
      .type (.classType ⟨⟨"Watcher", .nowhere⟩, ["T"],
        [⟨"seen", link, .nowhere⟩,
          ⟨"next", .applied "Optional" [.applied "Watcher" [.named "T"]], .nowhere⟩], []⟩),
      .type (.enumType ⟨⟨"Event", .nowhere⟩, ["T"], none,
        [⟨⟨"lost", .nowhere⟩, .nowhere, none, .single link⟩]⟩)]

def session : Session := ((Session.start .default).register program).1.close.1

def nodes : Ty := .adt 0 "Node" []

def watcher (watched : Ty) : Ty := .adt 1 "Watcher" [watched]

def definition : TypeDef where
  name := "Watcher"
  space := []
  span := .nowhere
  generics := ["T"]
  shape := .classType
    [⟨"seen", .optional (.weak (.param "T")), .nowhere⟩,
      ⟨"next", .optional (watcher (.param "T")), .nowhere⟩] []

theorem declarations_accepted :
    session.registry.declaredWeakUse session.signatures = [] ∧
      session.registry.get? 1 = some definition := by
  decide +kernel

theorem weakUse_instance_iff_nodes :
    session.registry.weakUse .nowhere (watcher nodes) = [] ∧
      ∃ c, definition.instantiate 1 [nodes] = .ok c ∧
        ∀ t ∈ c.shape.memberTypes, session.registry.weakUse .nowhere t = [] := by
  have hargs : session.registry.weakUse .nowhere (watcher nodes) = [] := by decide
  obtain ⟨c, hc, -, hiff⟩ := Registry.weakUse_instance_iff session.registry session.signatures 1
    definition [nodes] .nowhere declarations_accepted.1 declarations_accepted.2 rfl hargs
  exact ⟨hargs, c, hc, hiff.2 (by decide)⟩

/-- A watcher of numbers is accepted although it observes a number. -/
theorem watched_number_accepted :
    session.registry.declaredWeakUse session.signatures = [] ∧
      session.registry.get? 1 = some definition ∧ (Ty.int .i32).hasParams = false ∧
      session.registry.weakUse .nowhere (watcher (.int .i32)) = [] ∧
      ∃ c, definition.instantiate 1 [.int .i32] = .ok c ∧
        ∃ f ∈ c.shape.fields, session.registry.weakUse .nowhere f.type ≠ [] :=
  ⟨declarations_accepted.1, declarations_accepted.2, rfl, by decide, _, rfl,
    ⟨"seen", .optional (.weak (.int .i32)), .nowhere⟩, by decide, by decide⟩

end Watchers

end ProgramSafety
