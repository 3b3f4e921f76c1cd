import Mathlib.Data.Finset.Basic
import ProgramSafety.Proofs.Ownership.CountedPath
import ProgramSafety.Proofs.Typing.Declared
import ProgramSafety.Proofs.Typing.Substitution

/-!
# The search for counted paths, step by step

The search for counted paths can be carried out with a set of the definitions that are being
visited: a definition is put into the set when it is entered, taken out when it is left, and
not entered while it is in the set. `Registry.HoldsRun` and `Registry.PathsRun` are the
finished runs of such a search, with the set before and after. Members are looked at one after
the other, each with the set that the one before it has left.

A finished run leaves the set as it was and finds what `Registry.holdsCounted` and
`Registry.pathsWithin` find (`Registry.HoldsRun.result`, `Registry.PathsRun.result`), and from
every set and every type there is one (`Registry.exists_holdsRun`, `Registry.exists_pathsRun`).
A type may grow each time it is unfolded, so its size bounds nothing. What bounds the search
are the definitions outside of the set, of which there is one less with each one entered.
-/

namespace ProgramSafety

namespace Ty

def Registered (r : Registry) (t : Ty) : Prop :=
  ∀ id name args, (adt id name args).Occurs t → ∃ d, r.get? id = some d

variable {r : Registry} {s : Subst} {t : Ty}

theorem Formed.registered {generics : List String} (ht : t.Formed r generics) : t.Registered r := by
  intro id name args hocc
  obtain ⟨d, hd, -⟩ := ht.adt id name args hocc
  exact ⟨d, hd⟩

theorem Registered.operand {w : Wrapper} (h : (wrap w t).Registered r) : t.Registered r :=
  fun id name args hocc => h id name args (.operand hocc)

theorem Registered.arg {id : ℕ} {name : String} {args : List Ty}
    (h : (adt id name args).Registered r) (ht : t ∈ args) : t.Registered r :=
  fun id name args hocc => h id name args (.arg ht hocc)

theorem Registered.exists_def {id : ℕ} {name : String} {args : List Ty}
    (h : (adt id name args).Registered r) : ∃ d, r.get? id = some d :=
  h id name args .here

mutual

theorem Registered.substitute (hs : ∀ n u, s n = some u → u.Registered r) :
    ∀ {t : Ty}, t.Registered r → (t.substitute s).Registered r
  | param n, ht => by
    rw [Ty.substitute]
    cases hn : s n with
    | none => exact ht
    | some u => exact hs n u hn
  | adt id name args, ht => by
    intro id' name' args' hocc
    rw [Ty.substitute, occurs_adt_iff] at hocc
    rcases hocc with heq | ⟨u, hu, hocc⟩
    · obtain ⟨rfl, -⟩ := Ty.adt.inj heq
      exact ht.exists_def
    · exact Registered.substituteList hs (fun t ht' => ht.arg ht') u hu _ _ _ hocc
  | wrap w t, ht => by
    intro id name args hocc
    rw [Ty.substitute, occurs_wrap_iff] at hocc
    exact Registered.substitute hs ht.operand _ _ _ (hocc.resolve_left (by simp))
  | unknown, ht | void, ht | bool, ht | int _, ht | float _, ht | str, ht => ht

theorem Registered.substituteList (hs : ∀ n u, s n = some u → u.Registered r) :
    ∀ {ts : List Ty}, (∀ t ∈ ts, t.Registered r) → ∀ u ∈ substituteList s ts, u.Registered r
  | [], _, u, hu => by cases hu
  | t :: ts, hts, u, hu => by
    rw [Ty.substituteList, List.mem_cons] at hu
    rcases hu with rfl | hu
    · exact Registered.substitute hs (hts t List.mem_cons_self)
    · exact Registered.substituteList hs (fun t ht => hts t (List.mem_cons_of_mem _ ht)) u hu

end

end Ty

namespace Registry

variable {r : Registry} {t u : Ty} {id : ℕ} {tname : String} {args : List Ty} {d : TypeDef}

theorem registered_member (ht : (Ty.adt id tname args).Registered r) {m : Ty}
    (hm : m.Formed r d.generics) : (m.substitute (d.subst args)).Registered r :=
  hm.registered.substitute fun _ _ hn => ht.arg (Subst.mem_args_of_ofArgs hn)

theorem WellFormed.registered_heldTypes (hr : r.WellFormed) (hd : r.get? id = some d)
    (ht : (Ty.adt id tname args).Registered r) (hu : u ∈ d.heldTypes args) : u.Registered r := by
  have hshape := hr.shapes id d hd
  unfold TypeDef.heldTypes at hu
  split at hu
  next underlying variants heq =>
    obtain ⟨m, hm, rfl⟩ := List.mem_map.1 hu
    obtain ⟨v, hv, hm⟩ := List.mem_flatMap.1 hm
    rw [heq] at hshape
    exact registered_member ht (hshape.variants v hv m hm)
  next =>
    obtain ⟨f, hf, rfl⟩ := List.mem_map.1 hu
    exact registered_member ht (hshape.fields f hf)

theorem WellFormed.registered_structFields (hr : r.WellFormed) {fields : List (String × Ty)}
    (ht : (Ty.adt id tname args).Registered r)
    (hs : r.structFieldsOf? (.adt id tname args) = some fields) {f : String × Ty}
    (hf : f ∈ fields) : f.2.Registered r := by
  obtain ⟨d, hd, hfields⟩ := Option.bind_eq_some_iff.1 hs
  have hshape := hr.shapes id d hd
  unfold TypeDef.structFields? at hfields
  split at hfields
  next fs heq =>
    obtain rfl := Option.some.inj hfields
    obtain ⟨field, hfield, rfl⟩ := List.mem_map.1 hf
    rw [heq] at hshape
    exact registered_member ht (hshape.fields field hfield)
  next => cases hfields

/-! ## Runs of the search -/

/-- What is asked: whether a type holds a counted reference, or one of several types. -/
inductive Question where
  | type (t : Ty)
  | any (ts : List Ty)

/-- A finished search for a counted reference, with the definitions that are being visited
before and after it. -/
inductive HoldsRun (r : Registry) : Finset ℕ → Question → Bool → Finset ℕ → Prop where
  | shared {v : Finset ℕ} {t : Ty} (hk : r.kindOf t = .sharedRef) : HoldsRun r v (.type t) true v
  | uncounted {v : Finset ℕ} {t : Ty} (hk : r.kindOf t = .weakRef ∨ r.kindOf t = .rawPointer) :
      HoldsRun r v (.type t) false v
  | optional {v v' : Finset ℕ} {t : Ty} {found : Bool} (hk : r.kindOf t = .value)
      (hrun : HoldsRun r v (.type t) found v') : HoldsRun r v (.type (.optional t)) found v'
  | visiting {v : Finset ℕ} {id : ℕ} {name : String} {args : List Ty}
      (hk : r.kindOfDef id = .value) (hid : id ∈ v) : HoldsRun r v (.type (.adt id name args)) false v
  | enter {v v' : Finset ℕ} {id : ℕ} {name : String} {args : List Ty} {d : TypeDef} {found : Bool}
      (hk : r.kindOfDef id = .value) (hid : id ∉ v) (hd : r.get? id = some d)
      (hrun : HoldsRun r (insert id v) (.any (d.heldTypes args)) found v') :
      HoldsRun r v (.type (.adt id name args)) found (v'.erase id)
  | leaf {v : Finset ℕ} {t : Ty} (hk : r.kindOf t = .value) (hopt : ∀ u, t ≠ .optional u)
      (hadt : ∀ id name args, t ≠ .adt id name args) : HoldsRun r v (.type t) false v
  | none {v : Finset ℕ} : HoldsRun r v (.any []) false v
  | first {v v' : Finset ℕ} {t : Ty} {ts : List Ty} (hrun : HoldsRun r v (.type t) true v') :
      HoldsRun r v (.any (t :: ts)) true v'
  | later {v v' v'' : Finset ℕ} {t : Ty} {ts : List Ty} {found : Bool}
      (hrun : HoldsRun r v (.type t) false v') (hrest : HoldsRun r v' (.any ts) found v'') :
      HoldsRun r v (.any (t :: ts)) found v''

inductive Place where
  | type (t : Ty)
  | fields (fs : List (String × Ty))

/-- A finished search for counted paths, with the definitions that are being visited before
and after it. -/
inductive PathsRun (r : Registry) : Finset ℕ → Place → List FieldPath → Finset ℕ → Prop where
  | shared {v : Finset ℕ} {t : Ty} (hk : r.kindOf t = .sharedRef) : PathsRun r v (.type t) [[]] v
  | uncounted {v : Finset ℕ} {t : Ty} (hk : r.kindOf t = .weakRef ∨ r.kindOf t = .rawPointer) :
      PathsRun r v (.type t) [] v
  | visiting {v : Finset ℕ} {id : ℕ} {name : String} {args : List Ty}
      {fields : List (String × Ty)} (hs : r.structFieldsOf? (.adt id name args) = some fields)
      (hid : id ∈ v) : PathsRun r v (.type (.adt id name args)) [] v
  | enter {v v' : Finset ℕ} {id : ℕ} {name : String} {args : List Ty}
      {fields : List (String × Ty)} {ps : List FieldPath}
      (hs : r.structFieldsOf? (.adt id name args) = some fields) (hid : id ∉ v)
      (hrun : PathsRun r (insert id v) (.fields fields) ps v') :
      PathsRun r v (.type (.adt id name args)) ps (v'.erase id)
  | whole {v v' : Finset ℕ} {t : Ty} {found : Bool} (hk : r.kindOf t = .value)
      (hs : r.structFieldsOf? t = none) (hrun : r.HoldsRun v (.type t) found v') :
      PathsRun r v (.type t) (if found then [[]] else []) v'
  | nil {v : Finset ℕ} : PathsRun r v (.fields []) [] v
  | cons {v v' v'' : Finset ℕ} {name : String} {t : Ty} {fs : List (String × Ty)}
      {ps qs : List FieldPath} (hrun : PathsRun r v (.type t) ps v')
      (hrest : PathsRun r v' (.fields fs) qs v'') :
      PathsRun r v (.fields ((name, t) :: fs)) (ps.map (name :: ·) ++ qs) v''

def unvisited (r : Registry) (v : Finset ℕ) : List ℕ :=
  (List.range r.defs.length).filter (· ∉ v)

variable {v v' : Finset ℕ} {q : Question} {place : Place} {found : Bool} {ps : List FieldPath}

theorem mem_unvisited_iff (hd : r.get? id = some d) : id ∈ r.unvisited v ↔ id ∉ v := by
  have hlt : id < r.defs.length := (List.getElem?_eq_some_iff.1 hd).1
  simp [unvisited, hlt]

theorem notMem_unvisited (hid : id ∈ v) : id ∉ r.unvisited v := by
  simp [unvisited, hid]

theorem unvisited_insert (r : Registry) (id : ℕ) (v : Finset ℕ) :
    r.unvisited (insert id v) = (r.unvisited v).erase id := by
  have hnodup : (r.unvisited v).Nodup := List.nodup_range.filter _
  rw [hnodup.erase_eq_filter, unvisited, unvisited, List.filter_filter]
  apply List.filter_congr
  intro i _
  by_cases hi : i = id <;> simp [hi]

theorem unvisited_empty (r : Registry) : r.unvisited ∅ = List.range r.defs.length := by
  simp [unvisited]

/-! ## What runs find -/

theorem holdsCounted_of_sharedRef {unseen : List ℕ} (hk : r.kindOf t = .sharedRef) :
    r.holdsCounted unseen t = true := by
  unfold holdsCounted
  rw [hk]

theorem holdsCounted_of_uncounted {unseen : List ℕ}
    (hk : r.kindOf t = .weakRef ∨ r.kindOf t = .rawPointer) : r.holdsCounted unseen t = false := by
  unfold holdsCounted
  rcases hk with hk | hk <;> rw [hk]

theorem holdsCounted_optional {unseen : List ℕ} (hk : r.kindOf t = .value) :
    r.holdsCounted unseen (.optional t) = r.holdsCounted unseen t := by
  rw [holdsCounted, kindOf_optional, hk]

theorem holdsCounted_of_notMem {unseen : List ℕ} (hk : r.kindOfDef id = .value)
    (hid : id ∉ unseen) : r.holdsCounted unseen (.adt id tname args) = false := by
  rw [holdsCounted, kindOf_adt, hk]
  exact if_neg hid

theorem holdsCounted_of_mem {unseen : List ℕ} (hk : r.kindOfDef id = .value) (hid : id ∈ unseen)
    (hd : r.get? id = some d) : r.holdsCounted unseen (.adt id tname args) =
      (d.heldTypes args).any (r.holdsCounted (unseen.erase id)) := by
  rw [holdsCounted, kindOf_adt, hk]
  simp only [if_pos hid, hd]

theorem holdsCounted_of_leaf {unseen : List ℕ} (hk : r.kindOf t = .value)
    (hopt : ∀ u, t ≠ .optional u) (hadt : ∀ id name args, t ≠ .adt id name args) :
    r.holdsCounted unseen t = false := by
  unfold holdsCounted
  rw [hk]
  dsimp only
  split
  next u => exact absurd rfl (hopt u)
  next id name args => exact absurd rfl (hadt id name args)
  next => rfl

def answer (r : Registry) (unseen : List ℕ) : Question → Bool
  | .type t => r.holdsCounted unseen t
  | .any ts => ts.any (r.holdsCounted unseen)

theorem answer_any_cons (unseen : List ℕ) (t : Ty) (ts : List Ty) :
    r.answer unseen (.any (t :: ts)) = (r.answer unseen (.type t) || r.answer unseen (.any ts)) :=
  List.any_cons

/-- A run leaves the set as it was, and its answer depends on the set alone. -/
theorem HoldsRun.result (h : r.HoldsRun v q found v') :
    v' = v ∧ found = r.answer (r.unvisited v) q := by
  induction h with
  | shared hk => exact ⟨rfl, (holdsCounted_of_sharedRef hk).symm⟩
  | uncounted hk => exact ⟨rfl, (holdsCounted_of_uncounted hk).symm⟩
  | optional hk _ ih => exact ⟨ih.1, ih.2.trans (holdsCounted_optional hk).symm⟩
  | visiting hk hid =>
      exact ⟨rfl, (holdsCounted_of_notMem hk (notMem_unvisited hid)).symm⟩
  | enter hk hid hd _ ih =>
      obtain ⟨rfl, hfound⟩ := ih
      rw [unvisited_insert] at hfound
      refine ⟨Finset.erase_insert hid, hfound.trans ?_⟩
      exact (holdsCounted_of_mem hk ((mem_unvisited_iff hd).2 hid) hd).symm
  | leaf hk hopt hadt => exact ⟨rfl, (holdsCounted_of_leaf hk hopt hadt).symm⟩
  | none => exact ⟨rfl, rfl⟩
  | first _ ih =>
      rw [answer_any_cons, ← ih.2]
      exact ⟨ih.1, rfl⟩
  | later _ _ ih ihrest =>
      obtain ⟨rfl, hhead⟩ := ih
      rw [answer_any_cons, ← hhead]
      exact ihrest

def pathsAt (r : Registry) (unseen : List ℕ) : Place → List FieldPath
  | .type t => r.pathsWithin unseen t
  | .fields fs => fs.flatMap fun (name, t) => (r.pathsWithin unseen t).map (name :: ·)

theorem pathsWithin_of_uncounted {unseen : List ℕ}
    (hk : r.kindOf t = .weakRef ∨ r.kindOf t = .rawPointer) : r.pathsWithin unseen t = [] := by
  unfold pathsWithin
  rcases hk with hk | hk <;> rw [hk]

theorem pathsWithin_struct {unseen : List ℕ} {fields : List (String × Ty)}
    (hs : r.structFieldsOf? (.adt id tname args) = some fields) :
    r.pathsWithin unseen (.adt id tname args) =
      if id ∈ unseen then r.pathsAt (unseen.erase id) (.fields fields) else [] := by
  have hk := kindOf_of_structFieldsOf? hs
  have hfields : (r.get? id).bind (·.structFields? args) = some fields := hs
  unfold pathsWithin
  rw [hk]
  simp only [hfields]
  rfl

/-- A run leaves the set as it was, and the paths that it finds depend on the set alone. -/
theorem PathsRun.result (h : r.PathsRun v place ps v') :
    v' = v ∧ ps = r.pathsAt (r.unvisited v) place := by
  induction h with
  | shared hk => exact ⟨rfl, (pathsWithin_of_sharedRef hk).symm⟩
  | uncounted hk => exact ⟨rfl, (pathsWithin_of_uncounted hk).symm⟩
  | visiting hs hid =>
      rw [pathsAt, pathsWithin_struct hs, if_neg (notMem_unvisited hid)]
      exact ⟨rfl, rfl⟩
  | enter hs hid _ ih =>
      obtain ⟨rfl, hps⟩ := ih
      obtain ⟨d, hd, -⟩ := Option.bind_eq_some_iff.1 hs
      rw [unvisited_insert] at hps
      rw [pathsAt, pathsWithin_struct hs, if_pos ((mem_unvisited_iff hd).2 hid)]
      exact ⟨Finset.erase_insert hid, hps⟩
  | whole hk hs hrun =>
      obtain ⟨rfl, hfound⟩ := hrun.result
      rw [pathsAt, pathsWithin_of_whole hk hs, hfound]
      exact ⟨rfl, rfl⟩
  | nil => exact ⟨rfl, rfl⟩
  | cons _ _ ih ihrest =>
      obtain ⟨rfl, hps⟩ := ih
      obtain ⟨rfl, hqs⟩ := ihrest
      rw [hps, hqs]
      exact ⟨rfl, rfl⟩

/-! ## Runs from every set -/

theorem exists_holdsRun_any {ts : List Ty}
    (hts : ∀ t ∈ ts, ∃ found v', r.HoldsRun v (.type t) found v') :
    ∃ found v', r.HoldsRun v (.any ts) found v' := by
  induction ts with
  | nil => exact ⟨false, v, .none⟩
  | cons t ts ih =>
      obtain ⟨found, v', hrun⟩ := hts t List.mem_cons_self
      obtain ⟨rfl, -⟩ := hrun.result
      cases found with
      | true => exact ⟨true, v', .first hrun⟩
      | false =>
          obtain ⟨found, v'', hrest⟩ := ih fun u hu => hts u (List.mem_cons_of_mem _ hu)
          exact ⟨found, v'', .later hrun hrest⟩

/-- A search for a counted reference ends, whatever is being visited. The induction is on the
definitions that may still be entered, and on the size of the type while none is. -/
theorem exists_holdsRun (hr : r.WellFormed) (v : Finset ℕ) (ht : t.Registered r) :
    ∃ found v', r.HoldsRun v (.type t) found v' := by
  generalize hunseen : r.unvisited v = unseen
  fun_induction r.holdsCounted unseen t generalizing v with
  | case1 unseen t hk => exact ⟨true, v, .shared hk⟩
  | case2 unseen t hk => exact ⟨false, v, .uncounted (Or.inl hk)⟩
  | case3 unseen t hk => exact ⟨false, v, .uncounted (Or.inr hk)⟩
  | case4 unseen u hk ih =>
      obtain ⟨found, v', hrun⟩ := ih v ht.operand hunseen
      exact ⟨found, v', .optional hk hrun⟩
  | case5 unseen id name args hid d hd hk ih =>
      subst hunseen
      have hmembers : ∀ u ∈ d.heldTypes args,
          ∃ found v', r.HoldsRun (insert id v) (.type u) found v' := fun u hu =>
        ih u (insert id v) (hr.registered_heldTypes hd ht hu) (r.unvisited_insert id v)
      obtain ⟨found, v', hrun⟩ := exists_holdsRun_any hmembers
      exact ⟨found, _, .enter hk ((mem_unvisited_iff hd).1 hid) hd hrun⟩
  | case6 unseen id name args hid hd hk =>
      obtain ⟨d, hd'⟩ := ht.exists_def
      cases hd.symm.trans hd'
  | case7 unseen id name args hid hk =>
      subst hunseen
      obtain ⟨d, hd⟩ := ht.exists_def
      have hvisited : id ∈ v := by
        by_contra hid'
        exact hid ((mem_unvisited_iff hd).2 hid')
      exact ⟨false, v, .visiting hk hvisited⟩
  | case8 unseen t hk hopt hadt =>
      exact ⟨false, v, .leaf hk (fun u hu => hopt u hu) fun id name args hu => hadt id name args hu⟩

theorem exists_pathsRun_fields {fs : List (String × Ty)}
    (hfs : ∀ f ∈ fs, ∃ ps v', r.PathsRun v (.type f.2) ps v') :
    ∃ ps v', r.PathsRun v (.fields fs) ps v' := by
  induction fs with
  | nil => exact ⟨[], v, .nil⟩
  | cons f fs ih =>
      obtain ⟨ps, v', hrun⟩ := hfs f List.mem_cons_self
      obtain ⟨rfl, -⟩ := hrun.result
      obtain ⟨qs, v'', hrest⟩ := ih fun g hg => hfs g (List.mem_cons_of_mem _ hg)
      exact ⟨_, v'', .cons hrun hrest⟩

theorem exists_pathsRun_whole (hr : r.WellFormed) (v : Finset ℕ) (ht : t.Registered r)
    (hk : r.kindOf t = .value) (hs : r.structFieldsOf? t = none) :
    ∃ ps v', r.PathsRun v (.type t) ps v' := by
  obtain ⟨found, v', hrun⟩ := exists_holdsRun hr v ht
  exact ⟨_, v', .whole hk hs hrun⟩

/-- A search for counted paths ends, whatever is being visited. -/
theorem exists_pathsRun (hr : r.WellFormed) (v : Finset ℕ) (ht : t.Registered r) :
    ∃ ps v', r.PathsRun v (.type t) ps v' := by
  generalize hunseen : r.unvisited v = unseen
  fun_induction r.pathsWithin unseen t generalizing v with
  | case1 unseen t hk => exact ⟨_, v, .shared hk⟩
  | case2 unseen t hk => exact ⟨_, v, .uncounted (Or.inl hk)⟩
  | case3 unseen t hk => exact ⟨_, v, .uncounted (Or.inr hk)⟩
  | case4 unseen id tname args fields hs hid hk ih =>
      subst hunseen
      obtain ⟨d, hd⟩ := ht.exists_def
      have hmembers : ∀ f ∈ fields, ∃ ps v', r.PathsRun (insert id v) (.type f.2) ps v' :=
        fun f hf => ih f.2 (insert id v) (hr.registered_structFields ht hs hf)
          (r.unvisited_insert id v)
      obtain ⟨ps, v', hrun⟩ := exists_pathsRun_fields hmembers
      exact ⟨ps, _, .enter hs ((mem_unvisited_iff hd).1 hid) hrun⟩
  | case5 unseen id tname args fields hs hid hk =>
      subst hunseen
      obtain ⟨d, hd⟩ := ht.exists_def
      have hvisited : id ∈ v := by
        by_contra hid'
        exact hid ((mem_unvisited_iff hd).2 hid')
      exact ⟨_, v, .visiting hs hvisited⟩
  | case6 unseen id tname args hs hk => exact exists_pathsRun_whole hr v ht hk hs
  | case7 unseen t hk hadt =>
      have hs : r.structFieldsOf? t = none := by
        cases t with
        | adt id name args => exact absurd rfl (hadt id name args)
        | _ => rfl
      exact exists_pathsRun_whole hr v ht hk hs

theorem holdsRun_iff (hr : r.WellFormed) (ht : t.Registered r) :
    r.HoldsRun v (.type t) found v' ↔ found = r.holdsCounted (r.unvisited v) t ∧ v' = v := by
  constructor
  · intro hrun
    exact hrun.result.symm
  · rintro ⟨rfl, rfl⟩
    obtain ⟨found, v', hrun⟩ := exists_holdsRun hr v' ht
    obtain ⟨rfl, rfl⟩ := hrun.result
    exact hrun

theorem pathsRun_iff (hr : r.WellFormed) (ht : t.Registered r) :
    r.PathsRun v (.type t) ps v' ↔ ps = r.pathsWithin (r.unvisited v) t ∧ v' = v := by
  constructor
  · intro hrun
    exact hrun.result.symm
  · rintro ⟨rfl, rfl⟩
    obtain ⟨ps, v', hrun⟩ := exists_pathsRun hr v' ht
    obtain ⟨rfl, rfl⟩ := hrun.result
    exact hrun

end Registry

/-! ## Remembered paths -/

namespace PathMemo

variable {r : Registry} {m : PathMemo}

def Sound (r : Registry) (m : PathMemo) : Prop :=
  ∀ t ps, m.known.lookup t = some ps → ps = r.countedPaths t

theorem sound_empty : empty.Sound r := by
  intro t ps h
  simp [empty] at h

theorem query_fst (hm : m.Sound r) (t : Ty) : (m.query r t).1 = r.countedPaths t := by
  unfold query
  split
  next ps hknown => exact hm t ps hknown
  next => rfl

theorem Sound.query (hm : m.Sound r) (t : Ty) : (m.query r t).2.Sound r := by
  unfold PathMemo.query
  split
  · exact hm
  · intro u ps h
    rw [List.lookup_cons] at h
    split at h
    next heq =>
      obtain rfl : u = t := by simpa using heq
      exact (Option.some.inj h).symm
    next => exact hm u ps h

def after (m : PathMemo) (r : Registry) (asked : List Ty) : PathMemo :=
  asked.foldl (fun m t => (m.query r t).2) m

theorem Sound.after (hm : m.Sound r) (asked : List Ty) : (m.after r asked).Sound r := by
  induction asked generalizing m with
  | nil => exact hm
  | cons t asked ih => exact ih (hm.query t)

theorem queryAll_eq (hm : m.Sound r) (asked : List Ty) :
    m.queryAll r asked = asked.map r.countedPaths := by
  induction asked generalizing m with
  | nil => rfl
  | cons t asked ih =>
      rw [queryAll, List.map_cons]
      dsimp only
      rw [query_fst hm, ih (hm.query t)]

end PathMemo

namespace Registry

/-- In a well-formed registry both searches end on every type over it, whatever is being
visited, with one result each, and leave the set of visited definitions as they found it. What
is remembered of earlier searches makes no difference: a type that is asked for after any other
types has the paths that a search finds which starts with nothing visited. -/
theorem countedPaths_history_free (r : Registry) (hr : r.WellFormed) :
    (∀ (v : Finset ℕ) (t : Ty), t.Registered r →
      (∀ found v', r.HoldsRun v (.type t) found v' ↔
        found = r.holdsCounted (r.unvisited v) t ∧ v' = v) ∧
      ∀ ps v', r.PathsRun v (.type t) ps v' ↔
        ps = r.pathsWithin (r.unvisited v) t ∧ v' = v) ∧
    (∀ (asked : List Ty) (t : Ty), t.Registered r → ∀ ps,
      ((PathMemo.empty.after r asked).query r t).1 = ps ↔ r.PathsRun ∅ (.type t) ps ∅) ∧
    ∀ asked : List Ty, PathMemo.empty.queryAll r asked = asked.map r.countedPaths := by
  refine ⟨fun v t ht => ⟨fun _ _ => holdsRun_iff hr ht, fun _ _ => pathsRun_iff hr ht⟩, ?_,
    PathMemo.queryAll_eq PathMemo.sound_empty⟩
  intro asked t ht ps
  rw [PathMemo.query_fst (PathMemo.sound_empty.after asked), pathsRun_iff hr ht, unvisited_empty,
    and_iff_left rfl]
  exact eq_comm

/-! ## Definitions that lead back to themselves

A struct with a field of itself at a larger argument, and a struct and an enum that hold each
other. -/

def recursiveProgram : Program :=
  ⟨[.type (.classType ⟨⟨"Cell", ⟨0, 0⟩⟩, [], [], []⟩),
    .type (.structType ⟨⟨"Grow", ⟨0, 0⟩⟩, ["T"],
      [⟨"item", .named "T", ⟨0, 0⟩⟩,
       ⟨"next", .applied "Optional" [.applied "Grow" [.applied "Grow" [.named "T"]]], ⟨0, 0⟩⟩]⟩),
    .type (.structType ⟨⟨"Left", ⟨0, 0⟩⟩, [],
      [⟨"right", .named "Right", ⟨0, 0⟩⟩, ⟨"cell", .named "Cell", ⟨0, 0⟩⟩]⟩),
    .type (.enumType ⟨⟨"Right", ⟨0, 0⟩⟩, [], none,
      [⟨⟨"none", ⟨0, 0⟩⟩, ⟨0, 0⟩, none, .unit⟩,
       ⟨⟨"back", ⟨0, 0⟩⟩, ⟨0, 0⟩, none, .single (.named "Left")⟩]⟩)]⟩

def growOf (t : Ty) : Ty := .adt 1 "Grow" [t]

def rightType : Ty := .adt 3 "Right" []

def recursive : Registry := (empty.declare recursiveProgram).1

theorem wellFormed_recursive : recursive.WellFormed := wellFormed_empty.declare recursiveProgram

theorem registered_growOf_right : (growOf rightType).Registered recursive := by
  intro id name args hocc
  rcases Ty.occurs_adt_iff.1 hocc with heq | ⟨t, ht, hocc⟩
  · cases heq
    exact ⟨_, rfl⟩
  · obtain rfl := List.mem_singleton.1 ht
    rcases Ty.occurs_adt_iff.1 hocc with heq | ⟨t, ht, -⟩
    · cases heq
      exact ⟨_, rfl⟩
    · cases ht

/-- Searches in a type that grows without end, from nothing and with its struct being visited,
and a question about it after other questions. -/
theorem countedPaths_history_free_growOf :
    recursive.WellFormed ∧ (growOf rightType).Registered recursive ∧
      recursive.PathsRun ∅ (.type (growOf rightType)) [["item"]] ∅ ∧
      recursive.PathsRun {1} (.type (growOf rightType)) [] {1} ∧
      ((PathMemo.empty.after recursive [growOf (growOf rightType), rightType]).query recursive
        (growOf rightType)).1 = [["item"]] := by
  obtain ⟨hruns, hmemo, -⟩ := countedPaths_history_free recursive wellFormed_recursive
  have hfound : recursive.pathsWithin (recursive.unvisited ∅) (growOf rightType) = [["item"]] := by
    rw [unvisited_empty]
    cbv
  have hrun : recursive.PathsRun ∅ (.type (growOf rightType)) [["item"]] ∅ :=
    ((hruns ∅ _ registered_growOf_right).2 _ _).2 ⟨hfound.symm, rfl⟩
  refine ⟨wellFormed_recursive, registered_growOf_right, hrun, .visiting rfl (by simp), ?_⟩
  exact (hmemo _ _ registered_growOf_right _).2 hrun

end Registry

end ProgramSafety
