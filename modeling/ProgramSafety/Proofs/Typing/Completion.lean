import ProgramSafety.Proofs.Typing.Numbering

/-!
# Declarations under new names

Members are filled in one definition after the other, each resolved against the registry
as it stands by then. Filling in changes neither names nor parameters, and these are all
that resolution sees of a definition, so members might as well all be resolved against the
registry of names (`Registry.declare_eq`). Declaring a program whose types have names that
are not taken yet adds them to the registry in the order of declaration
(`Registry.declare_of_fresh`). A declaration that reports nothing is of this kind
(`Registry.fresh_of_declare`).
-/

namespace ProgramSafety

def Program.typeKeys (p : Program) : List (Namespace × String) :=
  p.typeDecls.map fun x => (x.1, x.2.name.name)

namespace Registry

variable {r r' named : Registry} {ds : List (Namespace × TypeDecl)} {p : Program}

/-- The registry with more names, whose members are not known yet. -/
def withNames (r : Registry) (ds : List (Namespace × TypeDecl)) : Registry := (r.registerAll ds).1

/-- The definition that a declaration makes, its members read against the registry. -/
def completed (r : Registry) (x : Namespace × TypeDecl) : TypeDef :=
  { blank x.1 x.2 with shape := r.shape x.1 x.2 }

def Fresh (r : Registry) (ds : List (Namespace × TypeDecl)) : Prop :=
  (r.keys ++ ds.map fun x => (x.1, x.2.name.name)).Nodup

/-! ## Members -/

theorem Renumbers.refl (r : Registry) : Renumbers id r r where
  moves _ d hd := ⟨d, hd, rfl, rfl⟩
  lookup? space name := by rw [Option.map_id, id]

theorem Renumbers.setShape (h : Renumbers id named r) (i : ℕ) (s : Shape) :
    Renumbers id named (r.setShape i s) where
  moves j d hd := by
    obtain ⟨d', hd', hkey, hgenerics⟩ := h.moves j d hd
    obtain ⟨d'', hd'', hkey', hgenerics'⟩ := r.extends_setShape i s _ d' hd'
    exact ⟨d'', hd'', hkey'.trans hkey, hgenerics'.trans hgenerics⟩
  lookup? := h.lookup?

theorem renumbers_fill (h : Renumbers id named r) (placed : List (ℕ × Namespace × TypeDecl)) :
    Renumbers id named (r.fill placed).1 := by
  induction placed generalizing r with
  | nil => exact h
  | cons x placed ih => exact ih (h.setShape x.1 _)

/-- Members filled in against a registry with the same names and parameters. -/
theorem fill_eq (h : Renumbers id named r) (placed : List (ℕ × Namespace × TypeDecl)) :
    r.fill placed =
      (placed.foldl (fun acc x => acc.setShape x.1 (named.shape x.2.1 x.2.2)) r,
        placed.flatMap fun x => named.shapeProblems x.2.1 x.2.2) := by
  induction placed generalizing r with
  | nil => rfl
  | cons x placed ih =>
      obtain ⟨id, space, d⟩ := x
      have hshape : r.shape space d = named.shape space d :=
        (h.shape space d).trans (Shape.renumber_id _)
      rw [fill, ih (h.setShape id _), hshape, h.shapeProblems]
      rfl

/-- All members are resolved as if against the registry of names. -/
theorem declare_eq (r : Registry) (p : Program) :
    r.declare p =
      ((r.registerAll p.typeDecls).2.1.foldl
          (fun acc x => acc.setShape x.1 ((r.withNames p.typeDecls).shape x.2.1 x.2.2))
          (r.withNames p.typeDecls),
        (r.registerAll p.typeDecls).2.2 ++ (r.registerAll p.typeDecls).2.1.flatMap
          fun x => (r.withNames p.typeDecls).shapeProblems x.2.1 x.2.2) := by
  have hfill := fill_eq (Renumbers.refl (r.withNames p.typeDecls)) (r.registerAll p.typeDecls).2.1
  rw [declare]
  dsimp only [withNames] at hfill ⊢
  rw [hfill]

theorem renumbers_declare (r : Registry) (p : Program) :
    Renumbers id (r.withNames p.typeDecls) (r.declare p).1 :=
  renumbers_fill (.refl _) _

theorem closed_registerAll (r : Registry) (ds : List (Namespace × TypeDecl)) :
    (r.registerAll ds).1.closed = r.closed := by
  induction ds generalizing r with
  | nil => rfl
  | cons x ds ih =>
      obtain ⟨q, hq⟩ | ⟨hopen, hnew, hok⟩ := r.register_cases (blank x.1 x.2)
      · simp only [registerAll, hq]
        exact ih r
      · simp only [registerAll, hok]
        exact (ih _).trans hopen.symm

theorem closed_fill (r : Registry) (placed : List (ℕ × Namespace × TypeDecl)) :
    (r.fill placed).1.closed = r.closed := by
  induction placed generalizing r with
  | nil => rfl
  | cons x placed ih => exact ih _

theorem closed_declare (r : Registry) (p : Program) : (r.declare p).1.closed = r.closed :=
  (closed_fill _ _).trans (r.closed_registerAll p.typeDecls)

/-! ## New names -/

theorem register_of_fresh (hopen : r.closed = false) {d : TypeDef} (hkey : d.key ∉ r.keys) :
    ∃ hnew, r.register d = .ok (r.defs.length, r.push d hopen hnew) := by
  have hnew : r.names.lookup d.key = none := lookup?_eq_none_iff.2 hkey
  refine ⟨hnew, ?_⟩
  rw [register, dif_neg (by simp [hopen])]
  split
  next id hid =>
    rw [hnew] at hid
    cases hid
  next => rfl

theorem keys_push {d : TypeDef} (hopen : r.closed = false) (hnew : r.names.lookup d.key = none) :
    (r.push d hopen hnew).keys = r.keys ++ [d.key] := by
  rw [keys, push, List.map_append]
  rfl

theorem Fresh.push {x : Namespace × TypeDecl} (hopen : r.closed = false)
    (hnew : r.names.lookup (blank x.1 x.2).key = none) :
    (r.push (blank x.1 x.2) hopen hnew).Fresh ds ↔ r.Fresh (x :: ds) := by
  rw [Fresh, Fresh, keys_push, List.append_assoc]
  rfl

theorem registerAll_of_fresh (hopen : r.closed = false) (hfresh : r.Fresh ds) :
    (r.withNames ds).defs = r.defs ++ ds.map (fun x => blank x.1 x.2) ∧
      (r.registerAll ds).2 = ((ds.zipIdx r.defs.length).map fun x => (x.2, x.1), []) := by
  induction ds generalizing r with
  | nil => exact ⟨(List.append_nil _).symm, rfl⟩
  | cons x ds ih =>
      obtain ⟨space, d⟩ := x
      have hkey : (blank space d).key ∉ r.keys := fun hmem =>
        (List.nodup_append.1 hfresh).2.2 _ hmem _ List.mem_cons_self rfl
      obtain ⟨hnew, hok⟩ := register_of_fresh hopen hkey
      obtain ⟨hdefs, hplaced⟩ :=
        ih (r := r.push _ hopen hnew) rfl ((Fresh.push hopen hnew).2 hfresh)
      have hlength : (r.push _ hopen hnew).defs.length = r.defs.length + 1 := by simp [push]
      rw [withNames, registerAll, hok]
      refine ⟨hdefs.trans ?_, ?_⟩
      · rw [push, List.append_assoc]
        rfl
      · obtain ⟨hplaced, hsilent⟩ := Prod.ext_iff.1 hplaced
        dsimp only at hplaced hsilent ⊢
        rw [hplaced, hsilent, hlength]
        rfl

theorem fresh_of_registerAll (hsilent : (r.registerAll ds).2.2 = []) : r.Fresh ds := by
  induction ds generalizing r with
  | nil =>
      rw [Fresh, List.map_nil, List.append_nil]
      exact r.nodup_keys
  | cons x ds ih =>
      obtain ⟨p, hp⟩ | ⟨hopen, hnew, hok⟩ := r.register_cases (blank x.1 x.2)
      · simp [registerAll, hp] at hsilent
      · rw [registerAll, hok] at hsilent
        exact (Fresh.push hopen hnew).1 (ih hsilent)

theorem fresh_of_declare (hsilent : (r.declare p).2 = []) : r.Fresh p.typeDecls :=
  fresh_of_registerAll (List.append_eq_nil_iff.1 hsilent).1

theorem modify_length_append {α : Type} (pre post : List α) (a : α) (f : α → α) :
    (pre ++ a :: post).modify pre.length f = pre ++ f a :: post := by
  induction pre with
  | nil => rfl
  | cons b pre ih =>
      rw [List.cons_append, List.length_cons, List.modify_succ_cons, ih]
      rfl

/-- Filling in the members of the newest definitions, one after the other. -/
theorem defs_foldl_setShape (named : Registry) {pre : List TypeDef}
    (hr : r.defs = pre ++ ds.map fun x => blank x.1 x.2) :
    (((ds.zipIdx pre.length).map fun x => (x.2, x.1)).foldl
      (fun acc x => acc.setShape x.1 (named.shape x.2.1 x.2.2)) r).defs =
        pre ++ ds.map named.completed := by
  induction ds generalizing pre r with
  | nil => exact hr
  | cons x ds ih =>
      have hfirst : (r.setShape pre.length (named.shape x.1 x.2)).defs =
          (pre ++ [named.completed x]) ++ ds.map fun x => blank x.1 x.2 := by
        rw [defs_setShape, hr, List.map_cons, modify_length_append, List.append_assoc]
        rfl
      have hrest := ih hfirst
      rw [List.length_append, List.length_singleton, List.append_assoc] at hrest
      exact hrest

/-- Types with new names are added in order, with their members. -/
theorem declare_of_fresh (hopen : r.closed = false) (hfresh : r.Fresh p.typeDecls) :
    (r.declare p).1.defs = r.defs ++ p.typeDecls.map (r.withNames p.typeDecls).completed ∧
      (r.declare p).2 =
        p.typeDecls.flatMap fun x => (r.withNames p.typeDecls).shapeProblems x.1 x.2 := by
  obtain ⟨hdefs, hplaced⟩ := registerAll_of_fresh hopen hfresh
  have hproblems : ∀ f : Namespace × TypeDecl → List Problem,
      ((p.typeDecls.zipIdx r.defs.length).map fun x => (x.2, x.1)).flatMap (fun x => f x.2) =
        p.typeDecls.flatMap f := by
    intro f
    rw [List.flatMap_map, ← List.flatMap_map Prod.fst f, List.zipIdx_map_fst]
  rw [declare_eq, hplaced]
  exact ⟨defs_foldl_setShape _ hdefs,
    hproblems fun x => (r.withNames p.typeDecls).shapeProblems x.1 x.2⟩

theorem keys_declare (hopen : r.closed = false) (hfresh : r.Fresh p.typeDecls) :
    (r.declare p).1.keys = r.keys ++ p.typeKeys := by
  rw [keys, (declare_of_fresh hopen hfresh).1, List.map_append, List.map_map]
  rfl

end Registry

end ProgramSafety
