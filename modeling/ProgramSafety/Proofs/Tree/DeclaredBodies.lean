import ProgramSafety.Proofs.Tree.Regions
import ProgramSafety.Tree.Outline

/-!
# The bodies of a program

`Program.HasBody` says what the bodies of a program are and in what scope the types in them are
read, by going down the declarations, and `Program.bodies` lists them
(`Program.hasBody_of_mem_bodies`, `Program.HasBody.exists_mem_bodies`). The tour of a body
enters every fragment once (`Block.entered_perm_fragments`). What is done on entering can
therefore be looked at fragment by fragment, and if no two expressions of a program share an
id, neither do the expressions that the fragments are, nor those they are made of
(`Program.nodup_own`, `Program.nodup_children`).
-/

namespace ProgramSafety

/-! ## Declarations -/

/-- The item is among the declarations, in the given namespace as seen from theirs. -/
inductive Decl.Declares : List Decl → Namespace → Item → Prop where
  | type {ds : List Decl} {d : TypeDecl} (h : .type d ∈ ds) : Declares ds [] (.type d)
  | function {ds : List Decl} {f : FunctionDecl} (h : .function f ∈ ds) :
      Declares ds [] (.function f)
  | space {ds inner : List Decl} {name : String} {ns : Namespace} {item : Item}
      (h : .space name inner ∈ ds) (hitem : Declares inner ns item) :
      Declares ds (name :: ns) item

namespace Decl

theorem Declares.mono {ds es : List Decl} {ns : Namespace} {item : Item}
    (h : Declares ds ns item) (hsub : ds ⊆ es) : Declares es ns item := by
  cases h with
  | type h => exact .type (hsub h)
  | function h => exact .function (hsub h)
  | space h hitem => exact .space (hsub h) hitem

theorem itemsList_eq_flatMap (base : Namespace) (ds : List Decl) :
    itemsList base ds = ds.flatMap (items base) := by
  induction ds with
  | nil => rfl
  | cons d ds ih => rw [itemsList, ih, List.flatMap_cons]

mutual

theorem declares_of_mem_items : ∀ {d : Decl} {base ns : Namespace} {item : Item},
    (ns, item) ∈ d.items base → ∃ inner, ns = base ++ inner ∧ Declares [d] inner item
  | .space name ds, base, ns, item, h => by
    obtain ⟨inner, rfl, hinner⟩ := declares_of_mem_itemsList h
    exact ⟨name :: inner, by simp, .space (List.mem_singleton.2 rfl) hinner⟩
  | .type d, base, ns, item, h => by
    obtain ⟨rfl, rfl⟩ := Prod.mk.inj (List.mem_singleton.1 h)
    exact ⟨[], by simp, .type (List.mem_singleton.2 rfl)⟩
  | .function f, base, ns, item, h => by
    obtain ⟨rfl, rfl⟩ := Prod.mk.inj (List.mem_singleton.1 h)
    exact ⟨[], by simp, .function (List.mem_singleton.2 rfl)⟩

theorem declares_of_mem_itemsList : ∀ {ds : List Decl} {base ns : Namespace} {item : Item},
    (ns, item) ∈ itemsList base ds → ∃ inner, ns = base ++ inner ∧ Declares ds inner item
  | [], base, ns, item, h => by cases h
  | d :: ds, base, ns, item, h => by
    rcases List.mem_append.1 h with h | h
    · obtain ⟨inner, hns, hinner⟩ := declares_of_mem_items h
      exact ⟨inner, hns, hinner.mono (by simp)⟩
    · obtain ⟨inner, hns, hinner⟩ := declares_of_mem_itemsList h
      exact ⟨inner, hns, hinner.mono (List.subset_cons_self d ds)⟩

end

theorem Declares.mem_itemsList {ds : List Decl} {ns : Namespace} {item : Item}
    (h : Declares ds ns item) (base : Namespace) : (base ++ ns, item) ∈ itemsList base ds := by
  induction h generalizing base with
  | type h | function h =>
      rw [itemsList_eq_flatMap, List.append_nil]
      exact List.mem_flatMap.2 ⟨_, h, List.mem_singleton.2 rfl⟩
  | @space ds inner name ns item h hitem ih =>
      have hinner := ih (base ++ [name])
      rw [List.append_assoc, List.singleton_append] at hinner
      rw [itemsList_eq_flatMap]
      exact List.mem_flatMap.2 ⟨_, h, hinner⟩

end Decl

theorem Body.of?_eq_some_iff {ns : Namespace} {owner : Option ClassDecl} {f : FunctionDecl}
    {b : Body} :
    of? ns owner f = some b ↔ ∃ block, f.body = some block ∧ b = ⟨ns, owner, f, block⟩ := by
  rw [of?, Option.map_eq_some_iff]
  simp only [eq_comm]

namespace Program

variable {p : Program}

theorem mem_items_iff {ns : Namespace} {item : Item} :
    (ns, item) ∈ p.items ↔ Decl.Declares p.decls ns item := by
  constructor
  · intro h
    obtain ⟨inner, rfl, hinner⟩ := Decl.declares_of_mem_itemsList h
    exact hinner
  · intro h
    exact h.mem_itemsList []

/-- The block is the body of a function or method, and the types in it are read in the scope:
in the namespace of the declaration, with the type parameters of the class and then those of
the function. -/
inductive HasBody (p : Program) : Scope → Block → Prop where
  | function {ns : Namespace} {f : FunctionDecl} {block : Block}
      (hf : Decl.Declares p.decls ns (.function f)) (hbody : f.body = some block) :
      HasBody p ⟨ns, f.generics⟩ block
  | method {ns : Namespace} {c : ClassDecl} {m : FunctionDecl} {block : Block}
      (hc : Decl.Declares p.decls ns (.type (.classType c))) (hm : m ∈ c.methods)
      (hbody : m.body = some block) : HasBody p ⟨ns, c.generics ++ m.generics⟩ block

theorem hasBody_of_mem_bodies {b : Body} (hb : b ∈ p.bodies) : p.HasBody b.scope b.block := by
  obtain ⟨⟨ns, item⟩, hitem, hb⟩ := List.mem_flatMap.1 hb
  cases item with
  | function f =>
      obtain ⟨block, hbody, rfl⟩ := Body.of?_eq_some_iff.1 (Option.mem_toList.1 hb)
      exact .function (mem_items_iff.1 hitem) hbody
  | type d =>
      cases d with
      | classType c =>
          obtain ⟨m, hm, hb⟩ := List.mem_filterMap.1 hb
          obtain ⟨block, hbody, rfl⟩ := Body.of?_eq_some_iff.1 hb
          exact .method (mem_items_iff.1 hitem) hm hbody
      | structType | enumType => cases hb

theorem HasBody.exists_mem_bodies {scope : Scope} {block : Block} (h : p.HasBody scope block) :
    ∃ b ∈ p.bodies, b.scope = scope ∧ b.block = block := by
  cases h with
  | @function ns f _ hf hbody =>
      have hb : Body.of? ns none f = some ⟨ns, none, f, block⟩ :=
        Body.of?_eq_some_iff.2 ⟨block, hbody, rfl⟩
      exact ⟨_, List.mem_flatMap.2 ⟨_, mem_items_iff.2 hf, Option.mem_toList.2 hb⟩, rfl, rfl⟩
  | @method ns c m _ hc hm hbody =>
      have hb : Body.of? ns (some c) m = some ⟨ns, some c, m, block⟩ :=
        Body.of?_eq_some_iff.2 ⟨block, hbody, rfl⟩
      exact ⟨_, List.mem_flatMap.2 ⟨_, mem_items_iff.2 hc, List.mem_filterMap.2 ⟨m, hm, hb⟩⟩,
        rfl, rfl⟩

end Program

/-! ## What a tour enters -/

def Event.enteredFragment? : Event → Option Fragment
  | .enterExpr e => some (.expr e)
  | .enterStmt s => some (.stmt s)
  | .openBlock role b => some (.block role b)
  | _ => none

def Event.enteredIds : Event → List ℕ
  | .enterExpr e => [e.id]
  | _ => []

@[simp] theorem Event.enteredFragment?_enter (n : Fragment) :
    n.enter.enteredFragment? = some n := by
  cases n <;> rfl

@[simp] theorem Event.enteredFragment?_leave (n : Fragment) : n.leave.enteredFragment? = none := by
  cases n <;> rfl

namespace Fragment

def entered (here : Setting) (n : Fragment) : List Fragment :=
  (n.visits (fun _ => true) here).filterMap (·.event.enteredFragment?)

theorem entered_perm_nested (here : Setting) (n : Fragment) :
    (n.entered here).Perm (n.nested here) := by
  induction n using Fragment.induction generalizing here with
  | step n ih =>
      have hentered : n.entered here = n :: (n.parts here).flatMap fun p => p.2.entered p.1 := by
        rw [entered, visits_eq, toured_all]
        simp [entered, List.filterMap_flatMap]
      rw [hentered, nested_eq]
      refine (List.Perm.cons n ?_).trans (List.perm_append_singleton n _).symm
      exact List.Perm.flatMap_left _ fun p hp => ih here p hp p.1

end Fragment

def Block.entered (b : Block) : List Fragment := Fragment.entered .outermost (.block .body b)

theorem Block.entered_perm_fragments (b : Block) : b.entered.Perm b.fragments :=
  Fragment.entered_perm_nested .outermost (.block .body b)

theorem Block.mem_entered_iff {b : Block} {n : Fragment} : n ∈ b.entered ↔ b.Has n :=
  b.entered_perm_fragments.mem_iff.trans mem_fragments_iff

/-- Where leaving brings nothing, a tour is the sequence of what it enters. -/
theorem Block.flatMap_tour {α : Type} {f : Event → List α} (hleave : ∀ n : Fragment, f n.leave = [])
    (b : Block) : (b.tour.flatMap fun v => f v.event) = b.entered.flatMap fun n => f n.enter := by
  have hvisits : ∀ vs : List Visit, (vs.flatMap fun v => f v.event) =
      (vs.filterMap (·.event.enteredFragment?)).flatMap fun n => f n.enter := by
    intro vs
    induction vs with
    | nil => rfl
    | cons v vs ih =>
        obtain ⟨here, event⟩ := v
        obtain ⟨n, rfl⟩ | ⟨n, rfl⟩ := event.enter_or_leave
        · simp [ih]
        · simp [ih, hleave]
  exact hvisits b.tour

/-- Every expression is a part of one fragment and is a fragment itself. -/
theorem Block.children_perm_own (b : Block) :
    (b.entered.flatMap Fragment.children).Perm (b.entered.flatMap Fragment.own) := by
  have hown : b.fragments.flatMap Fragment.own = b.exprs := Fragment.flatMap_own_nested _ _
  have hchildren := (b.entered_perm_fragments.flatMap_right Fragment.children).trans
    b.children_perm_exprs
  rw [← hown] at hchildren
  exact hchildren.trans (b.entered_perm_fragments.flatMap_right Fragment.own).symm

def fragmentsOf (bs : List Body) : List (Scope × Fragment) :=
  bs.flatMap fun b => b.block.entered.map (b.scope, ·)

theorem flatMap_fragmentsOf {α : Type} (bs : List Body) (f : Fragment → List α) :
    (fragmentsOf bs).flatMap (fun x => f x.2) = bs.flatMap fun b => b.block.entered.flatMap f := by
  simp only [fragmentsOf, List.flatMap_assoc, List.flatMap_map]

namespace Program

variable {p : Program}

theorem mem_fragmentsOf_iff {scope : Scope} {n : Fragment} :
    (scope, n) ∈ fragmentsOf p.bodies ↔ ∃ block, p.HasBody scope block ∧ block.Has n := by
  constructor
  · intro h
    obtain ⟨b, hb, hn⟩ := List.mem_flatMap.1 h
    obtain ⟨m, hm, heq⟩ := List.mem_map.1 hn
    obtain ⟨rfl, rfl⟩ := Prod.mk.inj heq
    exact ⟨b.block, hasBody_of_mem_bodies hb, Block.mem_entered_iff.1 hm⟩
  · rintro ⟨block, hbody, hn⟩
    obtain ⟨b, hb, rfl, rfl⟩ := hbody.exists_mem_bodies
    exact List.mem_flatMap.2 ⟨b, hb, List.mem_map.2 ⟨n, Block.mem_entered_iff.2 hn, rfl⟩⟩

theorem exprIds_eq (p : Program) :
    p.exprIds = ((fragmentsOf p.bodies).flatMap fun x => x.2.own).map Expr.id := by
  have hexprIds : p.exprIds = p.visits.flatMap fun v => v.event.enteredIds := by
    rw [exprIds, List.filterMap_eq_flatMap_toList]
    refine List.flatMap_congr fun v _ => ?_
    cases v.event <;> rfl
  have htour : ∀ b ∈ p.bodies, (b.block.tour.flatMap fun v => v.event.enteredIds) =
      (b.block.entered.flatMap Fragment.own).map Expr.id := by
    intro b _
    rw [Block.flatMap_tour fun n => by cases n <;> rfl, List.map_flatMap]
    refine List.flatMap_congr fun n _ => ?_
    cases n <;> rfl
  rw [hexprIds, visits, List.flatMap_assoc, flatMap_fragmentsOf, List.map_flatMap]
  exact List.flatMap_congr htour

theorem nodup_own (hids : p.exprIds.Nodup) :
    (((fragmentsOf p.bodies).flatMap fun x => x.2.own).map Expr.id).Nodup :=
  p.exprIds_eq ▸ hids

theorem nodup_children (hids : p.exprIds.Nodup) :
    (((fragmentsOf p.bodies).flatMap fun x => x.2.children).map Expr.id).Nodup := by
  have hperm : ((fragmentsOf p.bodies).flatMap fun x => x.2.children).Perm
      ((fragmentsOf p.bodies).flatMap fun x => x.2.own) := by
    rw [flatMap_fragmentsOf, flatMap_fragmentsOf]
    exact List.Perm.flatMap_left _ fun b _ => b.block.children_perm_own
  exact (hperm.map Expr.id).nodup_iff.2 (nodup_own hids)

end Program

end ProgramSafety
