import Mathlib.Logic.Equiv.Defs
import ProgramSafety.Proofs.Typing.Completion

/-!
# The order of declarations

Two lists of declarations that differ in the order inside each namespace only
(`Decl.Rearranged`) declare the same types in the same namespaces. If no two of the types
share a name, declaring them gives the same definitions under other numbers, and the same
problems (`Registry.declare_rearranged`). The numbers are those of the places in the list
of all declared types (`exists_equiv_of_perm`).
-/

namespace ProgramSafety

/-- The declarations differ in nothing but the order inside each namespace. -/
inductive Decl.Rearranged : List Decl → List Decl → Prop where
  | nil : Rearranged [] []
  | keep (d : Decl) {ds es : List Decl} (h : Rearranged ds es) : Rearranged (d :: ds) (d :: es)
  | inside (name : String) {ds ds' es es' : List Decl} (hinner : Rearranged ds ds')
      (h : Rearranged es es') : Rearranged (.space name ds :: es) (.space name ds' :: es')
  | swap (d e : Decl) (ds : List Decl) : Rearranged (d :: e :: ds) (e :: d :: ds)
  | trans {ds es fs : List Decl} (h : Rearranged ds es) (h' : Rearranged es fs) : Rearranged ds fs

theorem Decl.Rearranged.of_perm {ds es : List Decl} (h : ds.Perm es) : Rearranged ds es := by
  induction h with
  | nil => exact .nil
  | cons d _ ih => exact .keep d ih
  | swap d e ds => exact .swap e d ds
  | trans _ _ ih ih' => exact ih.trans ih'

theorem Decl.Rearranged.items_perm {ds es : List Decl} (h : Rearranged ds es) (space : Namespace) :
    (Decl.itemsList space ds).Perm (Decl.itemsList space es) := by
  induction h generalizing space with
  | nil => exact .refl _
  | keep d _ ih => exact (ih space).append_left _
  | inside name _ _ ihinner ih => exact (ihinner (space ++ [name])).append (ih space)
  | swap d e ds =>
      simp only [Decl.itemsList, ← List.append_assoc]
      exact List.perm_append_comm.append_right _
  | trans _ _ ih ih' => exact (ih space).trans (ih' space)

theorem Decl.Rearranged.typeDecls_perm {p q : Program} (h : Rearranged p.decls q.decls) :
    p.typeDecls.Perm q.typeDecls :=
  (h.items_perm []).filterMap _

/-! ## Places -/

/-- The permutation of the places below one that stays. -/
def belowZero (σ : Equiv.Perm ℕ) : Equiv.Perm ℕ where
  toFun
    | 0 => 0
    | i + 1 => σ i + 1
  invFun
    | 0 => 0
    | i + 1 => σ.symm i + 1
  left_inv i := by cases i <;> simp
  right_inv i := by cases i <;> simp

def firstTwo : Equiv.Perm ℕ where
  toFun
    | 0 => 1
    | 1 => 0
    | i + 2 => i + 2
  invFun
    | 0 => 1
    | 1 => 0
    | i + 2 => i + 2
  left_inv
    | 0 | 1 | _ + 2 => rfl
  right_inv
    | 0 | 1 | _ + 2 => rfl

theorem exists_equiv_of_perm {α : Type} {as bs : List α} (h : as.Perm bs) :
    ∃ σ : Equiv.Perm ℕ, ∀ i, bs[σ i]? = as[i]? := by
  induction h with
  | nil => exact ⟨Equiv.refl ℕ, fun _ => rfl⟩
  | cons a _ ih =>
      obtain ⟨σ, hσ⟩ := ih
      refine ⟨belowZero σ, fun i => ?_⟩
      cases i with
      | zero => rfl
      | succ i => exact hσ i
  | swap a b as =>
      refine ⟨firstTwo, fun i => ?_⟩
      match i with
      | 0 | 1 | _ + 2 => rfl
  | trans _ _ ih ih' =>
      obtain ⟨σ, hσ⟩ := ih
      obtain ⟨τ, hτ⟩ := ih'
      exact ⟨σ.trans τ, fun i => (hτ (σ i)).trans (hσ i)⟩

/-! ## Registries -/

namespace Registry

variable {ds es : List (Namespace × TypeDecl)} {σ : Equiv.Perm ℕ}

theorem get?_withNames_empty (hds : empty.Fresh ds) (id : ℕ) :
    (empty.withNames ds).get? id = ds[id]?.map fun x => blank x.1 x.2 := by
  rw [get?, (registerAll_of_fresh rfl hds).1, empty, List.nil_append, List.getElem?_map]

/-- Names in another order are found at their new places. -/
theorem renumbers_withNames (hds : empty.Fresh ds) (hes : empty.Fresh es)
    (hσ : ∀ i, es[σ i]? = ds[i]?) : Renumbers σ (empty.withNames ds) (empty.withNames es) := by
  have hget : ∀ i, (empty.withNames es).get? (σ i) = (empty.withNames ds).get? i := fun i => by
    rw [get?_withNames_empty hds, get?_withNames_empty hes, hσ]
  refine ⟨fun id d hd => ⟨d, (hget id).trans hd, rfl, rfl⟩, fun space name => ?_⟩
  apply Option.ext
  intro j
  rw [Option.map_eq_some_iff, lookup?_eq_some_iff]
  constructor
  · rintro ⟨d, hd, hspace, hname⟩
    rw [← σ.apply_symm_apply j, hget] at hd
    exact ⟨σ.symm j, lookup?_eq_some_iff.2 ⟨d, hd, hspace, hname⟩, σ.apply_symm_apply j⟩
  · rintro ⟨i, hi, rfl⟩
    obtain ⟨d, hd, hspace, hname⟩ := lookup?_eq_some_iff.1 hi
    exact ⟨d, (hget i).trans hd, hspace, hname⟩

theorem Renumbers.completed {r r' : Registry} (h : Renumbers σ r r')
    (x : Namespace × TypeDecl) : r'.completed x = (r.completed x).renumber σ := by
  rw [Registry.completed, h.shape]
  rfl

theorem Renumbers.lookup?_eq {r r' : Registry} (h : Renumbers id r r') (space : Namespace)
    (name : String) : r'.lookup? space name = r.lookup? space name := by
  rw [h.lookup?, Option.map_id, id]

/-- Declarations of distinct types that differ in their order only give the same registry
up to the numbers of the definitions, with the same names, and the same problems. -/
theorem declare_rearranged {p q : Program} (h : Decl.Rearranged p.decls q.decls)
    (hdistinct : p.typeKeys.Nodup) :
    let r := (empty.declare p).1
    let r' := (empty.declare q).1
    (∃ σ : Equiv.Perm ℕ,
      (∀ space name, r'.lookup? space name = (r.lookup? space name).map σ) ∧
      ∀ id, r'.get? (σ id) = (r.get? id).map (TypeDef.renumber σ)) ∧
    r.keys = p.typeKeys ∧ r'.keys.Perm r.keys ∧ (empty.declare q).2.Perm (empty.declare p).2 := by
  intro r r'
  have hperm := h.typeDecls_perm
  have hkeysPerm : p.typeKeys.Perm q.typeKeys := hperm.map _
  have hfresh : empty.Fresh p.typeDecls := hdistinct
  have hfresh' : empty.Fresh q.typeDecls := hkeysPerm.nodup hdistinct
  obtain ⟨hr, hproblems⟩ := declare_of_fresh rfl hfresh
  obtain ⟨hr', hproblems'⟩ := declare_of_fresh rfl hfresh'
  obtain ⟨σ, hσ⟩ := exists_equiv_of_perm hperm
  have hnamed := renumbers_withNames hfresh hfresh' hσ
  have hget : ∀ id, r.get? id = p.typeDecls[id]?.map (empty.withNames p.typeDecls).completed := by
    intro id
    rw [get?, show r.defs = _ from hr, empty, List.nil_append, List.getElem?_map]
  have hget' : ∀ id, r'.get? id = q.typeDecls[id]?.map (empty.withNames q.typeDecls).completed := by
    intro id
    rw [get?, show r'.defs = _ from hr', empty, List.nil_append, List.getElem?_map]
  have hrkeys : r.keys = p.typeKeys := keys_declare rfl hfresh
  refine ⟨⟨σ, fun space name => ?_, fun id => ?_⟩, ?_, ?_, ?_⟩
  · rw [(empty.renumbers_declare q).lookup?_eq, hnamed.lookup?,
      (empty.renumbers_declare p).lookup?_eq]
  · rw [hget, hget', hσ, Option.map_map]
    congr 1
    funext x
    exact hnamed.completed x
  · exact hrkeys
  · rw [hrkeys, show r'.keys = _ from keys_declare rfl hfresh']
    exact hkeysPerm.symm
  · rw [hproblems, hproblems', List.flatMap_congr fun x _ => hnamed.shapeProblems x.1 x.2]
    exact hperm.symm.flatMap_right _

end Registry

namespace Drawing

def pointRef : TypeRef := ⟨.nowhere, ["geo"], "Point", []⟩

def node : Decl :=
  .type (.classType ⟨⟨"Node", .nowhere⟩, [],
    [⟨"next", .applied "Optional" [.named "Node"], .nowhere⟩, ⟨"at", pointRef, .nowhere⟩],
    [⟨⟨"move", .nowhere⟩, [], [⟨⟨"to", .nowhere⟩, pointRef⟩], some (.named "Node"), false, none⟩]⟩)

def point : Decl :=
  .type (.structType ⟨⟨"Point", .nowhere⟩, [],
    [⟨"x", .named "i32", .nowhere⟩, ⟨"owner", .named "Node", .nowhere⟩]⟩)

def color : Decl :=
  .type (.enumType ⟨⟨"Color", .nowhere⟩, [], some (.named "u8"),
    [⟨⟨"red", .nowhere⟩, .nowhere, some ⟨4, .nowhere⟩, .unit⟩,
      ⟨⟨"green", .nowhere⟩, .nowhere, none, .unit⟩]⟩)

def event : Decl :=
  .type (.enumType ⟨⟨"Event", .nowhere⟩, [], none,
    [⟨⟨"click", .nowhere⟩, .nowhere, none, .single (.named "Point")⟩,
      ⟨⟨"drag", .nowhere⟩, .nowhere, none, .fields [⟨"node", .named "Node", .nowhere⟩]⟩]⟩)

def broken : Decl :=
  .type (.structType ⟨⟨"Broken", .nowhere⟩, [], [⟨"item", .named "Missing", .nowhere⟩]⟩)

def first : Program where
  decls := [node, .space "geo" [point, color, event], broken]

def second : Program where
  decls := [broken, .space "geo" [event, color, point], node]

/-- The class, given the numbers of the class itself and of the points. -/
def nodeDef (node point : ℕ) : TypeDef :=
  ⟨"Node", [], .nowhere, [], .classType
    [⟨"next", .optional (.adt node "Node" []), .nowhere⟩,
      ⟨"at", .adt point "geo::Point" [], .nowhere⟩]
    [⟨"move", [], [.adt point "geo::Point" []], .adt node "Node" [], false, .nowhere⟩]⟩

def colorDef : TypeDef :=
  ⟨"Color", ["geo"], .nowhere, [], .enumType (some .u8)
    [⟨"red", .nowhere, some 4, some 4, .unit⟩, ⟨"green", .nowhere, none, some 5, .unit⟩]⟩

def eventDef (node point : ℕ) : TypeDef :=
  ⟨"Event", ["geo"], .nowhere, [], .enumType none
    [⟨"click", .nowhere, none, none, .single (.adt point "geo::Point" [])⟩,
      ⟨"drag", .nowhere, none, none, .fields [⟨"node", .adt node "Node" [], .nowhere⟩]⟩]⟩

theorem rearranged : Decl.Rearranged first.decls second.decls := by
  have hroot : Decl.Rearranged first.decls [broken, .space "geo" [point, color, event], node] :=
    .of_perm ((List.Perm.swap _ _ _).trans
      (((List.Perm.swap broken node []).cons (.space "geo" [point, color, event])).trans
        (.swap _ _ _)))
  have hinside : Decl.Rearranged [point, color, event] [event, color, point] :=
    .of_perm (List.reverse_perm [event, color, point])
  exact hroot.trans (.keep broken (.inside "geo" hinside (.keep node .nil)))

theorem definitions_first :
    (Registry.empty.declare first).1.get? 0 = some (nodeDef 0 1) ∧
      (Registry.empty.declare first).1.get? 2 = some colorDef ∧
      (Registry.empty.declare first).1.get? 3 = some (eventDef 0 1) := by
  decide +kernel

/-- The definitions in either order: fields, parameters, results and payloads name the same
types by other numbers, and the enum has the same values. -/
theorem declare_rearranged_drawing :
    Decl.Rearranged first.decls second.decls ∧ first.typeKeys.Nodup ∧
      (Registry.empty.declare first).1.get? 0 = some (nodeDef 0 1) ∧
      (Registry.empty.declare second).1.get? 4 = some (nodeDef 4 3) ∧
      (Registry.empty.declare first).1.get? 2 = some colorDef ∧
      (Registry.empty.declare second).1.get? 2 = some colorDef ∧
      (Registry.empty.declare first).1.get? 3 = some (eventDef 0 1) ∧
      (Registry.empty.declare second).1.get? 1 = some (eventDef 4 3) ∧
      (∃ σ : Equiv.Perm ℕ, σ 0 = 4 ∧ σ 1 = 3 ∧
        ∀ id, (Registry.empty.declare second).1.get? (σ id) =
          ((Registry.empty.declare first).1.get? id).map (TypeDef.renumber σ)) ∧
      (Registry.empty.declare second).1.keys.Perm (Registry.empty.declare first).1.keys ∧
      (Registry.empty.declare second).2.Perm (Registry.empty.declare first).2 := by
  have hdistinct : first.typeKeys.Nodup := by decide
  obtain ⟨⟨σ, hlookup, hget⟩, -, hkeys, hproblems⟩ :=
    Registry.declare_rearranged rearranged hdistinct
  have hmoves : ∀ space name i j, (Registry.empty.declare first).1.lookup? space name = some i →
      (Registry.empty.declare second).1.lookup? space name = some j → σ i = j := by
    intro space name i j hi hj
    have hname := hlookup space name
    rw [hi, hj] at hname
    exact (Option.some.inj hname).symm
  have hnode : σ 0 = 4 := hmoves [] "Node" 0 4 (by decide) (by decide)
  have hpoint : σ 1 = 3 := hmoves ["geo"] "Point" 1 3 (by decide) (by decide)
  have hcolor : σ 2 = 2 := hmoves ["geo"] "Color" 2 2 (by decide) (by decide)
  have hevent : σ 3 = 1 := hmoves ["geo"] "Event" 3 1 (by decide) (by decide)
  obtain ⟨hnodeDef, hcolorDef, heventDef⟩ := definitions_first
  refine ⟨rearranged, hdistinct, hnodeDef, ?_, hcolorDef, ?_, heventDef, ?_,
    ⟨σ, hnode, hpoint, hget⟩, hkeys, hproblems⟩
  · have hmoved := hget 0
    rw [hnodeDef, hnode] at hmoved
    rw [hmoved, ← hnode, ← hpoint]
    rfl
  · have hmoved := hget 2
    rw [hcolorDef, hcolor] at hmoved
    rw [hmoved]
    rfl
  · have hmoved := hget 3
    rw [heventDef, hevent] at hmoved
    rw [hmoved, ← hnode, ← hpoint]
    rfl

end Drawing

end ProgramSafety
