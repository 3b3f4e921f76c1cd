import Mathlib.Computability.Primrec.List
import Mathlib.Data.List.Permutation
import ProgramSafety.Proofs.Analysis.Placement
import ProgramSafety.Proofs.Analysis.Tables
import ProgramSafety.Proofs.Typing.Declared
import ProgramSafety.Proofs.Typing.Substitution
import ProgramSafety.Session

/-!
# Instances in use

An instance is recorded where the type of an expression applies a generic definition and no
parameter is left in it (`Session.instantiated_mem_findings_iff`). The members of a
definition are resolved in the scope of its parameters, and the arguments replace all of
these, so no part of the instance depends on a parameter, except a method on its own
(`Registry.closed_concrete`).
-/

namespace ProgramSafety

def Ty.Ground (t : Ty) : Prop := ∀ n, ¬ (Ty.param n).Occurs t

namespace Ty

theorem hasParams_eq_false_iff {t : Ty} : t.hasParams = false ↔ t.Ground := by
  rw [← Bool.not_eq_true, hasParams_iff, not_exists]
  rfl

theorem ground_adt_iff {id : ℕ} {name : String} {args : List Ty} :
    (adt id name args).Ground ↔ ∀ a ∈ args, a.Ground := by
  constructor
  · exact fun h a ha n hn => h n (.arg ha hn)
  · rintro h n (_ | ⟨ha, hn⟩)
    exact h _ ha n hn

end Ty

/-- The instance applies a registered definition to an argument for each of its parameters,
and what is left of parameters are those of a method in its signature. -/
structure Concrete.Closed (r : Registry) (c : Concrete) : Prop where
  made : ∃ d, r.get? c.id = some d ∧ d.generics.length = c.args.length ∧
    d.instantiate c.id c.args = .ok c
  args_ne_nil : c.args ≠ []
  args : ∀ a ∈ c.args, a.Ground
  members : ∀ t ∈ c.shape.memberTypes, t.Ground
  methods : ∀ m ∈ c.shape.methods, ∀ t ∈ m.ret :: m.params, ∀ n, (Ty.param n).Occurs t →
    n ∈ m.generics

namespace Registry

variable {r : Registry} {scope : Scope} {e : Expr} {c : Concrete}

/-- The members of an instance are what the arguments make of members over the parameters. -/
theorem closed_concrete (hr : r.WellFormed) {id : ℕ} {d : TypeDef} {args : List Ty}
    (hd : r.get? id = some d) (harity : d.generics.length = args.length) (hne : args ≠ [])
    (hargs : ∀ a ∈ args, a.Ground) : (d.concrete id args).Closed r := by
  have hformed := hr.shapes id d hd
  refine ⟨⟨d, hd, harity, TypeDef.instantiate_eq_ok_iff.2 ⟨harity, rfl⟩⟩, hne, hargs, ?_, ?_⟩
  · intro t ht n hn
    rw [TypeDef.concrete, Shape.memberTypes_substitute] at ht
    obtain ⟨u, hu, rfl⟩ := List.mem_map.1 ht
    rw [← Subst.without_nil (d.subst args)] at hn
    have hscope : ∀ m, (Ty.param m).Occurs u → m ∈ d.generics ++ [] := by
      rw [List.append_nil]
      exact (hformed.memberTypes hu).param
    exact List.not_mem_nil (Ty.mem_of_occurs_substitute harity hargs hscope hn)
  · intro m hm t ht n hn
    rw [TypeDef.concrete, Shape.methods_substitute] at hm
    obtain ⟨m, hmethod, rfl⟩ := List.mem_map.1 hm
    have htypes : (m.substitute (d.subst args)).ret :: (m.substitute (d.subst args)).params =
        (m.ret :: m.params).map (Ty.substitute ((d.subst args).without m.generics)) := rfl
    rw [htypes] at ht
    obtain ⟨u, hu, rfl⟩ := List.mem_map.1 ht
    exact Ty.mem_of_occurs_substitute harity hargs (hformed.methods m hmethod u hu).param hn

/-- The type of the expression applies a generic definition and has no parameter left. -/
def AppliesGeneric (r : Registry) (scope : Scope) (e : Expr) : Prop :=
  ∃ id name args, r.typeOf scope e.type = .adt id name args ∧ args ≠ [] ∧ ∀ a ∈ args, a.Ground

theorem usedInstance?_eq_some_iff :
    r.usedInstance? scope e = some c ↔ r.AppliesGeneric scope e ∧
      r.instanceOf? (r.typeOf scope e.type) = some c := by
  unfold usedInstance?
  dsimp only
  split
  next id name a args htype =>
    have happlies : r.AppliesGeneric scope e ↔ (Ty.adt id name (a :: args)).Ground := by
      rw [Ty.ground_adt_iff, AppliesGeneric, htype]
      simp [and_assoc]
    rw [htype, happlies, ← Ty.hasParams_eq_false_iff]
    split
    next hparams => simp [hparams]
    next hparams => simp [hparams]
  next hother =>
    refine iff_of_false (by simp) ?_
    rintro ⟨⟨id, name, args, htype, hne, -⟩, -⟩
    obtain ⟨a, args, rfl⟩ := List.exists_cons_of_ne_nil hne
    exact hother id name a args htype

/-- A type is resolved with as many arguments as its definition has parameters, so the
instance is always there. -/
theorem exists_usedInstance?_iff :
    (∃ c, r.usedInstance? scope e = some c) ↔ r.AppliesGeneric scope e := by
  constructor
  · rintro ⟨c, hc⟩
    exact (usedInstance?_eq_some_iff.1 hc).1
  · intro happlies
    obtain ⟨id, name, args, htype, -⟩ := id happlies
    have hformed := r.formed_typeOf scope e.type
    rw [htype] at hformed
    obtain ⟨d, -, -, hinstance⟩ := instanceOf?_of_formed hformed
    exact ⟨_, usedInstance?_eq_some_iff.2 ⟨happlies, htype ▸ hinstance⟩⟩

theorem closed_of_usedInstance? (hr : r.WellFormed) (h : r.usedInstance? scope e = some c) :
    c.Closed r := by
  obtain ⟨⟨id, name, args, htype, hne, hargs⟩, hinstance⟩ := usedInstance?_eq_some_iff.1 h
  rw [htype, instanceOf?_eq_some_iff] at hinstance
  obtain ⟨_, _, _, d, heq, hd, harity, rfl⟩ := hinstance
  cases heq
  exact closed_concrete hr hd harity hne hargs

end Registry

theorem Registry.instantiated_mem_typeFindings_iff {r : Registry} {scope : Scope} {event : Event}
    {node : ℕ} {c : Concrete} :
    .instantiated node c ∈ r.typeFindings scope event ↔
      ∃ e, event = .enterExpr e ∧ e.id = node ∧ r.usedInstance? scope e = some c := by
  unfold typeFindings
  split
  · simp
  · simp [and_comm]
  next hbind hexpr => simpa using fun e he => absurd he (hexpr e)

theorem Context.instantiated_notMem_findings {c : Context} {next node : ℕ} {i : Concrete} :
    .instantiated node i ∉ (c.findings next).2 := by
  intro h
  rcases List.mem_append.1 h with h | h
  · rcases List.mem_append.1 h with h | h
    · rcases List.mem_append.1 h with h | h
      · simpa using lifetimeFindings_cases h
      · simpa using constantFindings_cases h
    · simpa using coverageFindings_cases h
  · simpa using routingFindings_cases h

theorem Table.instances_entry?_iff {f : Finding} {node : ℕ} {c : Concrete} :
    instances.entry? f = some (node, c) ↔ f = .instantiated node c := by
  cases f <;> simp [instances]

namespace Session

variable {s : Session} {p : Program} {node : ℕ} {c : Concrete}

theorem instantiated_mem_findings_iff :
    .instantiated node c ∈ s.findings p ↔ ∃ b ∈ p.bodies, ∃ e, b.block.Contains e ∧ e.id = node ∧
      s.registry.usedInstance? b.scope e = some c := by
  constructor
  · intro h
    rcases List.mem_append.1 h with h | h
    · obtain ⟨b, hb, h⟩ := List.mem_flatMap.1 h
      obtain ⟨v, hv, h⟩ := List.mem_flatMap.1 h
      obtain ⟨e, hevent, rfl, hc⟩ := Registry.instantiated_mem_typeFindings_iff.1 h
      exact ⟨b, hb, e, Block.contains_of_mem_tour hv (Or.inl hevent), rfl, hc⟩
    · obtain ⟨next, b, -, h⟩ := Context.exists_of_mem_transduce h
      exact absurd h Context.instantiated_notMem_findings
  · rintro ⟨b, hb, e, he, rfl, hc⟩
    obtain ⟨setting, hv⟩ := Fragment.exists_enter_mem_visits (Block.has_expr_iff.2 he) .outermost
    refine List.mem_append_left _ (List.mem_flatMap.2 ⟨b, hb, List.mem_flatMap.2 ⟨_, hv, ?_⟩⟩)
    exact Registry.instantiated_mem_typeFindings_iff.2 ⟨e, rfl, rfl, hc⟩

theorem exists_used_of_instance (h : (s.analyze p).annotations.instances[node]? = some c) :
    ∃ b ∈ p.bodies, ∃ e, b.block.Contains e ∧ e.id = node ∧
      s.registry.usedInstance? b.scope e = some c := by
  have hread : (Table.instances.read (.ofFindings (s.findings p)))[node]? = some c := h
  obtain ⟨f, hf, hentry⟩ := Table.exists_entry_of_getElem? hread
  exact instantiated_mem_findings_iff.1 (Table.instances_entry?_iff.1 hentry ▸ hf)

theorem exists_instance_iff :
    (∃ c, (s.analyze p).annotations.instances[node]? = some c) ↔
      ∃ b ∈ p.bodies, ∃ e, b.block.Contains e ∧ e.id = node ∧
        s.registry.AppliesGeneric b.scope e := by
  constructor
  · rintro ⟨c, hc⟩
    obtain ⟨b, hb, e, he, hid, hused⟩ := exists_used_of_instance hc
    exact ⟨b, hb, e, he, hid, Registry.exists_usedInstance?_iff.1 ⟨c, hused⟩⟩
  · rintro ⟨b, hb, e, he, hid, happlies⟩
    obtain ⟨c, hused⟩ := Registry.exists_usedInstance?_iff.2 happlies
    have hf := instantiated_mem_findings_iff.2 ⟨b, hb, e, he, hid, hused⟩
    exact Table.exists_getElem?_of_entry hf (Table.instances_entry?_iff.2 rfl)

/-- Entries stand at exactly the expressions whose type applies a generic definition, and
they depend on no parameters but those of their methods. -/
theorem check_instances (o : Options) (requests : List Registry.Request) (signatures : Signatures)
    (p : Program) (node : ℕ) :
    let s : Session := ⟨o, Registry.empty.run requests, signatures⟩
    let r := (s.check p).1.registry
    let instances := (s.check p).2.annotations.instances
    (∀ c, instances[node]? = some c → c.Closed r) ∧
      ((∃ c, instances[node]? = some c) ↔
        ∃ b ∈ p.bodies, ∃ e, b.block.Contains e ∧ e.id = node ∧ r.AppliesGeneric b.scope e) := by
  intro s r instances
  have hr : r.WellFormed :=
    ((Registry.wellFormed_empty.run requests).declare p).serve .close
  refine ⟨?_, exists_instance_iff⟩
  intro c hc
  obtain ⟨b, -, e, -, -, hused⟩ := exists_used_of_instance hc
  exact Registry.closed_of_usedInstance? hr hused

end Session

namespace Boxes

def text : TypeRef := .named "String"

/-- A method with a parameter of the name of the parameter of its class. -/
def put : FunctionDecl where
  name := ⟨"put", .nowhere⟩
  generics := ["T"]
  params := [⟨⟨"other", .nowhere⟩, .named "T"⟩]
  ret := none
  throws := false
  body := none

def box : Expr := ⟨7, .nowhere, .applied "Box" [text], .var "box"⟩

def main : FunctionDecl where
  name := ⟨"main", .nowhere⟩
  generics := []
  params := [⟨⟨"box", .nowhere⟩, .applied "Box" [text]⟩]
  ret := none
  throws := false
  body := some ⟨.nowhere, [.expr box]⟩

def program : Program where
  decls := [.type (.classType ⟨⟨"Box", .nowhere⟩, ["T"], [⟨"item", .named "T", .nowhere⟩], [put]⟩),
    .function main]

def mainBody : Body := ⟨[], none, main, ⟨.nowhere, [.expr box]⟩⟩

theorem check_instances_box :
    let s := (Session.start .default).check program
    ∃ c, s.2.annotations.instances[7]? = some c ∧ c.Closed s.1.registry := by
  intro s
  obtain ⟨hclosed, hentries⟩ := Session.check_instances .default [] .empty program 7
  have hbox : mainBody.block.Contains box :=
    Block.mem_exprs_iff.1 (List.mem_singleton.2 rfl)
  have htype : (Registry.empty.declare program).1.close.typeOf mainBody.scope box.type =
      .adt 0 "Box" [.str] := by cbv
  have hstr : ∀ a ∈ [Ty.str], a.Ground :=
    List.forall_mem_singleton.2 (Ty.hasParams_eq_false_iff.1 rfl)
  obtain ⟨c, hc⟩ := hentries.2 ⟨mainBody, List.mem_singleton.2 rfl, box, hbox, rfl,
    0, "Box", [.str], htype, List.cons_ne_nil _ _, hstr⟩
  exact ⟨c, hc, hclosed c hc⟩

end Boxes

end ProgramSafety
