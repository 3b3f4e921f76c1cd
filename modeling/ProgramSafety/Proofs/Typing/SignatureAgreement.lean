import ProgramSafety.Proofs.Report.Limit
import ProgramSafety.Proofs.Tree.DeclaredBodies
import ProgramSafety.Proofs.Typing.Signatures

/-!
# Declared signatures and bodies

The written types of a function are read twice: for the signature, when its program is
taken in, and for the body, when the session is closed. Right after the program is taken in
both readings agree (`Session.resolvedBy_register`), and the signature never changes
(`Session.TakesIn.resolvedBy`). The body is read in a registry that may have grown, so in
the end the two agree exactly if no type that a later program declares captures a name in
them (`Session.signatures_agree_iff`).
-/

namespace ProgramSafety

/-- Nothing was reported, and nothing was dropped. -/
def Report.Silent (r : Report) : Prop := r.problems = [] ∧ r.truncated = false

instance : DecidablePred Report.Silent := fun r =>
  inferInstanceAs (Decidable (r.problems = [] ∧ r.truncated = false))

theorem Report.silent_ofProblems_iff {limit : Option ℕ} {ps : List Problem} :
    (ofProblems limit ps).Silent ↔ ps = [] := by
  rw [ofProblems_eq_cut]
  constructor
  · rintro ⟨hkept, hexceeds⟩
    rcases kept_eq_nil_iff.1 hkept with hnil | rfl
    · exact hnil
    -- Under the limit zero nothing is kept, so nothing was dropped only if nothing came.
    · simpa [cut, exceeds] using hexceeds
  · rintro rfl
    cases limit <;> exact ⟨by simp [cut, kept], by simp [cut, exceeds]⟩

def FunctionDecl.writtenTypes (f : FunctionDecl) : List TypeRef :=
  f.params.map Param.type ++ f.ret.toList

theorem Program.mem_bodies_cases {p : Program} {b : Body} (hb : b ∈ p.bodies) :
    (b.owner = none ∧ (b.space, b.func) ∈ p.functions) ∨
      ∃ c, b.owner = some c ∧ (b.space, .classType c) ∈ p.typeDecls ∧ b.func ∈ c.methods := by
  obtain ⟨⟨space, item⟩, hitem, hb⟩ := List.mem_flatMap.1 hb
  cases item with
  | function f =>
      obtain ⟨block, -, rfl⟩ := Body.of?_eq_some_iff.1 (Option.mem_toList.1 hb)
      exact Or.inl ⟨rfl, List.mem_filterMap.2 ⟨_, hitem, rfl⟩⟩
  | type d =>
      cases d with
      | classType c =>
          obtain ⟨f, hf, hb⟩ := List.mem_filterMap.1 hb
          obtain ⟨block, -, rfl⟩ := Body.of?_eq_some_iff.1 hb
          exact Or.inr ⟨c, rfl, List.mem_filterMap.2 ⟨_, hitem, rfl⟩, hf⟩
      | structType d => cases hb
      | enumType d => cases hb

/-- No earlier method of its class has the name that the function has: it is the one that
callers find. -/
def Body.IsFirst (b : Body) : Prop :=
  ∀ c, b.owner = some c → c.methods.find? (·.name.name == b.func.name.name) = some b.func

theorem Body.scope_of_owner {b : Body} {c : ClassDecl} (howner : b.owner = some c) :
    b.scope = Registry.methodScope ⟨b.space, c.generics⟩ b.func := by
  rw [Body.scope, howner]
  rfl

/-! ## The types of a signature -/

namespace Registry

variable {r r' : Registry} {scope : Scope}

def signatureTypes (r : Registry) (scope : Scope) (f : FunctionDecl) : List Ty × Ty :=
  (f.params.map fun p => r.typeOf scope p.type, r.returnType scope f.ret)

theorem Renumbers.signatureTypes_eq (h : Renumbers id r r') (scope : Scope) (f : FunctionDecl) :
    r'.signatureTypes scope f = r.signatureTypes scope f := by
  have htype : ∀ t, r'.typeOf scope t = r.typeOf scope t := fun t =>
    (h.typeOf scope t).trans (Ty.renumber_id _)
  have hret : r'.returnType scope f.ret = r.returnType scope f.ret :=
    (h.returnType scope f.ret).trans (Ty.renumber_id _)
  rw [signatureTypes, signatureTypes, hret]
  simp only [htype]

theorem Renumbers.method_eq (h : Renumbers id r r') (scope : Scope) (m : FunctionDecl) :
    r'.method scope m = r.method scope m := by
  obtain ⟨hparams, hret⟩ := Prod.mk.inj (h.signatureTypes_eq (methodScope scope m) m)
  rw [Registry.method, Registry.method, hparams, hret]

theorem signatureTypes_eq_iff {f : FunctionDecl} :
    r'.signatureTypes scope f = r.signatureTypes scope f ↔
      ∀ t ∈ f.writtenTypes, r'.typeOf scope t = r.typeOf scope t := by
  have hret : r'.returnType scope f.ret = r.returnType scope f.ret ↔
      ∀ t ∈ f.ret.toList, r'.typeOf scope t = r.typeOf scope t := by
    cases f.ret with
    | none => simp [returnType]
    | some t => simp [returnType]
  rw [signatureTypes, signatureTypes, Prod.mk.injEq, List.map_inj_left, hret,
    FunctionDecl.writtenTypes]
  simp only [List.mem_append, or_imp, forall_and, List.forall_mem_map]

theorem exists_resolve_of_problemsOf {t : TypeRef} (h : r.problemsOf scope t = []) :
    ∃ u, r.resolve scope t = .ok u := by
  unfold problemsOf at h
  split at h
  next u hu => exact ⟨u, hu⟩
  next => cases h

theorem exists_resolve_of_signatureProblems {f : FunctionDecl}
    (h : r.signatureProblems scope f = []) {t : TypeRef} (ht : t ∈ f.writtenTypes) :
    ∃ u, r.resolve scope t = .ok u := by
  obtain ⟨hparams, hret⟩ := List.append_eq_nil_iff.1 h
  rcases List.mem_append.1 ht with ht | ht
  · obtain ⟨p, hp, rfl⟩ := List.mem_map.1 ht
    exact exists_resolve_of_problemsOf (List.flatMap_eq_nil_iff.1 hparams p hp)
  · exact exists_resolve_of_problemsOf (List.flatMap_eq_nil_iff.1 hret t ht)

end Registry

/-- The types of the parameters and of the result that the analysis of a body goes by. -/
def Context.ownTypes (c : Context) : List Ty × Ty :=
  (c.body.func.params.map fun p => c.registry.typeOf c.body.scope p.type, c.returnType)

/-- The parameters are bound with the references that their types hold. -/
theorem Context.binders_body (c : Context) :
    c.binders .body = c.body.func.params.zipWith
      (fun p t => ⟨p.name, c.registry.countedPaths t, false⟩) c.ownTypes.1 := by
  rw [ownTypes, List.zipWith_map_right, List.zipWith_self]
  rfl

/-! ## Sessions -/

namespace Session

variable {s s' s'' : Session} {p : Program} {ps qs : List Program} {b : Body}

def registerEach (s : Session) : List Program → Session
  | [] => s
  | p :: ps => (s.register p).1.registerEach ps

def registerReports (s : Session) : List Program → List Report
  | [] => []
  | p :: ps => (s.register p).2 :: (s.register p).1.registerReports ps

def declaredTypes? (s : Session) (b : Body) : Option (List Ty × Ty) :=
  match b.owner with
  | none => (s.signatures.get? b.space b.func.name.name).map fun g => (g.params, g.ret)
  | some c => do
    let id ← s.registry.lookup? b.space c.name.name
    let d ← s.registry.get? id
    let m ← d.shape.method? b.func.name.name
    return (m.params, m.ret)

/-- The types stand in the signature of the function that a body belongs to, or in that of
its class which has the place of the method. -/
inductive Declares (s : Session) (b : Body) : List Ty × Ty → Prop
  | function {g : Signature} (howner : b.owner = none)
      (hg : s.signatures.get? b.space b.func.name.name = some g) : Declares s b (g.params, g.ret)
  | method {c : ClassDecl} {id i : ℕ} {d : TypeDef} {m : Method} (howner : b.owner = some c)
      (hid : s.registry.lookup? b.space c.name.name = some id) (hd : s.registry.get? id = some d)
      (hplace : c.methods[i]? = some b.func) (hm : d.shape.methods[i]? = some m) :
      Declares s b (m.params, m.ret)

/-- The session has what a registry makes of the function that a body belongs to, or of all
methods of its class. -/
def ResolvedBy (s : Session) (b : Body) (r : Registry) : Prop :=
  match b.owner with
  | none => ∃ g, s.signatures.get? b.space b.func.name.name = some g ∧
      (g.params, g.ret) = r.signatureTypes b.scope b.func
  | some c => ∃ id d, s.registry.lookup? b.space c.name.name = some id ∧
      s.registry.get? id = some d ∧
      d.shape.methods = c.methods.map (r.method ⟨b.space, c.generics⟩)

/-- What becomes of a session that takes in programs without a problem. -/
structure TakesIn (ps : List Program) (s s' : Session) : Prop where
  opened : s'.registry.closed = false
  grown : Registry.GrowsBy (ps.flatMap Program.typeKeys) s.registry s'.registry
  kept : ∀ {space name g}, s.signatures.get? space name = some g →
    s'.signatures.get? space name = some g

theorem TakesIn.trans (h : TakesIn ps s s') (h' : TakesIn qs s' s'') :
    TakesIn (ps ++ qs) s s'' where
  opened := h'.opened
  grown := by
    rw [List.flatMap_append]
    exact h.grown.trans h'.grown
  kept hg := h'.kept (h.kept hg)

theorem takesIn_register (hopen : s.registry.closed = false)
    (hsilent : s.registerProblems p = []) : TakesIn [p] s (s.register p).1 := by
  have hfresh := Registry.fresh_of_declare (List.append_eq_nil_iff.1 hsilent).1
  have hdefs := (Registry.declare_of_fresh hopen hfresh).1
  refine ⟨?_, ⟨?_, ?_⟩, fun hg => Signatures.get?_addAll_of_some hg p.functions⟩
  · exact (s.registry.closed_declare p).trans hopen
  · exact ⟨_, hdefs.symm⟩
  · rw [List.flatMap_singleton]
    exact Registry.keys_declare hopen hfresh

theorem takesIn_registerEach (hopen : s.registry.closed = false)
    (hsilent : ∀ report ∈ s.registerReports ps, report.Silent) :
    TakesIn ps s (s.registerEach ps) := by
  induction ps generalizing s with
  | nil => exact ⟨hopen, .refl _, fun hg => hg⟩
  | cons p ps ih =>
      obtain ⟨hfirst, hrest⟩ := List.forall_mem_cons.1 hsilent
      have hp := takesIn_register hopen (Report.silent_ofProblems_iff.1 hfirst)
      exact hp.trans (ih hp.opened hrest)

theorem registerEach_append (s : Session) (ps qs : List Program) :
    s.registerEach (ps ++ qs) = (s.registerEach ps).registerEach qs := by
  induction ps generalizing s with
  | nil => rfl
  | cons p ps ih => exact ih _

theorem registerReports_append (s : Session) (ps qs : List Program) :
    s.registerReports (ps ++ qs) =
      s.registerReports ps ++ (s.registerEach ps).registerReports qs := by
  induction ps generalizing s with
  | nil => rfl
  | cons p ps ih => exact congrArg _ (ih _)

/-! ## Agreement -/

/-- Once a program is taken in, its functions and methods are what the registry makes of them
then, and all types in them resolve. -/
theorem resolvedBy_register (hopen : s.registry.closed = false)
    (hsilent : s.registerProblems p = []) (hb : b ∈ p.bodies) :
    (s.register p).1.ResolvedBy b (s.register p).1.registry ∧
      (s.register p).1.registry.signatureProblems b.scope b.func = [] := by
  obtain ⟨hdeclare, hcollect⟩ := List.append_eq_nil_iff.1 hsilent
  rcases Program.mem_bodies_cases hb with ⟨howner, hfunction⟩ | ⟨c, howner, htype, hfunc⟩
  · obtain ⟨hget, hproblems⟩ := Signatures.get?_addAll_of_silent hcollect hfunction
    have hscope : b.scope = ⟨b.space, b.func.generics⟩ := by rw [Body.scope, howner]; rfl
    rw [ResolvedBy, howner, hscope]
    exact ⟨⟨_, hget, rfl⟩, hproblems⟩
  · have hfresh := Registry.fresh_of_declare hdeclare
    obtain ⟨hdefs, hproblems⟩ := Registry.declare_of_fresh hopen hfresh
    have hnames := s.registry.renumbers_declare p
    obtain ⟨id, hid⟩ := List.mem_iff_getElem?.1
      (List.mem_append_right s.registry.defs (List.mem_map.2 ⟨_, htype, rfl⟩))
    have hget : (s.register p).1.registry.get? id =
        some ((s.registry.withNames p.typeDecls).completed (b.space, .classType c)) := by
      rw [← hid]
      exact congrArg (fun defs : List TypeDef => defs[id]?) hdefs
    have hlookup : (s.register p).1.registry.lookup? b.space c.name.name = some id :=
      Registry.lookup?_eq_some_iff.2 ⟨_, hget, rfl, rfl⟩
    have hmembers : (s.registry.withNames p.typeDecls).shapeProblems b.space (.classType c) = [] :=
      List.flatMap_eq_nil_iff.1 (hproblems.symm.trans hdeclare) _ htype
    have hwritten := List.flatMap_eq_nil_iff.1 (List.append_eq_nil_iff.1 hmembers).2 b.func hfunc
    rw [ResolvedBy, howner, Body.scope_of_owner howner]
    refine ⟨⟨id, _, hlookup, hget, ?_⟩, (hnames.signatureProblems _ b.func).trans hwritten⟩
    exact List.map_congr_left fun m _ => (hnames.method_eq _ m).symm

theorem TakesIn.resolvedBy (h : TakesIn ps s s') {r : Registry}
    (hb : s.ResolvedBy b r) : s'.ResolvedBy b r := by
  unfold ResolvedBy at hb ⊢
  split at hb
  · obtain ⟨g, hg, htypes⟩ := hb
    exact ⟨g, h.kept hg, htypes⟩
  next c _ =>
    obtain ⟨id, d, hid, hd, hmethods⟩ := hb
    exact ⟨id, d, (h.grown.widens c.name.name).keeps hid, h.grown.get? hd, hmethods⟩

theorem ResolvedBy.declares_iff {r : Registry} (h : s.ResolvedBy b r) (hb : b ∈ p.bodies)
    {types : List Ty × Ty} : s.Declares b types ↔ types = r.signatureTypes b.scope b.func := by
  rcases Program.mem_bodies_cases hb with ⟨howner, -⟩ | ⟨c, howner, -, hfunc⟩
  · rw [ResolvedBy, howner] at h
    obtain ⟨g, hg, htypes⟩ := h
    constructor
    · rintro (⟨-, hg'⟩ | ⟨howner', -⟩)
      · rw [← htypes, Option.some.inj (hg'.symm.trans hg)]
      · cases howner.symm.trans howner'
    · rintro rfl
      rw [← htypes]
      exact .function howner hg
  · rw [ResolvedBy, howner] at h
    obtain ⟨id, d, hid, hd, hmethods⟩ := h
    have hplaced : ∀ {i : ℕ}, c.methods[i]? = some b.func →
        d.shape.methods[i]? = some (r.method ⟨b.space, c.generics⟩ b.func) := by
      intro i hi
      rw [hmethods, List.getElem?_map, hi]
      rfl
    rw [Body.scope_of_owner howner]
    constructor
    · rintro (⟨howner', -⟩ | ⟨howner', hid', hd', hplace, hm⟩)
      · cases howner.symm.trans howner'
      · obtain rfl := Option.some.inj (howner.symm.trans howner')
        obtain rfl := Option.some.inj (hid.symm.trans hid')
        obtain rfl := Option.some.inj (hd.symm.trans hd')
        obtain rfl := Option.some.inj ((hplaced hplace).symm.trans hm)
        rfl
    · rintro rfl
      obtain ⟨i, hi⟩ := List.mem_iff_getElem?.1 hfunc
      exact .method howner hid hd hi (hplaced hi)

/-- Callers see the first method of a name. -/
theorem ResolvedBy.declaredTypes? {r : Registry} (h : s.ResolvedBy b r) (hfirst : b.IsFirst) :
    s.declaredTypes? b = some (r.signatureTypes b.scope b.func) := by
  cases howner : b.owner with
  | none =>
      rw [ResolvedBy, howner] at h
      obtain ⟨g, hg, htypes⟩ := h
      rw [Session.declaredTypes?, howner, ← htypes]
      exact Option.map_eq_some_iff.2 ⟨g, hg, rfl⟩
  | some c =>
      rw [ResolvedBy, howner] at h
      obtain ⟨id, d, hid, hd, hmethods⟩ := h
      have hmethod : d.shape.method? b.func.name.name =
          some (r.method ⟨b.space, c.generics⟩ b.func) := by
        rw [Shape.method?, hmethods]
        exact (List.find?_map ..).trans (congrArg (Option.map _) (hfirst c howner))
      rw [Session.declaredTypes?, howner, Body.scope_of_owner howner]
      simp only [hid, hd, hmethod, Option.bind_eq_bind, Option.bind_some]
      rfl

/-- Closing a session that took in more programs, the body of a function sees the types it
saw before exactly if no name in them is captured. -/
theorem TakesIn.ownTypes_eq_iff (h : TakesIn ps s s')
    (hwritten : s.registry.signatureProblems b.scope b.func = []) (types : TypeTable) :
    (s'.close.1.context types b).ownTypes = s.registry.signatureTypes b.scope b.func ↔
      ∀ t ∈ b.func.writtenTypes, ∀ u, u.Occurs t → u.path = [] →
        Registry.reserved? b.scope u = none →
          ¬ Captures s.registry.keys (ps.flatMap Program.typeKeys) b.space u.name := by
  -- Closing changes no definition, so the closed registry has grown as the open one has.
  have hgrown : Registry.GrowsBy (ps.flatMap Program.typeKeys) s.registry s'.close.1.registry :=
    ⟨h.grown.defs, h.grown.keys⟩
  refine Registry.signatureTypes_eq_iff.trans (forall₂_congr fun t ht => ?_)
  obtain ⟨u, hu⟩ := Registry.exists_resolve_of_signatureProblems hwritten ht
  exact Registry.typeOf_eq_iff hgrown hu

/-- The signatures that a session without problems declares agree with its bodies exactly
as far as no later program captures a name in them. Every function or method has one
signature, which callers see unless an earlier method of the class has its name; the
analysis of the body goes by the types of the closed registry; and these are the types of
the signature if and only if no name that is written in it is declared by a later program
further inside than it was by then. -/
theorem signatures_agree_iff (o : Options) (types : TypeTable) (earlier later : List Program)
    (hsilent : ∀ report ∈ (start o).registerReports (earlier ++ p :: later), report.Silent)
    (hb : b ∈ p.bodies) :
    let s := ((start o).registerEach (earlier ++ p :: later)).close.1
    let c := s.context types b
    (∃ declared, (∀ types, s.Declares b types ↔ types = declared) ∧
      (b.IsFirst → s.declaredTypes? b = some declared) ∧
      (c.ownTypes = declared ↔
        ∀ t ∈ b.func.writtenTypes, ∀ u, u.Occurs t → u.path = [] →
          Registry.reserved? b.scope u = none →
            ¬ Captures ((earlier ++ [p]).flatMap Program.typeKeys)
              (later.flatMap Program.typeKeys) b.space u.name)) ∧
      c.binders .body = b.func.params.zipWith
        (fun q t => ⟨q.name, s.registry.countedPaths t, false⟩) c.ownTypes.1 := by
  intro s c
  refine ⟨?_, c.binders_body⟩
  rw [registerReports_append] at hsilent
  obtain ⟨hbefore, hrest⟩ := List.forall_mem_append.1 hsilent
  obtain ⟨hown, hafter⟩ := List.forall_mem_cons.1 hrest
  have hproblems := Report.silent_ofProblems_iff.1 hown
  have hearlier := takesIn_registerEach (s := start o) rfl hbefore
  have htaken := takesIn_register hearlier.opened hproblems
  have hlater := takesIn_registerEach htaken.opened hafter
  obtain ⟨hresolved, hwritten⟩ := resolvedBy_register hearlier.opened hproblems hb
  have hclosed : s = ((((start o).registerEach earlier).register p).1.registerEach later).close.1 :=
    congrArg (fun s => s.close.1) (registerEach_append ..)
  have hfinal : s.ResolvedBy b (((start o).registerEach earlier).register p).1.registry := by
    rw [hclosed]
    exact hlater.resolvedBy hresolved
  refine ⟨_, fun _ => hfinal.declares_iff hb, hfinal.declaredTypes?, ?_⟩
  rw [show c = _ from congrArg (·.context types b) hclosed,
    hlater.ownTypes_eq_iff hwritten types,
    (hearlier.trans htaken).grown.keys]
  rfl

end Session

/-! ## Names that are declared twice -/

namespace Redeclared

def visit : FunctionDecl where
  name := ⟨"visit", .nowhere⟩
  generics := []
  params := [⟨⟨"node", .nowhere⟩, .named "Node"⟩]
  ret := none
  throws := false
  body := some ⟨.nowhere, []⟩

def library : Program where
  decls := [.type (.classType ⟨⟨"Node", .nowhere⟩, [], [], []⟩), .space "graph" [.function visit]]

/-- A structure of the name of the class, in some other namespace. -/
def extension (space : String) : Program where
  decls := [.space space [.type (.structType ⟨⟨"Node", .nowhere⟩, [], []⟩)]]

def visitBody : Body := ⟨["graph"], none, visit, ⟨.nowhere, []⟩⟩

theorem signatures_agree_visit :
    (∀ report ∈ (Session.start .default).registerReports [library, extension "other"],
      report.Silent) ∧ visitBody ∈ library.bodies ∧ visitBody.IsFirst ∧
    ∀ types, let s := ((Session.start .default).registerEach [library, extension "other"]).close.1
      s.declaredTypes? visitBody = some (s.context types visitBody).ownTypes := by
  have hsilent : ∀ report ∈
      (Session.start .default).registerReports [library, extension "other"], report.Silent := by
    decide +kernel
  have hb : visitBody ∈ library.bodies := List.mem_singleton.2 rfl
  have hfirst : visitBody.IsFirst := fun c hc => nomatch hc
  refine ⟨hsilent, hb, hfirst, fun types => ?_⟩
  obtain ⟨⟨declared, -, hseen, hagree⟩, -⟩ :=
    Session.signatures_agree_iff .default types [] [extension "other"] hsilent hb
  have hdeclared := hseen hfirst
  rw [← hagree.2] at hdeclared
  · exact hdeclared
  · intro t ht u hu _ _
    obtain rfl := List.mem_singleton.1 ht
    rintro ⟨near, hnear, hadded, -⟩
    obtain ⟨rfl, -⟩ := Prod.mk.inj (List.mem_singleton.1 hadded)
    revert hnear
    decide

def put (type : String) : FunctionDecl where
  name := ⟨"put", .nowhere⟩
  generics := []
  params := [⟨⟨"item", .nowhere⟩, .named type⟩]
  ret := none
  throws := false
  body := some ⟨.nowhere, []⟩

def cell : ClassDecl := ⟨⟨"Cell", .nowhere⟩, [], [], [put "i32", put "Cell"]⟩

def cells : Program where
  decls := [.type (.classType cell)]

def putBody (type : String) : Body := ⟨[], some cell, put type, ⟨.nowhere, []⟩⟩

/-- A later program of the same namespace captures the name of the class: callers pass a
class that the body takes for a structure. And a class may declare one method twice, where
callers see the first only. Neither is reported. -/
theorem signatures_differ :
    (let s := (Session.start .default).registerEach [library, extension "graph"]
      let c := s.close.1.context (.ofBodies s.close.1.registry library.bodies) visitBody
      (∀ report ∈ (Session.start .default).registerReports [library, extension "graph"],
        report.Silent) ∧ s.close.2.Silent ∧
      s.close.1.declaredTypes? visitBody = some ([.adt 0 "Node" []], .void) ∧
      c.ownTypes = ([.adt 1 "graph::Node" []], .void)) ∧
    (let s := (Session.start .default).registerEach [cells]
      let c := s.close.1.context (.ofBodies s.close.1.registry cells.bodies) (putBody "Cell")
      (∀ report ∈ (Session.start .default).registerReports [cells], report.Silent) ∧
      s.close.2.Silent ∧
      s.close.1.declaredTypes? (putBody "Cell") = some ([.int .i32], .void) ∧
      c.ownTypes = ([.adt 0 "Cell" []], .void)) := by
  decide +kernel

end Redeclared

end ProgramSafety
