import Mathlib.Data.Nat.Notation
import ProgramSafety.Tree.Visit

/-!
# Fragments of a body

A body is made of expressions, statements and blocks, here called fragments. A
fragment lists its immediate parts, each with the setting it stands in, so that
the tour of every fragment satisfies a single equation (`Fragment.visits_eq`):
enter it, tour its parts from left to right, leave it. Statements about tours are
then proved by one induction on fragments instead of one for every kind of
expression, statement and list of them.

`Fragment.Occurs` says that an expression stands somewhere inside a fragment,
without mentioning tours.
-/

namespace ProgramSafety

/-- What a tour enters and leaves. -/
inductive Fragment where
  | expr (e : Expr)
  | stmt (s : Stmt)
  | block (role : Role) (b : Block)

def ExprForm.parts : ExprForm → List Fragment
  | .var _ | .int _ | .float _ | .bool _ | .str _ | .absent => []
  | .present e | .unary _ _ e | .addressOf e | .deref e | .cast e _ _ | .field e _ => [.expr e]
  | .binary l _ _ r => [.expr l, .expr r]
  | .index base i => [.expr base, .expr i]
  | .call _ _ args => args.map .expr
  | .methodCall receiver _ args => .expr receiver :: args.map .expr
  | .construct _ fields => fields.map fun f => .expr f.2
  | .variant _ _ .none => []
  | .variant _ _ (.positional args) => args.map .expr
  | .variant _ _ (.named fields) => fields.map fun f => .expr f.2
  | .array items => items.map .expr
  | .matchOn _ scrutinee arms =>
    .expr scrutinee :: arms.map fun a => .block (.arm scrutinee a.pattern) a.body

def Stmt.parts (here : Setting) : Stmt → List (Setting × Fragment)
  | .bind _ _ _ init => [(here, .expr init)]
  | .assign target value => [(here, .expr target), (here, .expr value)]
  | .expr e => [(here, .expr e)]
  | .ret none => []
  | .ret (some e) => [(here, .expr e)]
  | .branch cond t none => [(here, .expr cond), (here, .block .plain t)]
  | .branch cond t (some e) =>
    [(here, .expr cond), (here, .block .plain t), (here, .block .plain e)]
  | .loop cond body => [(here, .expr cond), (here, .block .plain body)]
  | .block b => [(here, .block .plain b)]
  | .unsafeBlock b => [({ here with rawAllowed := true }, .block .plain b)]
  | .attempt body binder handler =>
    [({ here with guarded := true }, .block .plain body), (here, .block (.handler binder) handler)]
  | .raise _ value => [(here, .expr value)]

namespace Fragment

def parts (here : Setting) : Fragment → List (Setting × Fragment)
  | expr e => e.form.parts.map (here, ·)
  | stmt s => s.parts here
  | block _ b => b.stmts.map fun s => (here, .stmt s)

def inside (n : Fragment) : List Fragment := (n.parts .outermost).map (·.2)

/-- The parts of a fragment do not depend on the setting, only their settings do. -/
theorem map_snd_parts (here : Setting) (n : Fragment) : (n.parts here).map (·.2) = n.inside := by
  cases n with
  | expr x => simp [inside, parts, Function.comp_def]
  | stmt s =>
      cases s with
      | ret value => cases value <;> rfl
      | branch cond t e => cases e <;> rfl
      | _ => rfl
  | block role b => simp [inside, parts, Function.comp_def]

theorem mem_inside_of_mem_parts {here : Setting} {n : Fragment} {p : Setting × Fragment}
    (hp : p ∈ n.parts here) : p.2 ∈ n.inside :=
  map_snd_parts here n ▸ List.mem_map.2 ⟨p, hp, rfl⟩

theorem exists_mem_parts_of_mem_inside {n m : Fragment} (hm : m ∈ n.inside) (here : Setting) :
    ∃ setting, (setting, m) ∈ n.parts here := by
  rw [← map_snd_parts here] at hm
  obtain ⟨⟨setting, m⟩, hp, rfl⟩ := List.mem_map.1 hm
  exact ⟨setting, hp⟩

inductive Occurs (e : Expr) : Fragment → Prop where
  | here : Occurs e (expr e)
  | inside {n m : Fragment} {setting setting' : Setting}
      (hm : (setting', m) ∈ n.parts setting) (h : Occurs e m) : Occurs e n

/-! ## Induction -/

noncomputable def size : Fragment → ℕ
  | expr e => sizeOf e
  | stmt s => sizeOf s
  | block _ b => sizeOf b

theorem size_lt_of_mem_map_expr {es : List Expr} {m : Fragment} (hm : m ∈ es.map expr) :
    m.size < sizeOf es := by
  obtain ⟨e, he, rfl⟩ := List.mem_map.1 hm
  exact List.sizeOf_lt_of_mem he

theorem size_lt_of_mem_map_snd {fs : List (String × Expr)} {m : Fragment}
    (hm : m ∈ fs.map fun f => expr f.2) : m.size < sizeOf fs := by
  obtain ⟨⟨name, e⟩, he, rfl⟩ := List.mem_map.1 hm
  have hlt := List.sizeOf_lt_of_mem he
  simp only [Prod.mk.sizeOf_spec] at hlt
  simp only [size]
  omega

theorem size_lt_of_mem_arms {scrutinee : Expr} {arms : List Arm} {m : Fragment}
    (hm : m ∈ arms.map fun a => block (.arm scrutinee a.pattern) a.body) :
    m.size < sizeOf arms := by
  obtain ⟨⟨pattern, body⟩, ha, rfl⟩ := List.mem_map.1 hm
  have hlt := List.sizeOf_lt_of_mem ha
  simp only [Arm.mk.sizeOf_spec] at hlt
  simp only [size]
  omega

theorem size_lt_of_mem_formParts {form : ExprForm} {m : Fragment} (hm : m ∈ form.parts) :
    m.size < sizeOf form := by
  cases form with
  | var | int | float | bool | str | absent => simp [ExprForm.parts] at hm
  | present | unary | addressOf | deref | cast | field =>
      obtain rfl := List.mem_singleton.1 hm
      simp only [size, ExprForm.present.sizeOf_spec, ExprForm.unary.sizeOf_spec,
        ExprForm.addressOf.sizeOf_spec, ExprForm.deref.sizeOf_spec, ExprForm.cast.sizeOf_spec,
        ExprForm.field.sizeOf_spec]
      omega
  | binary | index =>
      simp only [ExprForm.binary.sizeOf_spec, ExprForm.index.sizeOf_spec]
      obtain rfl | rfl : _ ∨ _ := by simpa [ExprForm.parts] using hm
      · simp only [size]
        omega
      · simp only [size]
        omega
  | call path callee args =>
      have := size_lt_of_mem_map_expr hm
      simp only [ExprForm.call.sizeOf_spec]
      omega
  | methodCall receiver method args =>
      simp only [ExprForm.methodCall.sizeOf_spec]
      rcases List.mem_cons.1 hm with rfl | hm
      · simp only [size]
        omega
      · have := size_lt_of_mem_map_expr hm
        omega
  | construct type fields =>
      have := size_lt_of_mem_map_snd hm
      simp only [ExprForm.construct.sizeOf_spec]
      omega
  | variant type name payload =>
      cases payload with
      | none => simp [ExprForm.parts] at hm
      | positional args =>
          have := size_lt_of_mem_map_expr hm
          simp only [ExprForm.variant.sizeOf_spec, Arguments.positional.sizeOf_spec]
          omega
      | named fields =>
          have := size_lt_of_mem_map_snd hm
          simp only [ExprForm.variant.sizeOf_spec, Arguments.named.sizeOf_spec]
          omega
  | array items =>
      have := size_lt_of_mem_map_expr hm
      simp only [ExprForm.array.sizeOf_spec]
      omega
  | matchOn span scrutinee arms =>
      simp only [ExprForm.matchOn.sizeOf_spec]
      rcases List.mem_cons.1 hm with rfl | hm
      · simp only [size]
        omega
      · have := size_lt_of_mem_arms hm
        omega

theorem size_lt_of_mem_stmtParts {s : Stmt} {here : Setting} {p : Setting × Fragment}
    (hp : p ∈ s.parts here) : p.2.size < sizeOf s := by
  cases s with
  | bind | expr | block | unsafeBlock | raise =>
      obtain rfl := List.mem_singleton.1 hp
      simp only [size, Stmt.bind.sizeOf_spec, Stmt.expr.sizeOf_spec, Stmt.block.sizeOf_spec,
        Stmt.unsafeBlock.sizeOf_spec, Stmt.raise.sizeOf_spec]
      omega
  | assign | loop | attempt =>
      simp only [Stmt.assign.sizeOf_spec, Stmt.loop.sizeOf_spec, Stmt.attempt.sizeOf_spec]
      obtain rfl | rfl : _ ∨ _ := by simpa [Stmt.parts] using hp
      · simp only [size]
        omega
      · simp only [size]
        omega
  | ret value =>
      cases value with
      | none => simp [Stmt.parts] at hp
      | some e =>
          obtain rfl := List.mem_singleton.1 hp
          simp only [size, Stmt.ret.sizeOf_spec, Option.some.sizeOf_spec]
          omega
  | branch cond t e =>
      simp only [Stmt.branch.sizeOf_spec]
      cases e with
      | none =>
          obtain rfl | rfl : _ ∨ _ := by simpa [Stmt.parts] using hp
          · simp only [size]
            omega
          · simp only [size]
            omega
      | some e =>
          simp only [Option.some.sizeOf_spec]
          obtain rfl | rfl | rfl : _ ∨ _ ∨ _ := by simpa [Stmt.parts] using hp
          · simp only [size]
            omega
          · simp only [size]
            omega
          · simp only [size]
            omega

theorem size_lt_of_mem_parts {n : Fragment} {here : Setting} {p : Setting × Fragment}
    (hp : p ∈ n.parts here) : p.2.size < n.size := by
  cases n with
  | expr e =>
      obtain ⟨m, hm, rfl⟩ := List.mem_map.1 hp
      have hlt := size_lt_of_mem_formParts hm
      cases e
      simp only [size, Expr.mk.sizeOf_spec] at hlt ⊢
      omega
  | stmt s => exact size_lt_of_mem_stmtParts hp
  | block role b =>
      obtain ⟨s, hs, rfl⟩ := List.mem_map.1 hp
      have hlt := List.sizeOf_lt_of_mem hs
      cases b
      simp only [size, Block.mk.sizeOf_spec] at hlt ⊢
      omega

/-- What holds of a fragment as soon as it holds of its parts holds of all. -/
theorem induction {motive : Fragment → Prop}
    (step : ∀ n, (∀ here, ∀ p ∈ n.parts here, motive p.2) → motive n) (n : Fragment) :
    motive n := by
  induction hsize : n.size using Nat.strongRecOn generalizing n with
  | ind k ih =>
      subst hsize
      exact step n fun here p hp => ih _ (size_lt_of_mem_parts hp) p.2 rfl

/-- What holds of an expression as soon as it holds of the expressions among its
parts holds of all. -/
theorem induction_expr {motive : Expr → Prop}
    (step : ∀ e, (∀ x, expr x ∈ e.form.parts → motive x) → motive e) (e : Expr) : motive e := by
  have hall : ∀ n e, n = expr e → motive e := by
    intro n
    induction n using Fragment.induction with
    | step n ih =>
        rintro e rfl
        apply step
        intro x hx
        exact ih .outermost (.outermost, expr x) (List.mem_map.2 ⟨_, hx, rfl⟩) x rfl
  exact hall _ e rfl

/-! ## The tour of a fragment -/

def enter : Fragment → Event
  | expr e => .enterExpr e
  | stmt s => .enterStmt s
  | block role b => .openBlock role b

def leave : Fragment → Event
  | expr e => .leaveExpr e
  | stmt s => .leaveStmt s
  | block role b => .closeBlock role b

variable (below : Expr → Bool)

def visits (here : Setting) : Fragment → List Visit
  | expr e => e.visits below here
  | stmt s => ⟨here, .enterStmt s⟩ :: s.visitsInside below here ++ [⟨here, .leaveStmt s⟩]
  | block role b => b.visits below here role

def toured (here : Setting) : Fragment → List (Setting × Fragment)
  | expr e => if below e then (expr e).parts here else []
  | n => n.parts here

theorem visitsList_eq_flatMap (here : Setting) (es : List Expr) :
    Expr.visitsList below here es = es.flatMap (Expr.visits below here) := by
  induction es with
  | nil => rfl
  | cons e es ih => rw [Expr.visitsList, ih, List.flatMap_cons]

theorem visitsFields_eq_flatMap (here : Setting) (fs : List (String × Expr)) :
    Expr.visitsFields below here fs = fs.flatMap fun f => f.2.visits below here := by
  induction fs with
  | nil => rfl
  | cons f fs ih =>
      obtain ⟨name, e⟩ := f
      rw [Expr.visitsFields, ih, List.flatMap_cons]

theorem armVisitsList_eq_flatMap (here : Setting) (scrutinee : Expr) (arms : List Arm) :
    Arm.visitsList below here scrutinee arms =
      arms.flatMap fun a => a.body.visits below here (.arm scrutinee a.pattern) := by
  induction arms with
  | nil => rfl
  | cons a arms ih =>
      obtain ⟨pattern, body⟩ := a
      rw [Arm.visitsList, ih, List.flatMap_cons]

theorem stmtVisitsList_eq_flatMap (here : Setting) (ss : List Stmt) :
    Stmt.visitsList below here ss = ss.flatMap fun s => visits below here (stmt s) := by
  induction ss with
  | nil => rfl
  | cons s ss ih =>
      rw [Stmt.visitsList, ih, List.flatMap_cons]
      simp [visits]

theorem formVisits_eq_flatMap (here : Setting) (form : ExprForm) :
    form.visits below here = form.parts.flatMap (visits below here) := by
  cases form with
  | variant type name payload =>
      cases payload with
      | none => simp [ExprForm.visits, Arguments.visits, ExprForm.parts]
      | positional args =>
          simp [ExprForm.visits, Arguments.visits, ExprForm.parts, visitsList_eq_flatMap,
            List.flatMap_map, visits]
      | named fields =>
          simp [ExprForm.visits, Arguments.visits, ExprForm.parts, visitsFields_eq_flatMap,
            List.flatMap_map, visits]
  | _ =>
      simp [ExprForm.visits, ExprForm.parts, visitsList_eq_flatMap, visitsFields_eq_flatMap,
        armVisitsList_eq_flatMap, List.flatMap_map, visits]

theorem stmtVisits_eq_flatMap (here : Setting) (s : Stmt) :
    s.visitsInside below here = (s.parts here).flatMap fun p => visits below p.1 p.2 := by
  cases s with
  | ret value => cases value <;> simp [Stmt.visitsInside, Stmt.parts, visits]
  | branch cond t e => cases e <;> simp [Stmt.visitsInside, Stmt.parts, visits]
  | _ => simp [Stmt.visitsInside, Stmt.parts, visits]

/-- A fragment is entered, its parts are toured in order, and it is left. -/
theorem visits_eq (here : Setting) (n : Fragment) :
    n.visits below here = ⟨here, n.enter⟩ ::
      (n.toured below here).flatMap (fun p => p.2.visits below p.1) ++ [⟨here, n.leave⟩] := by
  cases n with
  | expr e =>
      have hparts : (if below e then e.form.visits below here else []) =
          ((expr e).toured below here).flatMap fun p => p.2.visits below p.1 := by
        rw [toured]
        split
        · rw [formVisits_eq_flatMap, parts, List.flatMap_map]
        · rfl
      rw [← hparts]
      cases e
      rfl
  | stmt s =>
      rw [toured, parts, ← stmtVisits_eq_flatMap]
      · rfl
      · simp
  | block role b =>
      have hparts : Stmt.visitsList below here b.stmts =
          ((block role b).toured below here).flatMap fun p => p.2.visits below p.1 := by
        rw [stmtVisitsList_eq_flatMap, toured, parts, List.flatMap_map]
        simp
      rw [← hparts]
      cases b
      rfl

end Fragment

end ProgramSafety
