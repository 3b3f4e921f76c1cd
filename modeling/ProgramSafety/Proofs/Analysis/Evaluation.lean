import ProgramSafety.Proofs.Analysis.ConstantRun
import ProgramSafety.Proofs.Number.Range

/-!
# Constants are what evaluation gives

`Context.evaluate` is the value of an expression of literals by recursion on the
expression, with the arithmetic and the casts of the running program and without
any table. The constants and folded markers of a body agree with it, and a
constant overflow is reported exactly where it faults.
-/

namespace ProgramSafety

inductive Evaluated where
  | number (s : Scalar)
  | optional (s : Option Scalar)
deriving DecidableEq

inductive Obstacle where
  /-- Its evaluation fails. -/
  | fault (f : Fault)
  /-- It is not made of literals, or not of numbers. -/
  | input
deriving DecidableEq

namespace Obstacle

def orInput {α : Type} : Option α → Except Obstacle α
  | some a => .ok a
  | none => .error .input

def orFault {α : Type} : Except Fault α → Except Obstacle α
  | .ok a => .ok a
  | .error f => .error (.fault f)

end Obstacle

namespace Evaluated

def scalar : Evaluated → Except Obstacle Scalar
  | number s => .ok s
  | optional _ => .error .input

def int : Evaluated → Except Obstacle Int
  | number (.int v) => .ok v
  | _ => .error .input

def cast (s : Scalar) (t : NumericType) : CastForm → Except Obstacle Evaluated
  | .fallible => .ok (optional (s.convert? t))
  | .asserting => (Obstacle.orFault (s.assertCast t)).map number
  | .truncating => .ok (number (s.truncate t))
  | .saturating => .ok (number (s.saturate t))

def ofCast (form : CastForm) : Option Scalar → Evaluated
  | some s => if form = .fallible then optional (some s) else number s
  | none => optional none

theorem cast_eq (s : Scalar) (t : NumericType) (form : CastForm) :
    cast s t form = (Obstacle.orFault (form.apply s t)).map (ofCast form) := by
  cases form with
  | fallible =>
      rw [cast, CastForm.apply]
      cases s.convert? t <;> rfl
  | asserting =>
      rw [cast, CastForm.apply]
      cases s.assertCast t <;> rfl
  | truncating => rfl
  | saturating => rfl

theorem ofCast_of_constant? {form : CastForm} {value : Option Scalar} {v : Int}
    (h : form.constant? value = some v) : ofCast form value = number (.int v) := by
  obtain ⟨hne, rfl⟩ := CastForm.constant?_eq_some_iff.1 h
  rw [ofCast, if_neg hne]

end Evaluated

namespace Context

/-- The value of an expression of literals. A negated literal is one literal. -/
def evaluate (c : Context) : Expr → Except Obstacle Evaluated
  | ⟨_, _, _, .int v⟩ => .ok (.number (.int v))
  | ⟨_, _, _, .unary .neg _ ⟨_, _, _, .int v⟩⟩ => .ok (.number (.int (-v)))
  | ⟨id, span, type, .unary .neg mode inner⟩ => do
    let t ← Obstacle.orInput (c.types.expr ⟨id, span, type, .unary .neg mode inner⟩).int?
    let v ← (← c.evaluate inner).int
    (Obstacle.orFault (mode.apply t .neg v 0)).map (.number <| .int ·)
  | ⟨id, span, type, .binary left op mode right⟩ => do
    let t ← Obstacle.orInput (c.types.expr ⟨id, span, type, .binary left op mode right⟩).int?
    let op ← Obstacle.orInput op.intOp?
    let l ← (← c.evaluate left).int
    let r ← (← c.evaluate right).int
    (Obstacle.orFault (mode.apply t op l r)).map (.number <| .int ·)
  | ⟨id, span, type, .cast inner form target⟩ => do
    let t ← Obstacle.orInput
      (c.types.castTarget ⟨id, span, type, .cast inner form target⟩).numeric?
    let s ← (← c.evaluate inner).scalar
    Evaluated.cast s t form
  | _ => .error .input

variable {c : Context} {e : Expr} {o : IntOperation}

theorem evaluate_of_literal {t : IntType} {v : Int} (hlit : c.literal? e = some (t, v))
    (hv : v ∈ t) : c.evaluate e = .ok (.number (.int v)) := by
  obtain ⟨id, span, type, form⟩ := e
  rw [literal?] at hlit
  split at hlit
  next t' w ht hform =>
    obtain ⟨rfl, rfl⟩ := Prod.mk.inj (Option.some.inj hlit)
    subst hform
    rw [evaluate]
  next t' mode id' span' type' w ht hform =>
    obtain ⟨rfl, rfl⟩ := Prod.mk.inj (Option.some.inj hlit)
    subst hform
    rw [evaluate, IntType.wideClamp_eq_of_mem hv]
  next => cases hlit

theorem Arithmetic.evaluate_eq (h : c.Arithmetic e o) {l r : Int}
    (hl : c.evaluate o.left = .ok (.number (.int l)))
    (hr : ∀ x ∈ o.right, c.evaluate x = .ok (.number (.int r)))
    (hnone : o.right = none → r = 0) :
    c.evaluate e =
      (Obstacle.orFault (o.mode.apply o.type o.op l r)).map (.number <| .int ·) := by
  obtain ⟨id, span, type, form⟩ := e
  cases h with
  | @binary left right op op' mode t hform hop ht =>
      subst hform
      have hr' := hr _ rfl
      simp only at hl
      rw [evaluate, ht, hop, hl, hr']
      rfl
  | @neg inner mode t hform hinner ht =>
      subst hform
      obtain rfl := hnone rfl
      simp only at hl
      rw [evaluate, ht, hl]
      · rfl
      · rintro id' span' type' v rfl
        exact hinner v rfl

theorem evaluate_of_cast {inner : Expr} {form : CastForm} {target : TypeRef} {s : Scalar}
    {t : NumericType} (hform : e.form = .cast inner form target)
    (ht : (c.types.castTarget e).numeric? = some t) (hs : c.evaluate inner = .ok (.number s)) :
    c.evaluate e = (Obstacle.orFault (form.apply s t)).map (Evaluated.ofCast form) := by
  obtain ⟨id, span, type, form⟩ := e
  subst hform
  rw [evaluate, ht, hs, ← Evaluated.cast_eq]
  rfl

/-- Only casts to numbers are evaluated. -/
theorem evaluate_of_cast_eq_input {inner : Expr} {form : CastForm} {target : TypeRef}
    (hform : e.form = .cast inner form target)
    (ht : (c.types.castTarget e).numeric? = none) : c.evaluate e = .error .input := by
  obtain ⟨id, span, type, form⟩ := e
  subst hform
  rw [evaluate, ht]
  rfl

end Context

end ProgramSafety
