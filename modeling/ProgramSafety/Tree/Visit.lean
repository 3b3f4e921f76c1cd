import ProgramSafety.Tree.Expr

/-!
# Visits

The tour of a body: every block, statement and expression is entered and left
once, parents around their parts, parts from left to right. A visit also says in
what setting it happens, that is, whether it lies inside the body of a `try`
statement and inside an unsafe block. Analyses of bodies are folds over the
tour; a tour may be told not to go below certain expressions.
-/

namespace ProgramSafety

/-- What encloses a visit. -/
structure Setting where
  /-- Inside the body of some `try` statement, where a failure is caught. -/
  guarded : Bool
  /-- Inside some unsafe block, where raw pointers may be used. -/
  rawAllowed : Bool
deriving DecidableEq, Repr

def Setting.outermost : Setting := ⟨false, false⟩

/-- What a block is to the construct it belongs to. -/
inductive Role where
  | body
  | plain
  | handler (binder : Option Ident)
  | arm (scrutinee : Expr) (pattern : Pattern)

inductive Event where
  | openBlock (role : Role) (block : Block)
  | closeBlock (role : Role) (block : Block)
  | enterStmt (s : Stmt)
  | leaveStmt (s : Stmt)
  | enterExpr (e : Expr)
  | leaveExpr (e : Expr)

structure Visit where
  setting : Setting
  event : Event

section Tour

variable (below : Expr → Bool)

mutual

/-- The tour of an expression, which goes below the expressions that `below` admits. -/
def Expr.visits (here : Setting) : Expr → List Visit
  | ⟨id, span, type, form⟩ =>
    let e : Expr := ⟨id, span, type, form⟩
    ⟨here, .enterExpr e⟩ :: (if below e then form.visits here else []) ++ [⟨here, .leaveExpr e⟩]

def ExprForm.visits (here : Setting) : ExprForm → List Visit
  | .var _ | .int _ | .float _ | .bool _ | .str _ | .absent => []
  | .present e | .unary _ _ e | .addressOf e | .deref e | .cast e _ _ => e.visits here
  | .field base _ => base.visits here
  | .binary l _ _ r => l.visits here ++ r.visits here
  | .index base index => base.visits here ++ index.visits here
  | .call _ _ args => Expr.visitsList here args
  | .methodCall receiver _ args => receiver.visits here ++ Expr.visitsList here args
  | .construct _ fields => Expr.visitsFields here fields
  | .variant _ _ payload => payload.visits here
  | .array items => Expr.visitsList here items
  | .matchOn _ scrutinee arms => scrutinee.visits here ++ Arm.visitsList here scrutinee arms

def Arguments.visits (here : Setting) : Arguments → List Visit
  | .none => []
  | .positional args => Expr.visitsList here args
  | .named fields => Expr.visitsFields here fields

def Expr.visitsList (here : Setting) : List Expr → List Visit
  | [] => []
  | e :: es => e.visits here ++ Expr.visitsList here es

def Expr.visitsFields (here : Setting) : List (String × Expr) → List Visit
  | [] => []
  | (_, e) :: fs => e.visits here ++ Expr.visitsFields here fs

def Arm.visitsList (here : Setting) (scrutinee : Expr) : List Arm → List Visit
  | [] => []
  | ⟨pattern, body⟩ :: arms =>
    body.visits here (.arm scrutinee pattern) ++ Arm.visitsList here scrutinee arms

def Block.visits (here : Setting) (role : Role) : Block → List Visit
  | ⟨span, stmts⟩ =>
    let b : Block := ⟨span, stmts⟩
    ⟨here, .openBlock role b⟩ :: Stmt.visitsList here stmts ++ [⟨here, .closeBlock role b⟩]

def Stmt.visitsList (here : Setting) : List Stmt → List Visit
  | [] => []
  | s :: ss => ⟨here, .enterStmt s⟩ :: s.visitsInside here ++ ⟨here, .leaveStmt s⟩ ::
      Stmt.visitsList here ss

def Stmt.visitsInside (here : Setting) : Stmt → List Visit
  | .bind _ _ _ init => init.visits here
  | .assign target value => target.visits here ++ value.visits here
  | .expr e => e.visits here
  | .ret none => []
  | .ret (some e) => e.visits here
  | .branch cond t none => cond.visits here ++ t.visits here .plain
  | .branch cond t (some e) => cond.visits here ++ t.visits here .plain ++ e.visits here .plain
  | .loop cond body => cond.visits here ++ body.visits here .plain
  | .block b => b.visits here .plain
  | .unsafeBlock b => b.visits { here with rawAllowed := true } .plain
  | .attempt body binder handler =>
    body.visits { here with guarded := true } .plain ++ handler.visits here (.handler binder)
  | .raise _ value => value.visits here

end

end Tour

def Block.tour (b : Block) : List Visit := b.visits (fun _ => true) .outermost .body

end ProgramSafety
