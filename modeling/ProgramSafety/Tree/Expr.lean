import ProgramSafety.Tree.Operator
import ProgramSafety.Tree.TypeRef

/-!
# Expressions and statements

The bodies of functions. An expression carries an id, by which analyses refer to
it, and the type that was written or inferred for it.
-/

namespace ProgramSafety

structure FieldBinding where
  field : Ident
  binder : Ident
deriving DecidableEq, Repr

/-- How a pattern binds the payload of a variant. -/
inductive Bindings where
  | none
  | positional (binders : List Ident)
  | named (fields : List FieldBinding)
deriving DecidableEq, Repr

structure Alternative where
  span : Span
  name : String
  bindings : Bindings
deriving DecidableEq, Repr

inductive Pattern where
  | catchAll (span : Span)
  | variants (span : Span) (alternatives : List Alternative)
deriving DecidableEq, Repr

def Pattern.span : Pattern → Span
  | catchAll s => s
  | variants s _ => s

mutual

structure Expr where
  id : Nat
  span : Span
  type : TypeRef
  form : ExprForm

inductive ExprForm where
  | var (name : String)
  | int (v : Int)
  | float (x : Binary64)
  | bool (b : Bool)
  | str (s : String)
  | absent
  | present (e : Expr)
  | unary (op : UnaryOp) (mode : ArithMode) (e : Expr)
  | binary (left : Expr) (op : BinaryOp) (mode : ArithMode) (right : Expr)
  | call (path : List String) (callee : String) (args : List Expr)
  | methodCall (receiver : Expr) (method : String) (args : List Expr)
  | field (base : Expr) (name : String)
  | index (base index : Expr)
  | cast (e : Expr) (form : CastForm) (target : TypeRef)
  | construct (type : TypeRef) (fields : List (String × Expr))
  | variant (type : TypeRef) (name : String) (payload : Arguments)
  | array (items : List Expr)
  | addressOf (e : Expr)
  | deref (e : Expr)
  | matchOn (span : Span) (scrutinee : Expr) (arms : List Arm)

inductive Arguments where
  | none
  | positional (args : List Expr)
  | named (args : List (String × Expr))

structure Arm where
  pattern : Pattern
  body : Block

structure Block where
  span : Span
  stmts : List Stmt

inductive Stmt where
  | bind (name : Ident) (isMutable : Bool) (type : TypeRef) (init : Expr)
  | assign (target value : Expr)
  | expr (e : Expr)
  | ret (value : Option Expr)
  | branch (cond : Expr) (thenBlock : Block) (elseBlock : Option Block)
  | loop (cond : Expr) (body : Block)
  | block (b : Block)
  | unsafeBlock (b : Block)
  | attempt (body : Block) (binder : Option Ident) (handler : Block)
  | raise (span : Span) (value : Expr)

end

namespace Expr

/-- Denoting a place that keeps its value: copying out of it shares what it owns. -/
def isPlace (e : Expr) : Bool :=
  match e.form with
  | .var _ | .field .. | .index .. | .deref _ => true
  | _ => false

end Expr

/-- The type an expression of this form has when nothing else is written. -/
def ExprForm.impliedType? : ExprForm → Option TypeRef
  | bool _ => some (.named "bool")
  | str _ => some (.named "String")
  | present e => some (.applied "Optional" [e.type])
  | unary _ _ e => some e.type
  | binary l op _ _ => some (if op.isArithmetic then l.type else .named "bool")
  | cast _ form target =>
    some (if form = .fallible then .applied "Optional" [target] else target)
  | construct type _ => some type
  | variant type _ _ => some type
  | addressOf e => some (.applied "RawPtr" [e.type])
  | _ => none

end ProgramSafety
