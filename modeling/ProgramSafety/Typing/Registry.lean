import ProgramSafety.Report.Problem
import ProgramSafety.Typing.Definition

/-!
# The registry

The definitions of all types, numbered in the order of registration, and the map
from names to these numbers. A name is looked up in the namespace it is used in
and then outward, a qualified name exactly where its path says. Once closed, the
registry takes no more definitions.

A registry is only what registering definitions, filling in their members and
closing lead to: it carries the way it was built.
-/

namespace ProgramSafety

/-- The numbers of definitions by namespace and name, the newest entry first. -/
abbrev NameMap := List ((Namespace × String) × Nat)

/-- The ways in which definitions and the map of their names come about. -/
inductive Registry.Built : List TypeDef → NameMap → Bool → Prop where
  | empty : Built [] [] false
  | register {defs : List TypeDef} {names : NameMap} (h : Built defs names false) {d : TypeDef}
      (hnew : names.lookup d.key = none) :
      Built (defs ++ [d]) ((d.key, defs.length) :: names) false
  | setShape {defs : List TypeDef} {names : NameMap} {closed : Bool} (h : Built defs names closed)
      (id : Nat) (s : Shape) :
      Built (defs.modify id fun d => { d with shape := s }) names closed
  | close {defs : List TypeDef} {names : NameMap} {closed : Bool} (h : Built defs names closed) :
      Built defs names true

theorem Registry.Built.lt_length {defs : List TypeDef} {names : NameMap} {closed : Bool}
    (h : Built defs names closed) {key : Namespace × String} {id : Nat}
    (hid : names.lookup key = some id) : id < defs.length := by
  induction h with
  | empty => simp at hid
  | register _ _ ih =>
    rw [List.lookup_cons] at hid
    rw [List.length_append, List.length_singleton]
    split at hid
    next =>
      obtain rfl := Option.some.inj hid
      exact Nat.lt_succ_self _
    next => exact Nat.lt_succ_of_lt (ih hid)
  | setShape _ _ _ ih =>
    rw [List.length_modify]
    exact ih hid
  | close _ ih => exact ih hid

structure Registry where
  defs : List TypeDef
  names : NameMap
  closed : Bool
  built : Registry.Built defs names closed

namespace Registry

def empty : Registry := ⟨[], [], false, .empty⟩

def close (r : Registry) : Registry := { r with closed := true, built := r.built.close }

def get? (r : Registry) (id : Nat) : Option TypeDef := r.defs[id]?

def lookup? (r : Registry) (space : Namespace) (name : String) : Option Nat :=
  r.names.lookup (space, name)

def push (r : Registry) (d : TypeDef) (hopen : r.closed = false)
    (hnew : r.names.lookup d.key = none) : Registry where
  defs := r.defs ++ [d]
  names := (d.key, r.defs.length) :: r.names
  closed := false
  built := .register (hopen ▸ r.built) hnew

def register (r : Registry) (d : TypeDef) : Except Problem (Nat × Registry) :=
  if hclosed : r.closed then .error ⟨.registryClosed d.qualifiedName, d.span⟩
  else
    match hname : r.names.lookup d.key with
    | some id =>
      let previous := r.defs.get ⟨id, r.built.lt_length hname⟩
      .error ⟨.duplicateType d.name previous.span, d.span⟩
    | none => .ok (r.defs.length, r.push d (Bool.eq_false_iff.2 hclosed) hname)

def find? (r : Registry) (scope : Scope) (t : TypeRef) : Option Nat :=
  if t.path.isEmpty then scope.space.outward.findSome? (r.lookup? · t.name)
  else r.lookup? t.path t.name

/-- The definition a written type refers to, given as many arguments as it takes. -/
def resolveDef (r : Registry) (scope : Scope) (t : TypeRef) : Except Problem (Nat × TypeDef) :=
  match r.find? scope t with
  | none => .error ⟨.unknownType t.text, t.span⟩
  | some id =>
    match r.get? id with
    | none => .error ⟨.unknownType t.text, t.span⟩
    | some d =>
      if d.generics.length = t.args.length then .ok (id, d)
      else .error ⟨.genericArity d.qualifiedName d.generics.length t.args.length, t.span⟩

/-- What an unqualified name means before any definition is looked at. -/
inductive Reserved where
  | plain (t : Ty)
  | wrapper (w : Wrapper)

/-- Type parameters in scope come before the built-in names. -/
def reserved? (scope : Scope) (t : TypeRef) : Option Reserved :=
  if !t.path.isEmpty then none
  else if scope.generics.contains t.name then some (.plain (.param t.name))
  else
    match Ty.scalar? t.name with
    | some s => some (.plain s)
    | none => (Wrapper.ofName? t.name).map .wrapper

mutual

/-- The type a written type stands for in a scope. -/
def resolve (r : Registry) (scope : Scope) : TypeRef → Except Problem Ty
  | ⟨span, path, name, args⟩ =>
    let t : TypeRef := ⟨span, path, name, args⟩
    let arity (expected : Nat) : Except Problem Ty :=
      .error ⟨.genericArity t.text expected args.length, span⟩
    match reserved? scope t with
    | some (.plain s) => if args.isEmpty then .ok s else arity 0
    | some (.wrapper w) =>
      match args with
      | [a] => (r.resolve scope a).map (.wrap w)
      | _ => arity 1
    | none =>
      match r.resolveDef scope t with
      | .error p => .error p
      | .ok (id, d) => (r.resolveList scope args).map (.adt id d.qualifiedName)

/-- The types of a list, up to the first that does not resolve. -/
def resolveList (r : Registry) (scope : Scope) : List TypeRef → Except Problem (List Ty)
  | [] => .ok []
  | t :: ts =>
    match r.resolve scope t with
    | .error p => .error p
    | .ok u => (r.resolveList scope ts).map (u :: ·)

end

/-- The type a written type stands for, `unknown` when there is none. -/
def typeOf (r : Registry) (scope : Scope) (t : TypeRef) : Ty :=
  match r.resolve scope t with
  | .ok u => u
  | .error _ => .unknown

def problemsOf (r : Registry) (scope : Scope) (t : TypeRef) : List Problem :=
  match r.resolve scope t with
  | .ok _ => []
  | .error p => [p]

end Registry

end ProgramSafety
