import ProgramSafety.Analysis.Ledger
import ProgramSafety.Ownership.CountedPath
import ProgramSafety.Report.Basic
import ProgramSafety.Tree.Operator
import ProgramSafety.Typing.Instances

/-!
# Annotations

What an analysis tells about a program: the reference-counting work and the
run-time checks to insert, the arms that handle each variant of a match, the way
every failure takes, and the generic instances in use. Analyses produce
findings; annotations are what the findings add up to.
-/

namespace ProgramSafety

/-- Reference-counting work, at a node of the tree or at a binding. -/
inductive Obligation where
  | retain (node : Nat)
  | release (binding : String) (decl : Nat) (path : Option FieldPath) (scopeEnd : Span)
  | releaseOverwritten (node : Nat)
  | deepCopy (node : Nat) (paths : List FieldPath)
  | retainBinder (decl : Nat) (paths : List FieldPath)
  | weakStore (node : Nat)
  | weakRead (node : Nat)
deriving DecidableEq, Repr

inductive Anchor where
  | node (id : Nat)
  | binding (decl : Nat)
deriving DecidableEq, Repr

namespace Anchor

def isBinding : Anchor → Bool
  | node _ => false
  | binding _ => true

def number : Anchor → Nat
  | node id => id
  | binding decl => decl

/-- Nodes come before bindings. -/
instance : Ord Anchor := ⟨compareLex (compareOn isBinding) (compareOn number)⟩

instance : Std.TransOrd Anchor :=
  inferInstanceAs (Std.TransCmp (compareLex (compareOn isBinding) (compareOn number)))

instance : Std.LawfulEqOrd Anchor where
  eq_of_compare := by
    intro a b h
    have h' : compareLex (compareOn isBinding) (compareOn number) a b = .eq := h
    cases a <;> cases b <;>
      simp_all [compareLex, compareOn, isBinding, number, Ordering.then_eq_eq]

end Anchor

namespace Obligation

def anchor : Obligation → Anchor
  | retain n | releaseOverwritten n | deepCopy n _ | weakStore n | weakRead n => .node n
  | release _ d _ _ | retainBinder d _ => .binding d

def node? (o : Obligation) : Option Nat :=
  match o.anchor with
  | .node n => some n
  | .binding _ => none

def keyed : Keyed Anchor Obligation := ⟨anchor, fun a b => a == b⟩

end Obligation

inductive Marker where
  | overflow (node : Nat) (op : IntOp) (type : IntType) (zeroDivisor : Bool)
  | wrapping (node : Nat) (op : IntOp) (type : IntType)
  | folded (node : Nat) (value : Int)
  | foldedCast (node : Nat) (form : CastForm) (value : Option Scalar)
  | cast (node : Nat) (form : CastForm) (source target : Ty) (check : CastCheck)
  | bounds (node : Nat)
deriving DecidableEq

namespace Marker

def node : Marker → Nat
  | overflow n .. | wrapping n .. | folded n _ | foldedCast n .. | cast n .. | bounds n => n

def sameValue : Option Scalar → Option Scalar → Bool
  | some a, some b => a.same b
  | none, none => true
  | _, _ => false

/-- Equality of markers, folded values being compared as numbers. -/
def same : Marker → Marker → Bool
  | foldedCast n f v, foldedCast n' f' v' => n == n' && f == f' && sameValue v v'
  | a, b => a == b

def keyed : Keyed Nat Marker := ⟨node, same⟩

end Marker

/-- Where the failure of a call or `throw` goes. -/
inductive Route where
  | propagate | caught
deriving DecidableEq, Repr

/-- A single result of an analysis. -/
inductive Finding where
  | problem (p : Problem)
  | instantiated (node : Nat) (c : Concrete)
  | bound (name : Ident)
  | obligation (o : Obligation)
  | marker (m : Marker)
  | plan (node : Nat) (arms : List (List String))
  | routed (node : Nat) (route : Route)

structure Annotations where
  instances : Std.TreeMap Nat Concrete
  obligations : Ledger Anchor Obligation
  markers : Ledger Nat Marker
  plans : Std.TreeMap Nat (List (List String))
  routes : Std.TreeMap Nat Route
  bindings : List Ident

namespace Annotations

def empty : Annotations := ⟨∅, .empty, .empty, ∅, ∅, []⟩

/-- Enters a binding; its number is the number of bindings before it. -/
def bind (a : Annotations) (name : Ident) : Annotations :=
  { a with bindings := a.bindings ++ [name] }

def oblige (a : Annotations) (o : Obligation) : Annotations :=
  { a with obligations := a.obligations.add Obligation.keyed o }

def mark (a : Annotations) (m : Marker) : Annotations :=
  { a with markers := a.markers.add Marker.keyed m }

/-- Enters a finding. Of two findings that exclude each other the later counts;
problems are reported elsewhere. -/
def record (a : Annotations) : Finding → Annotations
  | .problem _ => a
  | .instantiated node c => { a with instances := a.instances.insert node c }
  | .bound name => a.bind name
  | .obligation o => a.oblige o
  | .marker m => a.mark m
  | .plan node arms => { a with plans := a.plans.insert node arms }
  | .routed node route => { a with routes := a.routes.insert node route }

def ofFindings (fs : List Finding) : Annotations := fs.foldl record empty

def obligationsAt (a : Annotations) (node : Nat) : List Obligation :=
  a.obligations.itemsAt (.node node)

def obligationsOf (a : Annotations) (decl : Nat) : List Obligation :=
  a.obligations.itemsAt (.binding decl)

def markersAt (a : Annotations) (node : Nat) : List Marker := a.markers.itemsAt node

def releasesOf (a : Annotations) (name : String) : List Obligation :=
  a.obligations.items.toList.filter fun
    | .release binding .. => binding == name
    | _ => false

def bindingsNamed (a : Annotations) (name : String) : List Nat :=
  (List.range a.bindings.length).filter fun i => (a.bindings[i]?).any (·.name == name)

/-- The instances by node, each as a position in the pool of distinct ones. -/
def pooledInstances (a : Annotations) : List (Nat × Nat) × Pool :=
  a.instances.toList.foldl
    (fun (placed, pool) (node, c) =>
      let (i, pool') := pool.intern c
      (placed ++ [(node, i)], pool'))
    ([], .empty)

end Annotations

def Finding.problem? : Finding → Option Problem
  | problem p => some p
  | _ => none

end ProgramSafety
