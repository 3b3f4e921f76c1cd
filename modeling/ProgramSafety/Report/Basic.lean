import ProgramSafety.Report.Problem

/-!
# Reports

A report collects problems in the order in which they are found. It may be
limited; problems beyond the limit are dropped, and the report remembers that
some were.
-/

namespace ProgramSafety

structure Report where
  problems : List Problem
  limit : Option Nat
  truncated : Bool

namespace Report

def ofLimit (limit : Option Nat) : Report := ⟨[], limit, false⟩

def full (r : Report) : Bool :=
  match r.limit with
  | some n => n ≤ r.problems.length
  | none => false

def push (r : Report) (p : Problem) : Report :=
  if r.full then { r with truncated := true } else { r with problems := r.problems ++ [p] }

def pushAll (r : Report) (ps : List Problem) : Report := ps.foldl push r

/-- Adds the problems another report kept. What that one dropped stays dropped. -/
def append (r other : Report) : Report :=
  { r with truncated := r.truncated || other.truncated }.pushAll other.problems

def ofProblems (limit : Option Nat) (ps : List Problem) : Report := (ofLimit limit).pushAll ps

@[simp] theorem pushAll_nil (r : Report) : r.pushAll [] = r := rfl

@[simp] theorem pushAll_cons (r : Report) (p : Problem) (ps : List Problem) :
    r.pushAll (p :: ps) = (r.push p).pushAll ps := rfl

def hasProblems (r : Report) : Bool := !r.problems.isEmpty

def kinds (r : Report) : List ProblemKind := r.problems.map Problem.kind

def countsByKind (r : Report) : List (ProblemKind × Nat) :=
  (ProblemKind.all.map fun k => (k, r.kinds.count k)).filter (0 < ·.2)

def sortedKinds (r : Report) : List ProblemKind :=
  r.countsByKind.flatMap fun (k, n) => List.replicate n k

/-- One line: how many problems there are, and how many of each kind. -/
def summary (r : Report) : String :=
  if r.problems.isEmpty then "no errors"
  else
    let count (k : ProblemKind) (n : Nat) :=
      let name := k.name
      s!"{name}: {n}"
    let parts := String.intercalate ", " (r.countsByKind.map fun (k, n) => count k n)
    let size := r.problems.length
    let noun := if size = 1 then "error" else "errors"
    s!"{size} {noun} ({parts})"

def closing (r : Report) : String :=
  if r.truncated then "(further diagnostics suppressed)\n" else ""

end Report

end ProgramSafety
