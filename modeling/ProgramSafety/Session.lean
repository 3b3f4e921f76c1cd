import ProgramSafety.Analysis.Constant
import ProgramSafety.Analysis.Coverage
import ProgramSafety.Analysis.Routing
import ProgramSafety.Ownership.Lifetime

/-!
# Checking sessions

A session first takes in the declarations of its programs, is then closed, and
from there on analyses bodies against what was declared. The analyses of a
program do not depend on each other or on other programs of the session.
-/

namespace ProgramSafety

structure Analysis where
  annotations : Annotations
  report : Report

namespace Analysis

def isOk (a : Analysis) : Bool := !a.report.hasProblems

/-- The annotations of a program without problems, the report of any other. -/
def result (a : Analysis) : Except Report Annotations :=
  if a.isOk then .ok a.annotations else .error a.report

end Analysis

def Context.findings (c : Context) (next : Nat) : Nat × List Finding :=
  let (next', owned) := c.lifetimeFindings next
  (next', owned ++ c.constantFindings ++ c.coverageFindings ++ c.routingFindings)

structure Session where
  options : Options
  registry : Registry
  signatures : Signatures

namespace Session

def start (options : Options) : Session := ⟨options, .empty, .empty⟩

def register (s : Session) (p : Program) : Session × Report :=
  let (registry, ps) := s.registry.declare p
  let (signatures, qs) := s.signatures.collect registry p
  (⟨s.options, registry, signatures⟩, .ofProblems s.options.limit (ps ++ qs))

/-- Ends registration and checks the weak references in what was declared. -/
def close (s : Session) : Session × Report :=
  let registry := s.registry.close
  ({ s with registry := registry },
    .ofProblems s.options.limit (registry.declaredWeakUse s.signatures))

def context (s : Session) (types : TypeTable) (b : Body) : Context :=
  ⟨s.options, s.registry, s.signatures, types, b⟩

/-- The findings about a program. The types of all bodies are resolved before any
body is analysed, and bindings are numbered through the program. -/
def findings (s : Session) (p : Program) : List Finding :=
  let types := TypeTable.ofBodies s.registry p.bodies
  p.bodies.flatMap s.registry.bodyTypeFindings ++
    (transduce (fun next b => (s.context types b).findings next) 0 p.bodies).2

def analyze (s : Session) (p : Program) : Analysis :=
  let found := s.findings p
  ⟨.ofFindings found, .ofProblems s.options.limit (found.filterMap Finding.problem?)⟩

def check (s : Session) (p : Program) : Session × Analysis :=
  let (s, registered) := s.register p
  let (s, closed) := s.close
  let analysis := s.analyze p
  (s, { analysis with report := (registered.append closed).append analysis.report })

def analyzeAll (s : Session) (ps : List Program) : List Analysis := ps.map s.analyze

end Session

end ProgramSafety
