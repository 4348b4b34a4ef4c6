import ScopeScript.Evaluation
import ScopeScript.Import.Expansion
import ScopeScript.Syntax.Grammar

set_option autoImplicit false

namespace ScopeScript

structure Session where
  machine : Machine
  library : Library
  nextId : Nat

/-- How running a text ended. The last two are no end: the depth or the input did not suffice. -/
inductive Outcome where
  | ok
  | compileErrors (errors : List Diagnostic)
  | runtimeError (error : Diagnostic)
  | exhausted
  | awaitingInput

namespace Outcome

def exitCode : Outcome → Nat
  | .ok => 0
  | .compileErrors _ => 65
  | .runtimeError _ => 70
  | .exhausted | .awaitingInput => 1

def errors : Outcome → List Diagnostic
  | .compileErrors errors => errors
  | .runtimeError error => [error]
  | .ok | .exhausted | .awaitingInput => []

end Outcome

def Diagnostic.sortByLine (errors : List Diagnostic) : List Diagnostic :=
  errors.mergeSort fun a b => decide (a.line?.getD 0 ≤ b.line?.getD 0)

namespace Session

def start (machine : Machine) (library : Library) : Session :=
  ⟨machine, library, 0⟩

/-- The statements of a text, or what is wrong with its form. Lexical and syntactic faults are
reported together. -/
def parse (s : Session) (source : String) : Except (List Diagnostic) (List Stmt) × Session :=
  match (s.library.process [] source).result with
  | .error errors => (.error errors, s)
  | .ok text =>
    let items := scan text
    let faults := scanFaults items
    let parsed := ScopeScript.parse (scannedTokens items) s.nextId
    let result := match parsed.result with
      | .ok statements => if faults.isEmpty then .ok statements else .error faults
      | .error errors => .error (Diagnostic.sortByLine (faults ++ errors))
    (result, { s with nextId := parsed.nextId })

def register (m : Machine) (resolution : Resolution) : Machine :=
  { m with resolution :=
      resolution.foldl (fun all id distance => all.insert id distance) m.resolution }

/-- Everything short of execution. The references of an accepted text are known to the machine. -/
def compile (s : Session) (source : String) : Except (List Diagnostic) (List Stmt) × Session :=
  match s.parse source with
  | (.error errors, s) => (.error errors, s)
  | (.ok statements, s) =>
    match resolve statements with
    | .error errors => (.error errors, s)
    | .ok resolution => (.ok statements, { s with machine := register s.machine resolution })

def run (s : Session) (depth : Nat) (source : String) : Outcome × Session :=
  match s.compile source with
  | (.error errors, s) => (.compileErrors errors, s)
  | (.ok statements, s) =>
    match Run.program depth statements s.machine with
    | .ok _ machine => (.ok, { s with machine := machine })
    | .error (.fault error) machine => (.runtimeError error, { s with machine := machine })
    | .error .exhausted machine => (.exhausted, { s with machine := machine })
    | .error .awaitingInput machine => (.awaitingInput, { s with machine := machine })

def evaluate (s : Session) (depth : Nat) (e : Expr) : Except Halt Value × Session :=
  match Run.evaluate depth e s.machine with
  | .ok value machine => (.ok value, { s with machine := machine })
  | .error halt machine => (.error halt, { s with machine := machine })

def global? (s : Session) (name : String) : Option Value :=
  s.machine.store.getAt? .root 0 name

def defineHost (s : Session) (name : String) (arity : Nat) (f : HostFunction) : Session :=
  { s with machine := s.machine.defineHost name arity f }

end Session

end ScopeScript
