import ScopeScript.CommandLine.Arguments
import ScopeScript.CommandLine.Directory
import ScopeScript.Session
import ScopeScript.Syntax.PrefixForm
import ScopeScript.Text.Quoted

set_option autoImplicit false

namespace ScopeScript.CommandLine

/-- What a command finds: files, its input, a clock, and how deep programs may run. -/
structure Surroundings where
  directory : Directory
  input : Input
  clock : Clock
  depth : Nat

inductive Ending where
  | exited (code : Nat)
  | awaitingInput
  | exhausted
  deriving DecidableEq

structure Report where
  status : Ending
  written : ByteArray
  errors : String
  logFile : Bool
  readings : Nat

def programName : String := "basil"

def versionText : String := "0.1.0"

def logName : String := programName ++ ".log"

def logPlace : Place := .inside [logName]

def helpText : String :=
  "Usage: " ++ programName ++ " [--log] <COMMAND>\n\n" ++
  "Commands:\n" ++
  "  tokenize <FILENAME> [--json]  Prints the tokens of a file\n" ++
  "  parse <FILENAME>              Prints the statements of a file in prefix form\n" ++
  "  run <FILENAME>                Runs a file\n" ++
  "  repl                          Runs what is typed, line by line\n\n" ++
  "Options:\n" ++
  "  --log          Writes a log to " ++ logName ++ "\n" ++
  "  -h, --help     Prints this help\n" ++
  "  -V, --version  Prints the version\n"

def misuseText (word : String) : String :=
  "error: unexpected or missing argument " ++ Text.quote word ++
    "\n\nFor more information, try '--help'.\n"

def failureText (attempt cause : String) : String :=
  "Error: " ++ attempt ++ "\n\nCaused by:\n    " ++ cause ++ "\n"

def errorLines (errors : List Diagnostic) : String :=
  String.join (errors.map fun e => e.render ++ "\n")

def lines (texts : List String) : String :=
  String.join (texts.map fun text => text ++ "\n")

namespace Surroundings

def session (s : Surroundings) : Session :=
  .start (.initial .unlimited s.input s.clock) s.directory.library

end Surroundings

def Report.plain (code : Nat) (output errors : String) : Report :=
  ⟨.exited code, output.toUTF8, errors, false, 0⟩

def Report.ofSession (status : Ending) (s : Session) (errors : String) : Report :=
  ⟨status, s.machine.output.written, errors, false, s.machine.readings⟩

def unreadableFile (file reason : String) : Report :=
  .plain 1 "" (failureText ("Failed to read file " ++ Text.quote file) reason)

def tokenizeFile (source : String) (json : Bool) : Report :=
  let items := scan source
  let tokens := scannedTokens items
  let faults := scanFaults items
  let output :=
    if json then (Json.array (tokens.map Token.json)).pretty 0 ++ "\n"
    else lines (tokens.map Token.text)
  .plain (if faults.isEmpty then 0 else 65) output (errorLines faults)

def parseFile (s : Surroundings) (source : String) : Report :=
  match (s.session.parse source).1 with
  | .ok statements => .plain 0 (lines (statements.map PrefixForm.stmt)) ""
  | .error errors => .plain 65 "" (errorLines errors)

def Outcome.status : Outcome → Ending
  | .exhausted => .exhausted
  | .awaitingInput => .awaitingInput
  | outcome => .exited outcome.exitCode

def runFile (s : Surroundings) (source : String) : Report :=
  let (outcome, session) := s.session.run s.depth source
  .ofSession (Outcome.status outcome) session (errorLines outcome.errors)

namespace Repl

def promptText : String := "> "

def write (s : Session) (text : String) : Session :=
  { s with machine := { s.machine with output := s.machine.output.write text } }

def withInput (s : Session) (input : Input) : Session :=
  { s with machine := { s.machine with input := input } }

structure Turn where
  session : Session
  errors : String
  status : Option Ending

/-- Runs one line of the input. What the program reads is not there for the next prompt. -/
def answer (depth : Nat) (s : Session) (bytes : List UInt8) : Turn :=
  match Input.decode? bytes with
  | none => ⟨s, failureText "Failed to read from stdin" Input.undecodableReason, some (.exited 1)⟩
  | some source =>
    let (outcome, s) := s.run depth source
    let status := match outcome with
      | .exhausted => some .exhausted
      | .awaitingInput => some .awaitingInput
      | .ok | .compileErrors _ | .runtimeError _ => none
    ⟨s, errorLines outcome.errors, status⟩

def turn (depth : Nat) (s : Session) : Turn :=
  let s := write s promptText
  match s.machine.input.line with
  | .awaiting => ⟨s, "", some .awaitingInput⟩
  | .atEnd => ⟨write s "\n", "", some (.exited 0)⟩
  | .read bytes rest => answer depth (withInput s rest) bytes

/-- One turn after another, until the input ends. `bound` is more than the number of lines left. -/
def loop (depth : Nat) : Nat → Session → String → Report
  | 0, s, errors => .ofSession .exhausted s errors
  | bound + 1, s, errors =>
    let t := turn depth s
    match t.status with
    | none => loop depth bound t.session (errors ++ t.errors)
    | some status => .ofSession status t.session (errors ++ t.errors)

def nextImports (s : Session) : List String :=
  match s.machine.input.line with
  | .read bytes _ => ((Input.decode? bytes).map importedPaths).getD []
  | .awaiting | .atEnd => []

end Repl

def runLines (s : Surroundings) : Report :=
  Repl.loop s.depth (s.input.bytes.length + 1) s.session ""

def logFault? (s : Surroundings) : Option String :=
  if s.directory.isDirectory logPlace then some Directory.isDirectoryReason else none

def unmadeLog (reason : String) : Report :=
  .plain 1 "" (failureText ("Failed to create " ++ logName) reason)

def withFile (s : Surroundings) (file : String) (use : String → Report) : Report :=
  match s.directory.read file with
  | .ok source => use source
  | .error reason => unreadableFile file reason

def Command.report (s : Surroundings) : Command → Report
  | .tokenize file json => withFile s file fun source => tokenizeFile source json
  | .parse file => withFile s file (parseFile s)
  | .run file => withFile s file (runFile s)
  | .repl => runLines s

def Request.report (s : Surroundings) : Request → Report
  | .execute command false => command.report s
  | .execute command true =>
    match logFault? s with
    | some reason => unmadeLog reason
    | none => { command.report s with logFile := true }
  | .version => .plain 0 (programName ++ " " ++ versionText ++ "\n") ""
  | .help => .plain 0 helpText ""
  | .misuse word => .plain 2 "" (misuseText word)

def report (arguments : List String) (s : Surroundings) : Report :=
  let report := (Request.ofArguments arguments).report s
  { report with logFile := report.logFile || s.directory.has logPlace }

end ScopeScript.CommandLine
