set_option autoImplicit false

namespace ScopeScript.CommandLine

inductive Command where
  | tokenize (file : String) (json : Bool)
  | parse (file : String)
  | run (file : String)
  | repl
  deriving DecidableEq

def Command.file? : Command → Option String
  | .tokenize file _ => some file
  | .parse file => some file
  | .run file => some file
  | .repl => none

inductive Request where
  | execute (command : Command) (log : Bool)
  | version
  | help
  | misuse (word : String)
  deriving DecidableEq

namespace Request

def file? : Request → Option String
  | .execute command _ => command.file?
  | .version | .help | .misuse _ => none

def logs : Request → Bool
  | .execute _ log => log
  | .version | .help | .misuse _ => false

end Request

inductive CommandName where
  | tokenize
  | parse
  | run
  | repl
  deriving DecidableEq

def CommandName.ofString? (s : String) : Option CommandName :=
  match s with
  | "tokenize" => some .tokenize
  | "parse" => some .parse
  | "run" => some .run
  | "repl" => some .repl
  | _ => none

structure Details where
  file : Option String
  json : Bool
  log : Bool
  plain : Bool

def Details.none : Details := ⟨.none, false, false, false⟩

def Details.request (d : Details) (name : CommandName) (log : Bool) : Request :=
  let execute (command : Command) : Request := .execute command (log || d.log)
  match name, d.file with
  | .repl, _ => execute .repl
  | _, .none => .misuse "<FILENAME>"
  | .tokenize, some file => execute (.tokenize file d.json)
  | .parse, some file => execute (.parse file)
  | .run, some file => execute (.run file)

def takesFile : CommandName → Bool
  | .repl => false
  | .tokenize | .parse | .run => true

def isOption (word : String) : Bool :=
  word.startsWith "-" && word != "-"

-- Of the options behind one dash the first is read, and leaves the others nothing to say.
def shortOption? (word : String) : Option Char :=
  match word.toList with
  | '-' :: c :: _ => if c = '-' then none else some c
  | _ => none

def readDetails (name : CommandName) (log : Bool) : Details → List String → Request
  | d, [] => d.request name log
  | d, word :: rest =>
    if !d.plain && word = "--" then readDetails name log { d with plain := true } rest
    else if !d.plain && (word = "--help" || shortOption? word = some 'h') then .help
    else if !d.plain && word = "--log" && !d.log then
      readDetails name log { d with log := true } rest
    else if !d.plain && word = "--json" && name = .tokenize && !d.json then
      readDetails name log { d with json := true } rest
    else if !d.plain && isOption word then .misuse word
    else if takesFile name && d.file.isNone && !word.isEmpty then
      readDetails name log { d with file := some word } rest
    else .misuse word

def readHelp : List String → Request
  | [] => .help
  | [word] =>
    if (CommandName.ofString? word).isSome || word = "help" then .help else .misuse word
  | _ :: word :: _ => .misuse word

def readRequest : Bool → List String → Request
  | _, [] => .misuse "<COMMAND>"
  | log, word :: rest =>
    if word = "--version" || shortOption? word = some 'V' then .version
    else if word = "--help" || shortOption? word = some 'h' then .help
    else if word = "--log" && !log then readRequest true rest
    else if word = "help" then readHelp rest
    else
      match CommandName.ofString? word with
      | some name => readDetails name log .none rest
      | none => .misuse word

def Request.ofArguments (arguments : List String) : Request :=
  readRequest false arguments

end ScopeScript.CommandLine
