import ScopeScript.Import.Segment

set_option autoImplicit false

namespace ScopeScript

/-- Where imported texts come from: what a path holds or why it cannot be read, and a list in which
all the texts occur. -/
structure Library where
  texts : List String
  load : String → Except String String
  load_mem : ∀ {path text : String}, load path = .ok text → text ∈ texts

namespace Library

def ofFiles (files : List (String × String)) (reason : String) : Library where
  texts := files.map Prod.snd
  load path :=
    match files.find? fun file => file.1 == path with
    | some file => .ok file.2
    | none => .error reason
  load_mem := by
    intro path text found
    split at found
    next file h =>
      cases found
      exact List.mem_map_of_mem (List.mem_of_find?_eq_some h)
    · cases found

def directiveCount (library : Library) : Nat :=
  (library.texts.flatMap fun text => segments text.toList).countP Segment.isDirective

end Library

structure ImportState where
  seen : List String
  loads : List String
  faults : List Diagnostic

abbrev Expander := List Char → ImportState → List Char × ImportState

def ImportState.note (s : ImportState) (line : Nat) (fault : ImportFault) : ImportState :=
  { s with faults := s.faults ++ [.importing line fault] }

/-- The expanded text of a path, or nothing if the path was imported before. -/
def Library.fetch (library : Library) (expand : Expander) (line : Nat) (path : String)
    (s : ImportState) : List Char × ImportState :=
  if path ∈ s.seen then ([], s)
  else
    let s := { s with seen := s.seen ++ [path], loads := s.loads ++ [path] }
    match library.load path with
    | .ok text => expand text.toList s
    | .error reason => ([], s.note line (.unreadable path reason))

/-- The text in place of a directive. `line` is the line on which its word stands. -/
def Library.splice (library : Library) (expand : Expander) (line : Nat) (head : List Char)
    (target : ImportTarget) (s : ImportState) : List Char × ImportState :=
  let line := line + lineBreaks head
  match target with
  | .missing => ([], s.note line .missingPath)
  | .unclosed _ => ([], s.note line .unterminatedPath)
  | .file path _ => library.fetch expand (line + lineBreaks path) (String.ofList path) s

def Library.spliceAll (library : Library) (expand : Expander) (line : Nat) :
    List Segment → ImportState → List Char × ImportState
  | [], s => ([], s)
  | segment :: rest, s =>
    let (text, s) := match segment with
      | .verbatim text => (text, s)
      | .directive head target => library.splice expand line head target s
    let (after, s) := library.spliceAll expand (line + lineBreaks segment.text) rest s
    (text ++ after, s)

def Library.expand (library : Library) : Nat → Expander
  | 0, _, s => ([], s)
  | depth + 1, cs, s => library.spliceAll (library.expand depth) 1 (segments cs) s

/--
More texts than can stand inside one another: each of them but the outermost is loaded under a path
of its own, and all of these but one are named in a text of the library.
-/
def Library.depth (library : Library) : Nat :=
  library.directiveCount + 2

structure Expansion where
  result : Except (List Diagnostic) String
  loads : List String
  seen : List String

/-- Expands a source text, where the paths in `seen` were imported before. -/
def Library.process (library : Library) (seen : List String) (source : String) : Expansion :=
  let (text, s) := library.expand library.depth source.toList ⟨seen, [], []⟩
  { result := if s.faults.isEmpty then .ok (String.ofList text) else .error s.faults
    loads := s.loads
    seen := s.seen }

end ScopeScript
