import ScopeScript.Channel.Input
import ScopeScript.CommandLine.Place
import ScopeScript.Import.Expansion

set_option autoImplicit false

namespace ScopeScript.CommandLine

structure File where
  path : String
  contents : Except String (List UInt8)

structure Directory where
  files : List File
  folders : List String

namespace Directory

def missingReason : String := "No such file or directory (os error 2)"

def notDirectoryReason : String := "Not a directory (os error 20)"

def isDirectoryReason : String := "Is a directory (os error 21)"

def longNameReason : String := "File name too long (os error 36)"

def nulReason : String := "file name contained an unexpected NUL byte"

def systemReason (code : Nat) (words : String) : String :=
  match code with
  | 2 => missingReason
  | 20 => notDirectoryReason
  | 21 => isDirectoryReason
  | 36 => longNameReason
  | _ => words.capitalize ++ " (os error " ++ code.repr ++ ")"

def standardFolders : List String :=
  ["/bin", "/boot", "/dev", "/etc", "/home", "/lib", "/media", "/mnt", "/opt", "/proc", "/root",
    "/run", "/sbin", "/srv", "/sys", "/tmp", "/usr", "/usr/bin", "/usr/lib", "/usr/local",
    "/usr/sbin", "/usr/share", "/var", "/var/lib", "/var/log", "/var/tmp"]

def ofFiles (files : List File) : Directory :=
  ⟨files ++ [⟨"/dev/null", .ok []⟩], standardFolders⟩

def isDirectory (d : Directory) (place : Place) : Bool :=
  place.isStart || (d.folders.any fun folder => Place.ofPath folder = place) ||
    d.files.any fun f => f.contents.isOk && place.holds (Place.ofPath f.path)

def fileAt? (d : Directory) (place : Place) : Option File :=
  d.files.find? fun f => Place.ofPath f.path = place

def has (d : Directory) (place : Place) : Bool :=
  d.isDirectory place || (d.fileAt? place).isSome

/-- Goes from a place along the parts of a path. A path that ends in a slash needs a directory. -/
def walk (d : Directory) (needsDirectory : Bool) : Place → List String → Except String File
  | place, [] =>
    if d.isDirectory place then .error isDirectoryReason
    else
      match d.fileAt? place with
      | some f => if needsDirectory then .error notDirectoryReason else .ok f
      | none => .error missingReason
  | place, part :: rest =>
    if d.isDirectory place then
      if 255 < part.utf8ByteSize then .error longNameReason
      else if part = "." then walk d needsDirectory place rest
      else if part = ".." then walk d needsDirectory place.parent rest
      else
        match place.child? part with
        | some place => walk d needsDirectory place rest
        | none => .error missingReason
    else if (d.fileAt? place).isSome then .error notDirectoryReason
    else .error missingReason

def pathFault? (path : String) : Option String :=
  if path.toList.any fun c => c = Char.ofNat 0 then some nulReason
  else if 4095 < path.utf8ByteSize then some longNameReason
  else if path.isEmpty then some missingReason
  else none

def locate (d : Directory) (path : String) : Except String File :=
  match d.files.find? fun f => f.path == path with
  | some f => .ok f
  | none =>
    match pathFault? path with
    | some reason => .error reason
    | none => d.walk (path.endsWith "/") (Place.start path) (Place.parts path)

def text (f : File) : Except String String := do
  let bytes ← f.contents
  match Input.decode? bytes with
  | some text => return text
  | none => throw Input.undecodableReason

def read (d : Directory) (path : String) : Except String String := do
  text (← d.locate path)

def imports (f : File) : List String :=
  match text f with
  | .ok text => importedPaths text
  | .error _ => []

theorem mem_of_walk {d : Directory} {needsDirectory : Bool} {place : Place} {rest : List String}
    {f : File} (h : d.walk needsDirectory place rest = .ok f) : f ∈ d.files := by
  induction rest generalizing place with
  | nil =>
    unfold walk at h
    split at h
    · cases h
    split at h
    next found =>
      split at h
      · cases h
      · cases h
        exact List.mem_of_find?_eq_some found
    · cases h
  | cons part rest ih =>
    unfold walk at h
    repeat' split at h
    all_goals first | cases h | exact ih h

theorem mem_of_locate {d : Directory} {path : String} {f : File} (h : d.locate path = .ok f) :
    f ∈ d.files := by
  unfold locate at h
  split at h
  next found =>
    cases h
    exact List.mem_of_find?_eq_some found
  · repeat' split at h
    all_goals first | cases h | exact mem_of_walk h

def library (d : Directory) : Library where
  texts := d.files.filterMap fun f => (text f).toOption
  load := d.read
  load_mem := by
    intro path content found
    unfold read at found
    cases located : d.locate path with
    | error reason => simp [located, bind, Except.bind] at found
    | ok f =>
      simp only [located, bind, Except.bind] at found
      exact List.mem_filterMap.mpr ⟨f, mem_of_locate located, by simp [found, Except.toOption]⟩

end Directory

end ScopeScript.CommandLine
