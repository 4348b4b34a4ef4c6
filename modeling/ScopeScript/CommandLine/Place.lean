set_option autoImplicit false

namespace ScopeScript.CommandLine

inductive Place where
  | inside (parts : List String)
  | system (parts : List String)
  | around
  deriving DecidableEq

namespace Place

def start (path : String) : Place :=
  if path.startsWith "/" then .system [] else .inside []

def parts (path : String) : List String :=
  (path.splitOn "/").filter fun part => !part.isEmpty

def ofPath (path : String) : Place :=
  if path.startsWith "/" then .system (parts path) else .inside (parts path)

-- All that is known of the places around the working directory is that they are directories.
def isStart : Place → Bool
  | .inside parts | .system parts => parts.isEmpty
  | .around => true

def parent : Place → Place
  | .inside [] | .around => .around
  | .inside parts => .inside parts.dropLast
  | .system parts => .system parts.dropLast

def child? : Place → String → Option Place
  | .inside parts, part => some (.inside (parts ++ [part]))
  | .system parts, part => some (.system (parts ++ [part]))
  | .around, _ => none

def holds : Place → Place → Bool
  | .inside upper, .inside lower | .system upper, .system lower =>
    upper.isPrefixOf lower && upper != lower
  | _, _ => false

end Place

end ScopeScript.CommandLine
