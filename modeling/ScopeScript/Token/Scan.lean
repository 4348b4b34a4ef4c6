import ScopeScript.Token.Piece

set_option autoImplicit false

namespace ScopeScript

def lineBreaks (cs : List Char) : Nat :=
  cs.count '\n'

abbrev ScanItem := Except Diagnostic Token

-- What follows a fault is scanned as if the faulty text were a blank.
def scanPieces (line : Nat) : List Piece → List ScanItem
  | [] => [.ok ⟨.eof, "", line⟩]
  | p :: rest =>
    let next := line + lineBreaks p.text
    match p with
    | .blank _ | .comment _ => scanPieces next rest
    | .lexeme kind text => .ok ⟨kind, String.ofList text, next⟩ :: scanPieces next rest
    | .unexpected c => .error (.lexical next (.unexpectedCharacter c)) :: scanPieces next rest
    | .unclosed _ => .error (.lexical next .unterminatedString) :: scanPieces next rest

def scan (source : String) : List ScanItem :=
  scanPieces 1 (pieces source.toList)

def scannedTokens (items : List ScanItem) : List Token :=
  items.filterMap Except.toOption

def scanFaults (items : List ScanItem) : List Diagnostic :=
  items.filterMap fun item => match item with
    | .error fault => some fault
    | .ok _ => none

end ScopeScript
