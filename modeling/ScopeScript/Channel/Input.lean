set_option autoImplicit false

namespace ScopeScript

structure Input where
  bytes : List UInt8
  ended : Bool

namespace Input

def ofBytes (bytes : List UInt8) : Input := ⟨bytes, true⟩

def newline : UInt8 := 10

/-- An attempt to read a line. A last line may lack its line break. -/
inductive Line where
  | read (bytes : List UInt8) (rest : Input)
  | atEnd
  | awaiting

def line (input : Input) : Line :=
  match input.bytes.dropWhile (· != newline) with
  | _ :: rest =>
    .read (input.bytes.takeWhile (· != newline) ++ [newline]) { input with bytes := rest }
  | [] =>
    if !input.ended then .awaiting
    else if input.bytes.isEmpty then .atEnd
    else .read input.bytes { input with bytes := [] }

def decode? (bytes : List UInt8) : Option String :=
  String.fromUTF8? ⟨bytes.toArray⟩

def undecodableReason : String := "stream did not contain valid UTF-8"

def chomp (text : String) : String :=
  String.ofList (text.toList.reverse.dropWhile fun c => c == '\r' || c == '\n').reverse

end Input

end ScopeScript
