import ScopeScript.Syntax.Tree
import ScopeScript.Token.Basic

set_option autoImplicit false

namespace ScopeScript

/-- The tokens still to be read, without the end of the text, and what reading has used up. -/
structure Cursor where
  rest : List Token
  endLine : Nat
  nextId : Nat
  faults : List Diagnostic

abbrev Parser := EStateM Diagnostic Cursor

namespace Cursor

def place (c : Cursor) : Place :=
  match c.rest with
  | [] => ⟨c.endLine, none⟩
  | t :: _ => t.place

/-- A cursor on the first of some tokens. The first end of the text among them ends the reading. -/
def start (tokens : List Token) (firstId : Nat) : Cursor where
  rest := tokens.takeWhile fun t => t.kind != .eof
  endLine := ((tokens.find? fun t => t.kind == .eof).map Token.line).getD 1
  nextId := firstId
  faults := []

end Cursor

namespace Parser

def atEnd : Parser Bool := fun c =>
  .ok c.rest.isEmpty c

def isNext (kind : Kind) : Parser Bool := fun c =>
  .ok (c.rest.head?.any fun t => t.kind == kind) c

def take? {α : Type} (f : Kind → Option α) : Parser (Option (α × Token)) := fun c =>
  match c.rest with
  | [] => .ok none c
  | t :: rest =>
    match f t.kind with
    | some a => .ok (some (a, t)) { c with rest := rest }
    | none => .ok none c

def accept (kind : Kind) : Parser Bool := fun c =>
  match c.rest with
  | [] => .ok false c
  | t :: rest => if t.kind = kind then .ok true { c with rest := rest } else .ok false c

-- A fault that is thrown is for `recovering`, which skips to where a statement starts.
def fail {α : Type} (what : Expectation) : Parser α := fun c =>
  .error (.syntactic c.place (.expected what)) c

def expect (kind : Kind) (what : Expectation) : Parser Token := fun c =>
  match c.rest with
  | [] => fail what c
  | t :: rest => if t.kind = kind then .ok t { c with rest := rest } else fail what c

def expectName (what : Expectation) : Parser Name := do
  let t ← expect .identifier what
  return ⟨t.lexeme, t.line⟩

-- A fault that leaves the position clear is only noted, and reading goes on behind it.
def note (place : Place) (fault : SyntaxFault) : Parser Unit := fun c =>
  .ok () { c with faults := c.faults ++ [.syntactic place fault] }

def noteHere (fault : SyntaxFault) : Parser Unit := fun c =>
  note c.place fault c

def freshId : Parser Nat := fun c =>
  .ok c.nextId { c with nextId := c.nextId + 1 }

def reference (name : Name) : Parser Reference := do
  return ⟨← freshId, name⟩

def copy (e : Expr) : Parser Expr := fun c =>
  .ok (e.renumber c.nextId).1 { c with nextId := (e.renumber c.nextId).2 }

end Parser

end ScopeScript
