import ScopeScript.Decimal.Notation
import ScopeScript.Diagnostic
import ScopeScript.Json

set_option autoImplicit false

namespace ScopeScript

inductive Punctuator where
  | leftParen
  | rightParen
  | leftBrace
  | rightBrace
  | comma
  | dot
  | semicolon
  | minus
  | minusMinus
  | minusEqual
  | plus
  | plusPlus
  | plusEqual
  | slash
  | slashEqual
  | star
  | starEqual
  | percent
  | percentEqual
  | bang
  | bangEqual
  | equal
  | equalEqual
  | greater
  | greaterEqual
  | less
  | lessEqual
  deriving DecidableEq

namespace Punctuator

def name : Punctuator → String
  | leftParen => "LEFT_PAREN"
  | rightParen => "RIGHT_PAREN"
  | leftBrace => "LEFT_BRACE"
  | rightBrace => "RIGHT_BRACE"
  | comma => "COMMA"
  | dot => "DOT"
  | semicolon => "SEMICOLON"
  | minus => "MINUS"
  | minusMinus => "MINUS_MINUS"
  | minusEqual => "MINUS_EQUAL"
  | plus => "PLUS"
  | plusPlus => "PLUS_PLUS"
  | plusEqual => "PLUS_EQUAL"
  | slash => "SLASH"
  | slashEqual => "SLASH_EQUAL"
  | star => "STAR"
  | starEqual => "STAR_EQUAL"
  | percent => "PERCENT"
  | percentEqual => "PERCENT_EQUAL"
  | bang => "BANG"
  | bangEqual => "BANG_EQUAL"
  | equal => "EQUAL"
  | equalEqual => "EQUAL_EQUAL"
  | greater => "GREATER"
  | greaterEqual => "GREATER_EQUAL"
  | less => "LESS"
  | lessEqual => "LESS_EQUAL"

def spelling : Punctuator → List Char
  | leftParen => ['(']
  | rightParen => [')']
  | leftBrace => ['\x7b']
  | rightBrace => ['\x7d']
  | comma => [',']
  | dot => ['.']
  | semicolon => [';']
  | minus => ['-']
  | minusMinus => ['-', '-']
  | minusEqual => ['-', '=']
  | plus => ['+']
  | plusPlus => ['+', '+']
  | plusEqual => ['+', '=']
  | slash => ['/']
  | slashEqual => ['/', '=']
  | star => ['*']
  | starEqual => ['*', '=']
  | percent => ['%']
  | percentEqual => ['%', '=']
  | bang => ['!']
  | bangEqual => ['!', '=']
  | equal => ['=']
  | equalEqual => ['=', '=']
  | greater => ['>']
  | greaterEqual => ['>', '=']
  | less => ['<']
  | lessEqual => ['<', '=']

def ofChar? (c : Char) : Option Punctuator :=
  match c with
  | '(' => some leftParen
  | ')' => some rightParen
  | '\x7b' => some leftBrace
  | '\x7d' => some rightBrace
  | ',' => some comma
  | '.' => some dot
  | ';' => some semicolon
  | '-' => some minus
  | '+' => some plus
  | '/' => some slash
  | '*' => some star
  | '%' => some percent
  | '!' => some bang
  | '=' => some equal
  | '>' => some greater
  | '<' => some less
  | _ => none

def ofPair? (c d : Char) : Option Punctuator :=
  match c, d with
  | '-', '-' => some minusMinus
  | '-', '=' => some minusEqual
  | '+', '+' => some plusPlus
  | '+', '=' => some plusEqual
  | '/', '=' => some slashEqual
  | '*', '=' => some starEqual
  | '%', '=' => some percentEqual
  | '!', '=' => some bangEqual
  | '=', '=' => some equalEqual
  | '>', '=' => some greaterEqual
  | '<', '=' => some lessEqual
  | _, _ => none

theorem spelling_of_ofChar? {c : Char} {p : Punctuator} (h : ofChar? c = some p) :
    p.spelling = [c] := by
  unfold ofChar? at h
  split at h <;> cases h <;> rfl

theorem spelling_of_ofPair? {c d : Char} {p : Punctuator} (h : ofPair? c d = some p) :
    p.spelling = [c, d] := by
  unfold ofPair? at h
  split at h <;> cases h <;> rfl

end Punctuator

inductive Keyword where
  | and
  | break
  | classWord
  | continue
  | else
  | false
  | fun
  | for
  | if
  | nil
  | or
  | print
  | return
  | super
  | this
  | true
  | var
  | while
  deriving DecidableEq

namespace Keyword

def spelling : Keyword → String
  | .and => "and"
  | .break => "break"
  | .classWord => "class"
  | .continue => "continue"
  | .else => "else"
  | .false => "false"
  | .fun => "fun"
  | .for => "for"
  | .if => "if"
  | .nil => "nil"
  | .or => "or"
  | .print => "print"
  | .return => "return"
  | .super => "super"
  | .this => "this"
  | .true => "true"
  | .var => "var"
  | .while => "while"

def name : Keyword → String
  | .and => "AND"
  | .break => "BREAK"
  | .classWord => "CLASS"
  | .continue => "CONTINUE"
  | .else => "ELSE"
  | .false => "FALSE"
  | .fun => "FUN"
  | .for => "FOR"
  | .if => "IF"
  | .nil => "NIL"
  | .or => "OR"
  | .print => "PRINT"
  | .return => "RETURN"
  | .super => "SUPER"
  | .this => "THIS"
  | .true => "TRUE"
  | .var => "VAR"
  | .while => "WHILE"

def ofSpelling? (s : String) : Option Keyword :=
  match s with
  | "and" => some .and
  | "break" => some .break
  | "class" => some .classWord
  | "continue" => some .continue
  | "else" => some .else
  | "false" => some .false
  | "fun" => some .fun
  | "for" => some .for
  | "if" => some .if
  | "nil" => some .nil
  | "or" => some .or
  | "print" => some .print
  | "return" => some .return
  | "super" => some .super
  | "this" => some .this
  | "true" => some .true
  | "var" => some .var
  | "while" => some .while
  | _ => none

theorem ofSpelling?_eq_some_iff {s : String} {k : Keyword} :
    ofSpelling? s = some k ↔ k.spelling = s := by
  constructor
  · intro h
    unfold ofSpelling? at h
    split at h <;> cases h <;> rfl
  · rintro rfl
    cases k <;> rfl

end Keyword

inductive Kind where
  | punctuator (p : Punctuator)
  | keyword (k : Keyword)
  | identifier
  | string (contents : String)
  | number (value : Float)
  | eof
  deriving DecidableEq

def Kind.name : Kind → String
  | .punctuator p => p.name
  | .keyword k => k.name
  | .identifier => "IDENTIFIER"
  | .string _ => "STRING"
  | .number _ => "NUMBER"
  | .eof => "EOF"

/-- A word of a program. Its line is the one on which it ends. -/
structure Token where
  kind : Kind
  lexeme : String
  line : Nat
  deriving DecidableEq

namespace Token

def place (t : Token) : Place :=
  ⟨t.line, if t.kind = .eof then none else some t.lexeme⟩

/-- A number beside its token: whole numbers below `10 ^ 15` end in a point and a zero, unsigned if
they are zero. -/
def numberText (x : Float) : String :=
  match Binary64.integral? x with
  | some (negative, n) =>
    if n < Decimal.wholeLimit then
      Decimal.signed (negative && n != 0) (Nat.toDigits 10 n ++ ['.', '0'])
    else Decimal.plain x
  | none => Decimal.plain x

def literalText : Kind → String
  | .string contents => contents
  | .number value => numberText value
  | _ => "null"

def text (t : Token) : String :=
  t.kind.name ++ " " ++ t.lexeme ++ " " ++ literalText t.kind

/--
A number in a JSON document: the fewest digits, positional from `10 ^ -5` up to `10 ^ 16`, and
nothing where JSON has no number for it.
-/
def numberJson (x : Float) : Json :=
  match Binary64.view x with
  | .finite negative c =>
    let d := Decimal.ofCode .toEven c
    let point := d.exponent + (d.digits.length : Int)
    let written := if -5 < point ∧ point ≤ 16 then d.positionalWithPoint else d.scientific
    .number (Decimal.signed negative written)
  | _ => .null

def kindJson : Kind → Json
  | .string contents => .object [("STRING", .string contents)]
  | .number value => .object [("NUMBER", numberJson value)]
  | k => .string k.name

def json (t : Token) : Json :=
  .object
    [("token_type", kindJson t.kind), ("lexeme", .string t.lexeme),
      ("line", .number t.line.repr)]

end Token

end ScopeScript
