import ScopeScript.Decimal.Notation
import ScopeScript.Syntax.Tree

set_option autoImplicit false

namespace ScopeScript.PrefixForm

/-- Whole numbers with all their digits, a point and a zero, others by their fewest digits. -/
def number (x : Float) : String :=
  match Binary64.integral? x with
  | some (negative, n) => Decimal.signed negative (Nat.toDigits 10 n ++ ['.', '0'])
  | none => Decimal.plain x

def literal : Literal → String
  | .nil => "nil"
  | .bool true => "true"
  | .bool false => "false"
  | .number value => number value
  | .string contents => contents

def list (parts : List String) : String :=
  "(" ++ " ".intercalate parts ++ ")"

mutual

def expr : Expr → String
  | .literal value => literal value
  | .grouping inner => list ["group", expr inner]
  | .unary op _ operand => list [op.spelling, expr operand]
  | .binary op _ left right => list [op.spelling, expr left, expr right]
  | .logical op left right => list [op.spelling, expr left, expr right]
  | .var reference => reference.name.text
  | .assign reference value => list ["=", reference.name.text, expr value]
  | .call callee _ arguments => list ("call" :: expr callee :: exprs arguments)
  | .get object name => list [".", expr object, name.text]
  | .set object name value => list ["=", list [".", expr object, name.text], expr value]
  | .self _ => "this"
  | .super _ method => "(super." ++ method.text ++ ")"

def exprs : List Expr → List String
  | [] => []
  | e :: rest => expr e :: exprs rest

end

mutual

def stmt : Stmt → String
  | .expression value => expr value
  | .print value => list ["print", expr value]
  | .varDecl name none => list ["var", name.text]
  | .varDecl name (some initial) => list ["var", name.text, expr initial]
  | .block body => list ("block" :: stmts body)
  | .ifElse condition consequent none => list ["if", expr condition, stmt consequent]
  | .ifElse condition consequent (some alternative) =>
    list ["if", expr condition, stmt consequent, stmt alternative]
  | .loop condition body none => list ["while", expr condition, stmt body]
  | .loop condition body (some step) => list ["while", expr condition, stmt body, expr step]
  | .funDecl declaration => function declaration
  | .classDecl name none methods => list ("class" :: name.text :: functions methods)
  | .classDecl name (some superclass) methods =>
    list ("class" :: name.text :: "<" :: superclass.name.text :: functions methods)
  | .returning _ none => list ["return"]
  | .returning _ (some value) => list ["return", expr value]
  | .jump kind => list [kind.word]

def stmts : List Stmt → List String
  | [] => []
  | s :: rest => stmt s :: stmts rest

def function : FunctionDecl → String
  | .mk name parameters body =>
    list ["fun", name.text, list (parameters.map Name.text), list ("block" :: stmts body)]

def functions : List FunctionDecl → List String
  | [] => []
  | f :: rest => function f :: functions rest

end

end ScopeScript.PrefixForm
