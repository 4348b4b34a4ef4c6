import ScopeScript.Diagnostic

set_option autoImplicit false

namespace ScopeScript

structure Name where
  text : String
  line : Nat
  deriving DecidableEq

-- Two references with the same text are still two: what is known of one stands under its number.
structure Reference where
  id : Nat
  name : Name
  deriving DecidableEq

inductive Literal where
  | nil
  | bool (value : Bool)
  | number (value : Float)
  | string (contents : String)
  deriving DecidableEq

inductive UnaryOp where
  | not
  | negate
  deriving DecidableEq

def UnaryOp.spelling : UnaryOp → String
  | .not => "!"
  | .negate => "-"

inductive BinaryOp where
  | add
  | subtract
  | multiply
  | divide
  | remainder
  | equal
  | notEqual
  | greater
  | greaterEqual
  | less
  | lessEqual
  deriving DecidableEq

def BinaryOp.spelling : BinaryOp → String
  | .add => "+"
  | .subtract => "-"
  | .multiply => "*"
  | .divide => "/"
  | .remainder => "%"
  | .equal => "=="
  | .notEqual => "!="
  | .greater => ">"
  | .greaterEqual => ">="
  | .less => "<"
  | .lessEqual => "<="

inductive LogicalOp where
  | and
  | or
  deriving DecidableEq

def LogicalOp.spelling : LogicalOp → String
  | .and => "and"
  | .or => "or"

/-- Expressions. The line of an operator or of a call is where its failure is reported. -/
inductive Expr where
  | literal (value : Literal)
  | grouping (inner : Expr)
  | unary (op : UnaryOp) (line : Nat) (operand : Expr)
  | binary (op : BinaryOp) (line : Nat) (left right : Expr)
  | logical (op : LogicalOp) (left right : Expr)
  | var (reference : Reference)
  | assign (reference : Reference) (value : Expr)
  | call (callee : Expr) (line : Nat) (arguments : List Expr)
  | get (object : Expr) (name : Name)
  | set (object : Expr) (name : Name) (value : Expr)
  | self (reference : Reference)
  | super (reference : Reference) (method : Name)

mutual

/-- Statements. The step of a loop runs after every iteration that is not left. -/
inductive Stmt where
  | expression (value : Expr)
  | print (value : Expr)
  | varDecl (name : Name) (initial : Option Expr)
  | block (body : List Stmt)
  | ifElse (condition : Expr) (consequent : Stmt) (alternative : Option Stmt)
  | loop (condition : Expr) (body : Stmt) (step : Option Expr)
  | funDecl (declaration : FunctionDecl)
  | classDecl (name : Name) (superclass : Option Reference) (methods : List FunctionDecl)
  | returning (line : Nat) (value : Option Expr)
  | jump (kind : Jump)

inductive FunctionDecl where
  | mk (name : Name) (parameters : List Name) (body : List Stmt)

end

namespace FunctionDecl

def name : FunctionDecl → Name
  | mk name _ _ => name

def parameters : FunctionDecl → List Name
  | mk _ parameters _ => parameters

def body : FunctionDecl → List Stmt
  | mk _ _ body => body

def isInitializer (f : FunctionDecl) : Bool :=
  f.name.text == "init"

end FunctionDecl

mutual

def Expr.renumber (next : Nat) : Expr → Expr × Nat
  | .literal value => (.literal value, next)
  | .grouping inner =>
    let (inner, next) := inner.renumber next
    (.grouping inner, next)
  | .unary op line operand =>
    let (operand, next) := operand.renumber next
    (.unary op line operand, next)
  | .binary op line left right =>
    let (left, next) := left.renumber next
    let (right, next) := right.renumber next
    (.binary op line left right, next)
  | .logical op left right =>
    let (left, next) := left.renumber next
    let (right, next) := right.renumber next
    (.logical op left right, next)
  | .var reference => (.var ⟨next, reference.name⟩, next + 1)
  | .assign reference value =>
    let (value, after) := value.renumber (next + 1)
    (.assign ⟨next, reference.name⟩ value, after)
  | .call callee line arguments =>
    let (callee, next) := callee.renumber next
    let (arguments, next) := Expr.renumberAll next arguments
    (.call callee line arguments, next)
  | .get object name =>
    let (object, next) := object.renumber next
    (.get object name, next)
  | .set object name value =>
    let (object, next) := object.renumber next
    let (value, next) := value.renumber next
    (.set object name value, next)
  | .self reference => (.self ⟨next, reference.name⟩, next + 1)
  | .super reference method => (.super ⟨next, reference.name⟩ method, next + 1)

def Expr.renumberAll (next : Nat) : List Expr → List Expr × Nat
  | [] => ([], next)
  | e :: rest =>
    let (e, next) := e.renumber next
    let (rest, next) := Expr.renumberAll next rest
    (e :: rest, next)

end

end ScopeScript
