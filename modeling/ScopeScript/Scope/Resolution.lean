import Std.Data.TreeMap
import ScopeScript.Bindings
import ScopeScript.Syntax.Tree

set_option autoImplicit false

namespace ScopeScript

/-- For the number of a reference, how many scopes out its name is bound. -/
abbrev Resolution := Std.TreeMap Nat Nat

/-- A name is declared before its initial value is known, and defined after. -/
inductive Status where
  | declared
  | defined
  deriving DecidableEq

inductive FunctionContext where
  | outside
  | function
  | method
  | initializer
  deriving DecidableEq

inductive ClassContext where
  | outside
  | base
  | derived
  deriving DecidableEq

structure ScopeContext where
  function : FunctionContext
  owner : ClassContext
  deriving DecidableEq

def ScopeContext.topLevel : ScopeContext := ⟨.outside, .outside⟩

structure ScopeState where
  scopes : List (Bindings Status)
  resolution : Resolution
  faults : List Diagnostic

namespace ScopeState

def initial : ScopeState := ⟨[], ∅, []⟩

def note (s : ScopeState) (name : Name) (fault : ScopeFault) : ScopeState :=
  { s with faults := s.faults ++ [.scoping ⟨name.line, some name.text⟩ fault] }

def enter (s : ScopeState) : ScopeState :=
  { s with scopes := ∅ :: s.scopes }

def leave (s : ScopeState) : ScopeState :=
  { s with scopes := s.scopes.tail }

/-- Marks a name of the innermost scope. The global names are not tracked. -/
def mark (s : ScopeState) (name : String) (status : Status) : ScopeState :=
  match s.scopes with
  | [] => s
  | scope :: outer => { s with scopes := scope.insert name status :: outer }

-- A name declared twice is noted, and the walk goes on with it.
def declare (s : ScopeState) (name : Name) : ScopeState :=
  match s.scopes with
  | [] => s
  | scope :: _ =>
    if scope.contains name.text then s.note name .redeclared else s.mark name.text .declared

def define (s : ScopeState) (name : Name) : ScopeState :=
  s.mark name.text .defined

def distance? (s : ScopeState) (name : String) : Option Nat :=
  s.scopes.findIdx? fun scope => scope.contains name

def resolve (s : ScopeState) (reference : Reference) : ScopeState :=
  match s.distance? reference.name.text with
  | some distance => { s with resolution := s.resolution.insert reference.id distance }
  | none => s

/-- Whether a name of the innermost scope still waits for its initial value. -/
def isPending (s : ScopeState) (name : String) : Bool :=
  (s.scopes.head?.bind fun scope => scope.get? name) == some .declared

def use (s : ScopeState) (reference : Reference) : ScopeState :=
  let noted :=
    if s.isPending reference.name.text then s.note reference.name .readInOwnInitializer else s
  noted.resolve reference

end ScopeState

namespace Expr

mutual

def scopes (context : ScopeContext) : Expr → ScopeState → ScopeState
  | .literal _, s => s
  | .grouping inner, s => inner.scopes context s
  | .unary _ _ operand, s => operand.scopes context s
  | .binary _ _ left right, s => right.scopes context (left.scopes context s)
  | .logical _ left right, s => right.scopes context (left.scopes context s)
  | .var reference, s => s.use reference
  | .assign reference value, s => (value.scopes context s).resolve reference
  | .call callee _ arguments, s => scopesAll context arguments (callee.scopes context s)
  | .get object _, s => object.scopes context s
  | .set object _ value, s => object.scopes context (value.scopes context s)
  | .self reference, s =>
    match context.owner with
    | .outside => s.note reference.name .thisOutsideClass
    | .base | .derived => s.resolve reference
  | .super reference _, s =>
    match context.owner with
    | .outside => s.note reference.name .superOutsideClass
    | .base => s.note reference.name .superWithoutSuperclass
    | .derived => s.resolve reference

def scopesAll (context : ScopeContext) : List Expr → ScopeState → ScopeState
  | [], s => s
  | e :: rest, s => scopesAll context rest (e.scopes context s)

end

def scopes? (context : ScopeContext) (e : Option Expr) (s : ScopeState) : ScopeState :=
  match e with
  | none => s
  | some e => e.scopes context s

end Expr

namespace ScopeState

def enterFunction (s : ScopeState) (parameters : List Name) : ScopeState :=
  parameters.foldl (fun s name => (s.declare name).define name) s.enter

/-- Declares a class, enters the scope of `super` if there is one, and then that of `this`. -/
def enterClass (s : ScopeState) (name : Name) (superclass : Option Reference) : ScopeState :=
  let named := (s.declare name).define name
  let above := match superclass with
    | none => named
    | some reference =>
      let noted :=
        if reference.name.text = name.text then named.note reference.name .inheritsFromItself
        else named
      (noted.use reference).enter.mark "super" .defined
  above.enter.mark "this" .defined

def leaveClass (s : ScopeState) (superclass : Option Reference) : ScopeState :=
  match superclass with
  | none => s.leave
  | some _ => s.leave.leave

def checkReturn (s : ScopeState) (context : ScopeContext) (line : Nat) (hasValue : Bool) :
    ScopeState :=
  let word : Name := ⟨"return", line⟩
  match context.function with
  | .outside => s.note word .returnAtTopLevel
  | .initializer => if hasValue then s.note word .returnValueFromInitializer else s
  | .function | .method => s

end ScopeState

def ClassContext.of (superclass : Option Reference) : ClassContext :=
  if superclass.isSome then .derived else .base

def FunctionContext.ofMethod (f : FunctionDecl) : FunctionContext :=
  if f.isInitializer then .initializer else .method

mutual

def Stmt.scopes (context : ScopeContext) : Stmt → ScopeState → ScopeState
  | .expression value, s => value.scopes context s
  | .print value, s => value.scopes context s
  | .varDecl name initial, s => (Expr.scopes? context initial (s.declare name)).define name
  | .block body, s => (Stmt.scopesAll context body s.enter).leave
  | .ifElse condition consequent none, s =>
    consequent.scopes context (condition.scopes context s)
  | .ifElse condition consequent (some alternative), s =>
    alternative.scopes context (consequent.scopes context (condition.scopes context s))
  | .loop condition body step, s =>
    Expr.scopes? context step (body.scopes context (condition.scopes context s))
  | .funDecl f, s =>
    f.scopes { context with function := .function } ((s.declare f.name).define f.name)
  | .classDecl name superclass methods, s =>
    (FunctionDecl.scopesAll { context with owner := .of superclass } methods
      (s.enterClass name superclass)).leaveClass superclass
  | .returning line value, s =>
    Expr.scopes? context value (s.checkReturn context line value.isSome)
  | .jump _, s => s

def Stmt.scopesAll (context : ScopeContext) : List Stmt → ScopeState → ScopeState
  | [], s => s
  | first :: rest, s => Stmt.scopesAll context rest (first.scopes context s)

def FunctionDecl.scopes (context : ScopeContext) : FunctionDecl → ScopeState → ScopeState
  | .mk _ parameters body, s =>
    (Stmt.scopesAll context body (s.enterFunction parameters)).leave

def FunctionDecl.scopesAll (context : ScopeContext) : List FunctionDecl → ScopeState → ScopeState
  | [], s => s
  | f :: rest, s =>
    FunctionDecl.scopesAll context rest
      (f.scopes { context with function := .ofMethod f } s)

end

def resolve (program : List Stmt) : Except (List Diagnostic) Resolution :=
  let s := Stmt.scopesAll .topLevel program .initial
  if s.faults.isEmpty then .ok s.resolution else .error s.faults

end ScopeScript
