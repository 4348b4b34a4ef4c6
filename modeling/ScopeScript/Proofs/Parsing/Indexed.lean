import ScopeScript.Syntax.Grammar

set_option autoImplicit false

/-!
The grammar read by position, with everything that a reading keeps in mind.

The position is an index into the list of tokens, and it can be any number: unlike the functions of
`Parser`, which read from the front of what is left, a rule can ask for a token where there is none.
Beside the position stand the number of loops that are open and the positions at which a fault ended
a declaration. A rule whose bound on the depth is used up gives up for good, and so does one that
asks for a token outside of the list. Only faults are recovered from.
-/

namespace ScopeScript

namespace Indexed

open ScopeScript.Parser (Rung ladder unaryOp? assignForm? atom? suffix? lead? declarationLead?
  startsStatement maxArity forNode)

inductive Stop where
  | fault (d : Diagnostic)
  | outside
  | exhausted

structure State where
  current : Nat
  loops : Nat
  nextId : Nat
  faults : List Diagnostic
  blamed : List Nat

abbrev Reader := EStateM Stop State

def State.start (firstId : Nat) : State where
  current := 0
  loops := 0
  nextId := firstId
  faults := []
  blamed := []

def note (place : Place) (fault : SyntaxFault) : Reader Unit :=
  modify fun s => { s with faults := s.faults ++ [.syntactic place fault] }

def freshId : Reader Nat := fun s =>
  .ok s.nextId { s with nextId := s.nextId + 1 }

def reference (name : Name) : Reader Reference := do
  return ⟨← freshId, name⟩

def copy (e : Expr) : Reader Expr := fun s =>
  .ok (e.renumber s.nextId).1 { s with nextId := (e.renumber s.nextId).2 }

variable {α : Type} (tokens : List Token)

def peek : Reader Token := fun s =>
  match tokens[s.current]? with
  | none => .error .outside s
  | some t => .ok t s

def previous : Reader Token := fun s =>
  match tokens[s.current - 1]? with
  | none => .error .outside s
  | some t => .ok t s

def atEnd : Reader Bool := do
  return (← peek tokens).kind == .eof

def isNext (kind : Kind) : Reader Bool := do
  if ← atEnd tokens then return false else return (← peek tokens).kind == kind

def advance : Reader Token := do
  if !(← atEnd tokens) then modify fun s => { s with current := s.current + 1 }
  previous tokens

def take? (f : Kind → Option α) : Reader (Option (α × Token)) := do
  if ← atEnd tokens then return none
  else
    match f (← peek tokens).kind with
    | none => return none
    | some a => return some (a, ← advance tokens)

def accept (kind : Kind) : Reader Bool := do
  if ← isNext tokens kind then
    let _ ← advance tokens
    return true
  else return false

def fail (what : Expectation) : Reader α := do
  throw (.fault (.syntactic (← peek tokens).place (.expected what)))

def expect (kind : Kind) (what : Expectation) : Reader Token := do
  if ← isNext tokens kind then advance tokens else fail tokens what

def expectName (what : Expectation) : Reader Name := do
  let t ← expect tokens .identifier what
  return ⟨t.lexeme, t.line⟩

def noteHere (fault : SyntaxFault) : Reader Unit := do
  note (← peek tokens).place fault

def skip : Nat → Reader Unit
  | 0 => throw .exhausted
  | n + 1 => do
    if ← atEnd tokens then return ()
    else if (← previous tokens).kind == .punctuator .semicolon then return ()
    else if startsStatement (← peek tokens).kind then return ()
    else
      let _ ← advance tokens
      skip n

def synchronize (n : Nat) : Reader Unit := do
  let _ ← advance tokens
  skip tokens n

def recovering (n : Nat) (statement : Reader Stmt) : Reader (Option Stmt) := fun s =>
  match statement s with
  | .ok a s => .ok (some a) s
  | .error (.fault d) s =>
    (do synchronize tokens n; return none : Reader (Option Stmt))
      { s with faults := s.faults ++ [d], blamed := s.blamed ++ [s.current] }
  | .error stop s => .error stop s

def withLoops (enter : Nat → Nat) (leave : Nat → Nat → Nat) (body : Reader α) : Reader α := fun s =>
  match body { s with loops := enter s.loops } with
  | .ok a s' => .ok a { s' with loops := leave s.loops s'.loops }
  | .error stop s' => .error stop { s' with loops := leave s.loops s'.loops }

def loopBody (body : Reader α) : Reader α :=
  withLoops (fun loops => loops + 1) (fun _ loops => loops - 1) body

def outsideLoops (body : Reader α) : Reader α :=
  withLoops (fun _ => 0) (fun loops _ => loops) body

-- Expressions.

def assignTo (target value : Expr) (sign : Token) : Reader Expr :=
  match target with
  | .var old => return .assign (← reference old.name) value
  | .get object name => return .set object name value
  | other => do
    note sign.place .invalidAssignmentTarget
    return other

def updateTo (target : Expr) (op : BinaryOp) (value : Expr) (sign : Token) : Reader Expr :=
  match target with
  | .var old => do
    let current ← reference old.name
    assignTo target (.binary op sign.line (.var current) value) sign
  | .get object name => do
    let current ← copy object
    assignTo target (.binary op sign.line (.get current name) value) sign
  | other => assignTo other value sign

mutual

def expression : Nat → Reader Expr
  | 0 => throw .exhausted
  | n + 1 => do
    let target ← rung n ladder
    match ← take? tokens assignForm? with
    | none => return target
    | some (.plain, sign) => assignTo target (← expression n) sign
    | some (.compound op, sign) => updateTo target op (← expression n) sign
    | some (.step op, sign) => updateTo target op (.literal (.number 1)) sign

def rung : Nat → List Rung → Reader Expr
  | 0, _ => throw .exhausted
  | n + 1, [] => unary n
  | n + 1, r :: tighter => do
    let left ← rung n tighter
    rungTail n r tighter left

def rungTail : Nat → Rung → List Rung → Expr → Reader Expr
  | 0, _, _, _ => throw .exhausted
  | n + 1, r, tighter, left => do
    match ← take? tokens r with
    | none => return left
    | some (op, sign) =>
      let right ← rung n tighter
      rungTail n r tighter (op.node sign.line left right)

def unary : Nat → Reader Expr
  | 0 => throw .exhausted
  | n + 1 => do
    match ← take? tokens unaryOp? with
    | some (op, sign) => return .unary op sign.line (← unary n)
    | none => suffixes n (← operand n)

def suffixes : Nat → Expr → Reader Expr
  | 0, _ => throw .exhausted
  | n + 1, e => do
    match ← take? tokens suffix? with
    | none => return e
    | some (.call, _) =>
      let arguments ←
        if ← isNext tokens (.punctuator .rightParen) then pure [] else arguments n 0
      let close ← expect tokens (.punctuator .rightParen) .argumentsEnd
      suffixes n (.call e close.line arguments)
    | some (.property, _) =>
      let name ← expectName tokens .propertyName
      suffixes n (.get e name)

def arguments : Nat → Nat → Reader (List Expr)
  | 0, _ => throw .exhausted
  | n + 1, count => do
    if maxArity ≤ count then noteHere tokens .tooManyArguments
    let e ← expression n
    if ← accept tokens (.punctuator .comma) then return e :: (← arguments n (count + 1))
    else return [e]

def operand : Nat → Reader Expr
  | 0 => throw .exhausted
  | n + 1 => do
    match ← take? tokens atom? with
    | none => fail tokens .expression
    | some (.literal value, _) => return .literal value
    | some (.name, word) => return .var (← reference ⟨word.lexeme, word.line⟩)
    | some (.self, word) => return .self (← reference ⟨word.lexeme, word.line⟩)
    | some (.super, word) =>
      let _ ← expect tokens (.punctuator .dot) .superDot
      let method ← expectName tokens .superMethod
      return .super (← reference ⟨word.lexeme, word.line⟩) method
    | some (.group, _) =>
      let inner ← expression n
      let _ ← expect tokens (.punctuator .rightParen) .groupingEnd
      return .grouping inner

end

-- Statements.

def expressionStatement (n : Nat) : Reader Stmt := do
  let value ← expression tokens n
  let _ ← expect tokens (.punctuator .semicolon) .expressionEnd
  return .expression value

def printStatement (n : Nat) : Reader Stmt := do
  let value ← expression tokens n
  let _ ← expect tokens (.punctuator .semicolon) .printEnd
  return .print value

def expressionUnless (n : Nat) (kind : Kind) : Reader (Option Expr) := do
  if ← isNext tokens kind then return none else return some (← expression tokens n)

def returnStatement (n : Nat) (line : Nat) : Reader Stmt := do
  let value ← expressionUnless tokens n (.punctuator .semicolon)
  let _ ← expect tokens (.punctuator .semicolon) .returnEnd
  return .returning line value

def jumpStatement (kind : Jump) (word : Token) : Reader Stmt := do
  if (← get).loops == 0 then note word.place (.outsideLoop kind)
  let _ ← expect tokens (.punctuator .semicolon) (.jumpEnd kind)
  return .jump kind

def varDeclaration (n : Nat) : Reader Stmt := do
  let name ← expectName tokens .variableName
  let initial ←
    if ← accept tokens (.punctuator .equal) then pure (some (← expression tokens n)) else pure none
  let _ ← expect tokens (.punctuator .semicolon) .variableEnd
  return .varDecl name initial

def forInitial (n : Nat) : Reader (Option Stmt) := do
  if ← accept tokens (.punctuator .semicolon) then return none
  else if ← accept tokens (.keyword .var) then return some (← varDeclaration tokens n)
  else return some (← expressionStatement tokens n)

def parameters : Nat → Nat → Reader (List Name)
  | 0, _ => throw .exhausted
  | n + 1, count => do
    if maxArity ≤ count then noteHere tokens .tooManyParameters
    let name ← expectName tokens .parameterName
    if ← accept tokens (.punctuator .comma) then return name :: (← parameters n (count + 1))
    else return [name]

def functionHead (n : Nat) (kind : FunctionKind) : Reader (Name × List Name) := do
  let name ← expectName tokens (.functionName kind)
  let _ ← expect tokens (.punctuator .leftParen) (.parametersStart kind)
  let names ←
    if ← isNext tokens (.punctuator .rightParen) then pure [] else parameters tokens n 0
  let _ ← expect tokens (.punctuator .rightParen) .parametersEnd
  let _ ← expect tokens (.punctuator .leftBrace) (.bodyStart kind)
  return (name, names)

def classHead : Reader (Name × Option Reference) := do
  let name ← expectName tokens .className
  let superclass ←
    if ← accept tokens (.punctuator .less) then
      let above ← expectName tokens .superclassName
      pure (some (← reference above))
    else pure none
  let _ ← expect tokens (.punctuator .leftBrace) .classStart
  return (name, superclass)

mutual

def declaration : Nat → Reader (Option Stmt)
  | 0 => throw .exhausted
  | n + 1 => recovering tokens n do
    match ← take? tokens declarationLead? with
    | some (.classDecl, _) =>
      let (name, superclass) ← classHead tokens
      let methods ← methods n
      let _ ← expect tokens (.punctuator .rightBrace) .classEnd
      return .classDecl name superclass methods
    | some (.funDecl, _) => return .funDecl (← function n .function)
    | some (.varDecl, _) => varDeclaration tokens n
    | none => statement n

def statement : Nat → Reader Stmt
  | 0 => throw .exhausted
  | n + 1 => do
    match ← take? tokens lead? with
    | some (.jump kind, word) => jumpStatement tokens kind word
    | some (.forLoop, _) =>
      let _ ← expect tokens (.punctuator .leftParen) .forStart
      let initial ← forInitial tokens n
      let condition ← expressionUnless tokens n (.punctuator .semicolon)
      let _ ← expect tokens (.punctuator .semicolon) .forConditionEnd
      let step ← expressionUnless tokens n (.punctuator .rightParen)
      let _ ← expect tokens (.punctuator .rightParen) .forEnd
      return forNode initial condition step (← loopBody (statement n))
    | some (.whileLoop, _) =>
      let _ ← expect tokens (.punctuator .leftParen) .whileStart
      let condition ← expression tokens n
      let _ ← expect tokens (.punctuator .rightParen) .whileEnd
      return .loop condition (← loopBody (statement n)) none
    | some (.branch, _) =>
      let _ ← expect tokens (.punctuator .leftParen) .ifStart
      let condition ← expression tokens n
      let _ ← expect tokens (.punctuator .rightParen) .ifEnd
      let consequent ← statement n
      if ← accept tokens (.keyword .else) then
        return .ifElse condition consequent (some (← statement n))
      else return .ifElse condition consequent none
    | some (.print, _) => printStatement tokens n
    | some (.returning, word) => returnStatement tokens n word.line
    | some (.block, _) => return .block (← block n)
    | none => expressionStatement tokens n

def block : Nat → Reader (List Stmt)
  | 0 => throw .exhausted
  | n + 1 => do
    if (← atEnd tokens) || (← isNext tokens (.punctuator .rightBrace)) then
      let _ ← expect tokens (.punctuator .rightBrace) .blockEnd
      return []
    else
      let first ← declaration n
      let rest ← block n
      return first.toList ++ rest

def function : Nat → FunctionKind → Reader FunctionDecl
  | 0, _ => throw .exhausted
  | n + 1, kind => do
    let (name, names) ← functionHead tokens n kind
    return .mk name names (← outsideLoops (block n))

def methods : Nat → Reader (List FunctionDecl)
  | 0 => throw .exhausted
  | n + 1 => do
    if (← atEnd tokens) || (← isNext tokens (.punctuator .rightBrace)) then return []
    else
      let first ← function n .method
      return first :: (← methods n)

end

def program : Nat → Reader (List Stmt)
  | 0 => throw .exhausted
  | n + 1 => do
    if ← atEnd tokens then return []
    else
      let first ← declaration tokens n
      let rest ← program n
      return first.toList ++ rest

end Indexed

end ScopeScript
