import ScopeScript.Syntax.Cursor

set_option autoImplicit false

namespace ScopeScript

namespace Parser

inductive Infix where
  | binary (op : BinaryOp)
  | logical (op : LogicalOp)

def Infix.node (op : Infix) (line : Nat) (left right : Expr) : Expr :=
  match op with
  | .binary op => .binary op line left right
  | .logical op => .logical op left right

abbrev Rung := Kind → Option Infix

def orRung : Rung
  | .keyword .or => some (.logical .or)
  | _ => none

def andRung : Rung
  | .keyword .and => some (.logical .and)
  | _ => none

def equalityRung : Rung
  | .punctuator .bangEqual => some (.binary .notEqual)
  | .punctuator .equalEqual => some (.binary .equal)
  | _ => none

def comparisonRung : Rung
  | .punctuator .greater => some (.binary .greater)
  | .punctuator .greaterEqual => some (.binary .greaterEqual)
  | .punctuator .less => some (.binary .less)
  | .punctuator .lessEqual => some (.binary .lessEqual)
  | _ => none

def additiveRung : Rung
  | .punctuator .minus => some (.binary .subtract)
  | .punctuator .plus => some (.binary .add)
  | _ => none

def multiplicativeRung : Rung
  | .punctuator .slash => some (.binary .divide)
  | .punctuator .star => some (.binary .multiply)
  | .punctuator .percent => some (.binary .remainder)
  | _ => none

def ladder : List Rung :=
  [orRung, andRung, equalityRung, comparisonRung, additiveRung, multiplicativeRung]

def unaryOp? : Kind → Option UnaryOp
  | .punctuator .bang => some .not
  | .punctuator .minus => some .negate
  | _ => none

inductive AssignForm where
  | plain
  | compound (op : BinaryOp)
  | step (op : BinaryOp)

def assignForm? : Kind → Option AssignForm
  | .punctuator .equal => some .plain
  | .punctuator .plusEqual => some (.compound .add)
  | .punctuator .minusEqual => some (.compound .subtract)
  | .punctuator .starEqual => some (.compound .multiply)
  | .punctuator .slashEqual => some (.compound .divide)
  | .punctuator .percentEqual => some (.compound .remainder)
  | .punctuator .plusPlus => some (.step .add)
  | .punctuator .minusMinus => some (.step .subtract)
  | _ => none

inductive Atom where
  | literal (value : Literal)
  | name
  | self
  | super
  | group

def atom? : Kind → Option Atom
  | .keyword .false => some (.literal (.bool false))
  | .keyword .true => some (.literal (.bool true))
  | .keyword .nil => some (.literal .nil)
  | .number value => some (.literal (.number value))
  | .string contents => some (.literal (.string contents))
  | .identifier => some .name
  | .keyword .this => some .self
  | .keyword .super => some .super
  | .punctuator .leftParen => some .group
  | _ => none

inductive Suffix where
  | call
  | property

def suffix? : Kind → Option Suffix
  | .punctuator .leftParen => some .call
  | .punctuator .dot => some .property
  | _ => none

def assignTo (target value : Expr) (sign : Token) : Parser Expr :=
  match target with
  | .var old => return .assign (← reference old.name) value
  | .get object name => return .set object name value
  | other => do
    note sign.place .invalidAssignmentTarget
    return other

/-- `target = target op value`. The object of a property is written twice. -/
def updateTo (target : Expr) (op : BinaryOp) (value : Expr) (sign : Token) : Parser Expr :=
  match target with
  | .var old => do
    let current ← reference old.name
    assignTo target (.binary op sign.line (.var current) value) sign
  | .get object name => do
    let current ← copy object
    assignTo target (.binary op sign.line (.get current name) value) sign
  | other => assignTo other value sign

def maxArity : Nat := 255

mutual

def expression : Nat → Parser Expr
  | 0 => fail .expression
  | n + 1 => do
    let target ← rung n ladder
    match ← take? assignForm? with
    | none => return target
    | some (.plain, sign) => assignTo target (← expression n) sign
    | some (.compound op, sign) => updateTo target op (← expression n) sign
    | some (.step op, sign) => updateTo target op (.literal (.number 1)) sign

def rung : Nat → List Rung → Parser Expr
  | 0, _ => fail .expression
  | n + 1, [] => unary n
  | n + 1, r :: tighter => do
    let left ← rung n tighter
    rungTail n r tighter left

def rungTail : Nat → Rung → List Rung → Expr → Parser Expr
  | 0, _, _, _ => fail .expression
  | n + 1, r, tighter, left => do
    match ← take? r with
    | none => return left
    | some (op, sign) =>
      let right ← rung n tighter
      rungTail n r tighter (op.node sign.line left right)

def unary : Nat → Parser Expr
  | 0 => fail .expression
  | n + 1 => do
    match ← take? unaryOp? with
    | some (op, sign) => return .unary op sign.line (← unary n)
    | none => suffixes n (← operand n)

def suffixes : Nat → Expr → Parser Expr
  | 0, _ => fail .expression
  | n + 1, e => do
    match ← take? suffix? with
    | none => return e
    | some (.call, _) =>
      let arguments ← if ← isNext (.punctuator .rightParen) then pure [] else arguments n 0
      let close ← expect (.punctuator .rightParen) .argumentsEnd
      suffixes n (.call e close.line arguments)
    | some (.property, _) =>
      let name ← expectName .propertyName
      suffixes n (.get e name)

def arguments : Nat → Nat → Parser (List Expr)
  | 0, _ => fail .expression
  | n + 1, count => do
    if maxArity ≤ count then noteHere .tooManyArguments
    let e ← expression n
    if ← accept (.punctuator .comma) then return e :: (← arguments n (count + 1))
    else return [e]

def operand : Nat → Parser Expr
  | 0 => fail .expression
  | n + 1 => do
    match ← take? atom? with
    | none => fail .expression
    | some (.literal value, _) => return .literal value
    | some (.name, word) => return .var (← reference ⟨word.lexeme, word.line⟩)
    | some (.self, word) => return .self (← reference ⟨word.lexeme, word.line⟩)
    | some (.super, word) =>
      let _ ← expect (.punctuator .dot) .superDot
      let method ← expectName .superMethod
      return .super (← reference ⟨word.lexeme, word.line⟩) method
    | some (.group, _) =>
      let inner ← expression n
      let _ ← expect (.punctuator .rightParen) .groupingEnd
      return .grouping inner

end

inductive Lead where
  | jump (kind : Jump)
  | forLoop
  | whileLoop
  | branch
  | print
  | returning
  | block

def lead? : Kind → Option Lead
  | .keyword .break => some (.jump .leave)
  | .keyword .continue => some (.jump .next)
  | .keyword .for => some .forLoop
  | .keyword .while => some .whileLoop
  | .keyword .if => some .branch
  | .keyword .print => some .print
  | .keyword .return => some .returning
  | .punctuator .leftBrace => some .block
  | _ => none

inductive DeclarationLead where
  | classDecl
  | funDecl
  | varDecl

def declarationLead? : Kind → Option DeclarationLead
  | .keyword .classWord => some .classDecl
  | .keyword .fun => some .funDecl
  | .keyword .var => some .varDecl
  | _ => none

def startsStatement : Kind → Bool
  | .keyword .classWord | .keyword .fun | .keyword .var | .keyword .for | .keyword .if
  | .keyword .while | .keyword .print | .keyword .return | .keyword .break
  | .keyword .continue => true
  | _ => false

/-- The tokens from the next boundary between statements on, `previous` being already read. -/
def resume (previous : Token) : List Token → List Token
  | [] => []
  | t :: rest =>
    if previous.kind = .punctuator .semicolon ∨ startsStatement t.kind then t :: rest
    else resume t rest

/-- Skips the token at fault and what follows it up to a boundary between statements. -/
def synchronize : List Token → List Token
  | [] => []
  | t :: rest => resume t rest

/-- A statement, or nothing if it has a fault. The fault is kept and reading resumes behind it. -/
def recovering (statement : Parser Stmt) : Parser (Option Stmt) := fun c =>
  match statement c with
  | .ok s c => .ok (some s) c
  | .error fault c =>
    .ok none { c with rest := synchronize c.rest, faults := c.faults ++ [fault] }

def expressionStatement (n : Nat) : Parser Stmt := do
  let value ← expression n
  let _ ← expect (.punctuator .semicolon) .expressionEnd
  return .expression value

def printStatement (n : Nat) : Parser Stmt := do
  let value ← expression n
  let _ ← expect (.punctuator .semicolon) .printEnd
  return .print value

def expressionUnless (n : Nat) (kind : Kind) : Parser (Option Expr) := do
  if ← isNext kind then return none else return some (← expression n)

def returnStatement (n : Nat) (line : Nat) : Parser Stmt := do
  let value ← expressionUnless n (.punctuator .semicolon)
  let _ ← expect (.punctuator .semicolon) .returnEnd
  return .returning line value

def jumpStatement (inLoop : Bool) (kind : Jump) (word : Token) : Parser Stmt := do
  if !inLoop then note word.place (.outsideLoop kind)
  let _ ← expect (.punctuator .semicolon) (.jumpEnd kind)
  return .jump kind

def varDeclaration (n : Nat) : Parser Stmt := do
  let name ← expectName .variableName
  let initial ←
    if ← accept (.punctuator .equal) then pure (some (← expression n)) else pure none
  let _ ← expect (.punctuator .semicolon) .variableEnd
  return .varDecl name initial

def forInitial (n : Nat) : Parser (Option Stmt) := do
  if ← accept (.punctuator .semicolon) then return none
  else if ← accept (.keyword .var) then return some (← varDeclaration n)
  else return some (← expressionStatement n)

/-- A loop whose scope also holds what is done before it. -/
def forNode (initial : Option Stmt) (condition : Option Expr) (step : Option Expr) (body : Stmt) :
    Stmt :=
  let loop := Stmt.loop (condition.getD (.literal (.bool true))) body step
  match initial with
  | none => loop
  | some first => .block [first, loop]

def parameters : Nat → Nat → Parser (List Name)
  | 0, _ => fail .parameterName
  | n + 1, count => do
    if maxArity ≤ count then noteHere .tooManyParameters
    let name ← expectName .parameterName
    if ← accept (.punctuator .comma) then return name :: (← parameters n (count + 1))
    else return [name]

def functionHead (n : Nat) (kind : FunctionKind) : Parser (Name × List Name) := do
  let name ← expectName (.functionName kind)
  let _ ← expect (.punctuator .leftParen) (.parametersStart kind)
  let names ← if ← isNext (.punctuator .rightParen) then pure [] else parameters n 0
  let _ ← expect (.punctuator .rightParen) .parametersEnd
  let _ ← expect (.punctuator .leftBrace) (.bodyStart kind)
  return (name, names)

def classHead : Parser (Name × Option Reference) := do
  let name ← expectName .className
  let superclass ←
    if ← accept (.punctuator .less) then
      let above ← expectName .superclassName
      pure (some (← reference above))
    else pure none
  let _ ← expect (.punctuator .leftBrace) .classStart
  return (name, superclass)

mutual

def declaration : Nat → Bool → Parser (Option Stmt)
  | 0, _ => fail .expression
  | n + 1, inLoop => recovering do
    match ← take? declarationLead? with
    | some (.classDecl, _) =>
      let (name, superclass) ← classHead
      let methods ← methods n
      let _ ← expect (.punctuator .rightBrace) .classEnd
      return .classDecl name superclass methods
    | some (.funDecl, _) => return .funDecl (← function n .function)
    | some (.varDecl, _) => varDeclaration n
    | none => statement n inLoop

def statement : Nat → Bool → Parser Stmt
  | 0, _ => fail .expression
  | n + 1, inLoop => do
    match ← take? lead? with
    | some (.jump kind, word) => jumpStatement inLoop kind word
    | some (.forLoop, _) =>
      let _ ← expect (.punctuator .leftParen) .forStart
      let initial ← forInitial n
      let condition ← expressionUnless n (.punctuator .semicolon)
      let _ ← expect (.punctuator .semicolon) .forConditionEnd
      let step ← expressionUnless n (.punctuator .rightParen)
      let _ ← expect (.punctuator .rightParen) .forEnd
      return forNode initial condition step (← statement n true)
    | some (.whileLoop, _) =>
      let _ ← expect (.punctuator .leftParen) .whileStart
      let condition ← expression n
      let _ ← expect (.punctuator .rightParen) .whileEnd
      return .loop condition (← statement n true) none
    | some (.branch, _) =>
      let _ ← expect (.punctuator .leftParen) .ifStart
      let condition ← expression n
      let _ ← expect (.punctuator .rightParen) .ifEnd
      let consequent ← statement n inLoop
      if ← accept (.keyword .else) then
        return .ifElse condition consequent (some (← statement n inLoop))
      else return .ifElse condition consequent none
    | some (.print, _) => printStatement n
    | some (.returning, word) => returnStatement n word.line
    | some (.block, _) => return .block (← block n inLoop)
    | none => expressionStatement n

def block : Nat → Bool → Parser (List Stmt)
  | 0, _ => fail .blockEnd
  | n + 1, inLoop => do
    if (← atEnd) || (← isNext (.punctuator .rightBrace)) then
      let _ ← expect (.punctuator .rightBrace) .blockEnd
      return []
    else
      let first ← declaration n inLoop
      let rest ← block n inLoop
      return first.toList ++ rest

/-- A function from its name on. No loop around it is a loop of its body. -/
def function : Nat → FunctionKind → Parser FunctionDecl
  | 0, kind => fail (.functionName kind)
  | n + 1, kind => do
    let (name, names) ← functionHead n kind
    return .mk name names (← block n false)

def methods : Nat → Parser (List FunctionDecl)
  | 0 => fail .classEnd
  | n + 1 => do
    if (← atEnd) || (← isNext (.punctuator .rightBrace)) then return []
    else
      let first ← function n .method
      return first :: (← methods n)

end

def program : Nat → Parser (List Stmt)
  | 0 => fail .expression
  | n + 1 => do
    if ← atEnd then return []
    else
      let first ← declaration n false
      let rest ← program n
      return first.toList ++ rest

/-- A depth that this many tokens do not exhaust: between two tokens less than 32 rules nest. -/
def depthFor (tokens : Nat) : Nat :=
  32 * (tokens + 1)

end Parser

structure Parsed where
  result : Except (List Diagnostic) (List Stmt)
  nextId : Nat

def parse (tokens : List Token) (firstId : Nat) : Parsed :=
  match Parser.program (Parser.depthFor tokens.length) (Cursor.start tokens firstId) with
  | .ok statements c =>
    ⟨if c.faults.isEmpty then .ok statements else .error c.faults, c.nextId⟩
  | .error fault c => ⟨.error (c.faults ++ [fault]), c.nextId⟩

end ScopeScript
