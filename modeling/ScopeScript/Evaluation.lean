import ScopeScript.Machine

set_option autoImplicit false

/-!
What programs do.

Evaluation takes a bound on its depth, counting iterations and statements in a row as depth too. A
run that ends within some bound ends in the same way within any larger one.
-/

namespace ScopeScript

/-- How control leaves a statement. -/
inductive Completion where
  | normal
  | returned (value : Value)
  | jumped (kind : Jump)

namespace Run

def bind (method : Method) (i : Instance) : Run Closure := do
  let env ← onStore fun s => s.enclose method.environment
  modifyStore fun s => s.define env "this" (.instance i)
  let identity ← onStore Store.newIdentity
  return ⟨identity, method.declaration, env, method.declaration.isInitializer⟩

def property (i : Instance) (name : Name) : Run Value := do
  match (← get).store.field? i name.text with
  | some value => return value
  | none =>
    match i.ofClass.method? name.text with
    | some method => return .function (← bind method i)
    | none => stop name.line (.undefinedProperty name.text)

/-- The method of the superclass, bound to the receiver of the running method. The receiver is kept
one scope inside the one that holds the superclass. -/
def inherited (reference : Reference) (method : Name) : Run Value := do
  let m ← get
  match m.resolution[reference.id]? with
  | none => stop reference.name.line (.undefinedVariable reference.name.text)
  | some distance =>
    match m.store.getAt? m.environment distance "super",
        m.store.getAt? m.environment (distance - 1) "this" with
    | some (.class c), some (.instance i) =>
      match c.method? method.text with
      | some found => return .function (← bind found i)
      | none => stop method.line (.undefinedProperty method.text)
    | _, _ => stop reference.name.line .invalidSuper

def closure (declaration : FunctionDecl) : Run Closure := do
  let identity ← onStore Store.newIdentity
  return ⟨identity, declaration, (← get).environment, false⟩

def methodTable (declarations : List FunctionDecl) (env : Environment) : Bindings Method :=
  .ofList (declarations.map fun f => (f.name.text, ⟨f, env⟩))

def superclass (reference : Reference) : Run Class := do
  match ← lookUp reference with
  | .class c => return c
  | _ => stop reference.name.line .superclassNotClass

/-- Where the methods of a class are declared: inside a scope that holds the superclass, if there is
one. -/
def methodEnvironment (above : Option Class) : Run Environment := do
  let current := (← get).environment
  match above with
  | none => return current
  | some c =>
    let env ← onStore fun s => s.enclose current
    modifyStore fun s => s.define env "super" (.class c)
    return env

def declareClass (name : Name) (above : Option Reference) (methods : List FunctionDecl) :
    Run Unit := do
  let above ← match above with
    | none => pure none
    | some reference => some <$> superclass reference
  define name.text .nil
  let env ← methodEnvironment above
  let identity ← onStore Store.newIdentity
  let layer : ClassLayer := ⟨identity, name.text, methodTable methods env⟩
  let value := Value.class ⟨layer, (above.map Class.layers).getD []⟩
  assignFrom (← get).environment name value

def readLine (line : Nat) : Run Value := do
  match (← get).input.line with
  | .awaiting => throw .awaitingInput
  | .atEnd => return .nil
  | .read bytes rest =>
    modify fun m => { m with input := rest }
    match Input.decode? bytes with
    | some text => return .ofInput (Input.chomp text)
    | none => stop line (.native ("Read error: " ++ Input.undecodableReason))

def clockReading : Run Nat := fun m =>
  .ok m.readings { m with readings := m.readings + 1 }

def greet (name : Value) (line : Nat) : Run Value := do
  if ← write ("Hello, " ++ name.text ++ "\n") then return .nil
  else stop line (.native ("Write error: " ++ Sink.fullReason))

def callHost (slot : Nat) (arguments : List Value) (line : Nat) : Run Value := fun m =>
  match m.hosts[slot]? with
  | none => .ok .nil m
  | some f =>
    match f arguments m.output with
    | (.ok value, output) => .ok value { m with output := output }
    | (.error message, output) => stop line (.native message) { m with output := output }

def callNative (body : NativeBody) (arguments : List Value) (line : Nat) : Run Value := do
  match body with
  | .clock => return .string ((← get).clock.time (← clockReading))
  | .tick => return .number ((← get).clock.uptime (← clockReading))
  | .read => readLine line
  | .typeOf => return .string (arguments.headD .nil).typeName
  | .greet => greet (arguments.headD .nil) line
  | .host slot => callHost slot arguments line

def checkArity (expected got line : Nat) : Run Unit :=
  if expected = got then pure () else stop line (.wrongArity expected got)

def activation (f : Closure) (arguments : List Value) : Run Environment := do
  let env ← onStore fun s => s.enclose f.environment
  modifyStore fun s =>
    (f.declaration.parameters.zip arguments).foldl
      (fun s binding => s.define env binding.1.text binding.2) s
  return env

/-- The result of a call whose body has ended. An initializer always gives its instance. -/
def callResult (f : Closure) (completion : Completion) : Run Value := do
  if f.isInitializer then
    return ((← get).store.getAt? f.environment 0 "this").getD .nil
  else
    match completion with
    | .returned value => return value
    | .normal | .jumped _ => return .nil

def printLine (value : Value) : Run Unit := do
  if ← write (value.text ++ "\n") then pure ()
  else throw (.fault (.output Sink.fullReason))

def newScope : Run Environment := fun m =>
  let (env, store) := m.store.enclose m.environment
  .ok env { m with store := store }

mutual

def execute : Nat → Stmt → Run Completion
  | 0, _ => throw .exhausted
  | n + 1, s => do
    match s with
    | .expression e =>
      let _ ← evaluate n e
      return .normal
    | .print e =>
      printLine (← evaluate n e)
      return .normal
    | .varDecl name initial =>
      let value ← match initial with
        | none => pure .nil
        | some e => evaluate n e
      define name.text value
      return .normal
    | .block body =>
      within (← newScope) (executeAll n body)
    | .ifElse condition consequent alternative =>
      if (← evaluate n condition).isTruthy then execute n consequent
      else
        match alternative with
        | none => return .normal
        | some alternative => execute n alternative
    | .loop condition body step => iterate n condition body step
    | .funDecl f =>
      define f.name.text (.function (← closure f))
      return .normal
    | .classDecl name above methods =>
      declareClass name above methods
      return .normal
    | .returning _ none => return .returned .nil
    | .returning _ (some e) => return .returned (← evaluate n e)
    | .jump kind => return .jumped kind

def executeAll : Nat → List Stmt → Run Completion
  | 0, _ => throw .exhausted
  | _ + 1, [] => return .normal
  | n + 1, s :: rest => do
    match ← execute n s with
    | .normal => executeAll n rest
    | completion => return completion

def iterate : Nat → Expr → Stmt → Option Expr → Run Completion
  | 0, _, _, _ => throw .exhausted
  | n + 1, condition, body, step => do
    if (← evaluate n condition).isTruthy then
      match ← execute n body with
      | .jumped .leave => return .normal
      | .returned value => return .returned value
      | .normal | .jumped .next =>
        match step with
        | none => pure ()
        | some e => let _ ← evaluate n e
        iterate n condition body step
    else return .normal

def evaluate : Nat → Expr → Run Value
  | 0, _ => throw .exhausted
  | n + 1, e => do
    match e with
    | .literal value => return value.toValue
    | .grouping inner => evaluate n inner
    | .unary op line operand => ofOperation line (op.apply (← evaluate n operand))
    | .binary op line left right =>
      let a ← evaluate n left
      let b ← evaluate n right
      ofOperation line (op.apply a b)
    | .logical op left right =>
      let a ← evaluate n left
      let decided := match op with
        | .or => a.isTruthy
        | .and => !a.isTruthy
      if decided then return a else evaluate n right
    | .var reference => lookUp reference
    | .assign reference e =>
      let value ← evaluate n e
      assign reference value
      return value
    | .call callee line arguments =>
      let f ← evaluate n callee
      let values ← evaluateAll n arguments
      call n f line values
    | .get object name =>
      match ← evaluate n object with
      | .instance i => property i name
      | _ => stop name.line .propertyOfNonInstance
    | .set object name e =>
      match ← evaluate n object with
      | .instance i =>
        let value ← evaluate n e
        modifyStore fun s => s.setField i name.text value
        return value
      | _ => stop name.line .fieldOfNonInstance
    | .self reference => lookUp reference
    | .super reference method => inherited reference method

def evaluateAll : Nat → List Expr → Run (List Value)
  | 0, _ => throw .exhausted
  | _ + 1, [] => return []
  | n + 1, e :: rest => do
    let value ← evaluate n e
    return value :: (← evaluateAll n rest)

def call : Nat → Value → Nat → List Value → Run Value
  | 0, _, _, _ => throw .exhausted
  | n + 1, callee, line, arguments => do
    match callee with
    | .function f =>
      checkArity f.arity arguments.length line
      apply n f arguments
    | .class c =>
      checkArity c.arity arguments.length line
      let i ← onStore fun s => s.newInstance c
      match c.method? "init" with
      | none => pure ()
      | some init => let _ ← apply n (← bind init i) arguments
      return .instance i
    | .native f =>
      checkArity f.arity arguments.length line
      callNative f.body arguments line
    | _ => stop line .notCallable

def apply : Nat → Closure → List Value → Run Value
  | 0, _, _ => throw .exhausted
  | n + 1, f, arguments => do
    let env ← activation f arguments
    callResult f (← within env (executeAll n f.declaration.body))

end

def executeProgram (depth : Nat) : List Stmt → Run Unit
  | [] => pure ()
  | s :: rest => do
    let _ ← execute depth s
    executeProgram depth rest

def flush : Run Unit := do
  if (← get).output.flushFails then throw (.fault (.output Sink.flushReason))

/-- Runs a program up to its first fault, and flushes the output. A failure to flush counts more
than a fault of the program. -/
def program (depth : Nat) (statements : List Stmt) : Run Unit := fun m =>
  match executeProgram depth statements m with
  | .ok _ m => flush { m with environment := .root }
  | .error (.fault d) m =>
    match flush { m with environment := .root } with
    | .ok _ m => .error (.fault d) m
    | .error halt m => .error halt m
  | .error halt m => .error halt { m with environment := .root }

end Run

end ScopeScript
