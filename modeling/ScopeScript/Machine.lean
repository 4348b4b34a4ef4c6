import ScopeScript.Channel.Input
import ScopeScript.Channel.Output
import ScopeScript.Scope.Resolution
import ScopeScript.Store

set_option autoImplicit false

namespace ScopeScript

/-- What the clock shows when it is asked for the first time, the second time and so on: the time of
day, and the seconds since the start. -/
structure Clock where
  time : Nat → String
  uptime : Nat → Float

/-- A native function of the program around: its arguments, and where it may write. A failure is a
message. -/
abbrev HostFunction := List Value → Sink → Except String Value × Sink

structure Machine where
  store : Store
  environment : Environment
  resolution : Resolution
  output : Sink
  input : Input
  clock : Clock
  readings : Nat
  hosts : List HostFunction

/-- Why a program stops early. Only the first is a fault of the program. -/
inductive Halt where
  | fault (d : Diagnostic)
  | exhausted
  | awaitingInput

-- The state is kept where a computation fails, so that effects before a failure stand.
abbrev Run := EStateM Halt Machine

namespace Run

def stop {α : Type} (line : Nat) (fault : RuntimeFault) : Run α :=
  throw (.fault (.runtime line fault))

def ofExcept {α : Type} : Except Diagnostic α → Run α
  | .ok a => pure a
  | .error d => throw (.fault d)

def ofOperation {α : Type} (line : Nat) : Except RuntimeFault α → Run α
  | .ok a => pure a
  | .error fault => stop line fault

def modifyStore (f : Store → Store) : Run Unit := fun m =>
  .ok () { m with store := f m.store }

def onStore {α : Type} (f : Store → α × Store) : Run α := fun m =>
  let (a, store) := f m.store
  .ok a { m with store := store }

/-- Runs a computation in another environment and returns to the current one, however it ends. -/
def within {α : Type} (env : Environment) (act : Run α) : Run α := fun m =>
  let current := m.environment
  match act { m with environment := env } with
  | .ok a m => .ok a { m with environment := current }
  | .error halt m => .error halt { m with environment := current }

def write (text : String) : Run Bool := fun m =>
  let fits := m.output.accepts text
  .ok fits { m with output := m.output.write text }

def define (name : String) (value : Value) : Run Unit := fun m =>
  .ok () { m with store := m.store.define m.environment name value }

/-- The value of a reference: in its scope if it is resolved, else among the global names. -/
def lookUp (reference : Reference) : Run Value := fun m =>
  let found := match m.resolution[reference.id]? with
    | some distance => m.store.readAt m.environment distance reference.name
    | none => m.store.read .root reference.name
  ofExcept found m

def assignFrom (env : Environment) (name : Name) (value : Value) : Run Unit := fun m =>
  match m.store.binder? env name.text with
  | some address => .ok () { m with store := m.store.bindAt address name.text value }
  | none => .error (.fault (Store.undefined name)) m

def assign (reference : Reference) (value : Value) : Run Unit := fun m =>
  match m.resolution[reference.id]? with
  | some distance =>
    .ok () { m with
      store := m.store.assignAt m.environment distance reference.name.text value }
  | none => assignFrom .root reference.name value m

end Run

namespace Machine

def natives : List (String × Nat × NativeBody) :=
  [("clock", 0, .clock), ("tick", 0, .tick), ("read", 0, .read), ("getType", 1, .typeOf),
    ("sayHi", 1, .greet)]

def defineNative (m : Machine) (name : String) (arity : Nat) (body : NativeBody) : Machine :=
  let (identity, store) := m.store.newIdentity
  { m with store := store.define .root name (.native ⟨identity, name, arity, body⟩) }

def defineHost (m : Machine) (name : String) (arity : Nat) (f : HostFunction) : Machine :=
  { m.defineNative name arity (.host m.hosts.length) with hosts := m.hosts ++ [f] }

def initial (output : Sink) (input : Input) (clock : Clock) : Machine :=
  natives.foldl (fun m native => m.defineNative native.1 native.2.1 native.2.2)
    { store := .initial, environment := .root, resolution := ∅, output := output, input := input,
      clock := clock, readings := 0, hosts := [] }

end Machine

end ScopeScript
