import ScopeScript.Proofs.Execution.Growth

set_option autoImplicit false

namespace ScopeScript

def Machine.writingTo (m : Machine) (output : Sink) : Machine := { m with output := output }

namespace Run

/-- The basic steps that neither read nor write have the property. What depends on the machine must
not depend on its output. -/
structure Closed (P : (α : Type) → Run α → Prop) : Prop where
  pure {α : Type} (a : α) : P α (Pure.pure a)
  bind {α β : Type} {p : Run α} {f : α → Run β} : P α p → (∀ a, P β (f a)) → P β (p >>= f)
  observe {α : Type} {f : Machine → Run α} : (∀ m, P α (f m)) →
    (∀ m output, f (m.writingTo output) = f m) → P α (get >>= f)
  stop {α : Type} (line : Nat) (fault : RuntimeFault) : P α (Run.stop line fault)
  clockReading : P Nat Run.clockReading
  onStore {α : Type} {f : Store → α × Store} : (∀ s : Store, s.Grows (f s).2) → P α (Run.onStore f)
  newScope : P Environment Run.newScope
  define (name : String) (value : Value) : P Unit (Run.define name value)
  lookUp (r : Reference) : P Value (Run.lookUp r)
  assign (r : Reference) (value : Value) : P Unit (Run.assign r value)
  assignFrom (env : Environment) (name : Name) (value : Value) :
    P Unit (Run.assignFrom env name value)

namespace Closed

variable {P : (α : Type) → Run α → Prop} {α β : Type} {p : Run α}

theorem map (h : Closed P) (g : α → β) (inner : P α p) : P β (g <$> p) := by
  have same : g <$> p = p >>= fun a => Pure.pure (g a) := by
    funext m
    change EStateM.map g p m = EStateM.bind p _ m
    unfold EStateM.map EStateM.bind
    cases p m <;> rfl
  exact same ▸ h.bind inner fun a => h.pure (g a)

theorem ofOperation (h : Closed P) (line : Nat) (result : Except RuntimeFault α) :
    P α (Run.ofOperation line result) := by
  cases result with
  | ok a => exact h.pure a
  | error fault => exact h.stop line fault

theorem modifyStore (h : Closed P) {f : Store → Store} (grows : ∀ s : Store, s.Grows (f s)) :
    P Unit (Run.modifyStore f) :=
  h.onStore (f := fun s => ((), f s)) grows

theorem checkArity (h : Closed P) (expected got line : Nat) :
    P Unit (Run.checkArity expected got line) := by
  unfold Run.checkArity
  split
  · exact h.pure ()
  · exact h.stop ..

theorem bindMethod (h : Closed P) (method : Method) (i : Instance) :
    P Closure (Run.bind method i) :=
  h.bind (h.onStore fun s => s.grows_enclose _) fun _ =>
    h.bind (h.modifyStore fun s => s.grows_define _ _ _) fun _ =>
      h.bind (h.onStore Store.grows_newIdentity) fun _ => h.pure _

theorem property (h : Closed P) (i : Instance) (name : Name) : P Value (Run.property i name) := by
  refine h.observe (fun m => ?_) fun _ _ => rfl
  split
  · exact h.pure _
  · split
    · exact h.bind (h.bindMethod _ i) fun _ => h.pure _
    · exact h.stop ..

theorem inherited (h : Closed P) (r : Reference) (method : Name) :
    P Value (Run.inherited r method) := by
  refine h.observe (fun m => ?_) fun _ _ => rfl
  split
  · exact h.stop ..
  · split
    · split
      · exact h.bind (h.bindMethod ..) fun _ => h.pure _
      · exact h.stop ..
    · exact h.stop ..

theorem closure (h : Closed P) (f : FunctionDecl) : P Closure (Run.closure f) :=
  h.bind (h.onStore Store.grows_newIdentity) fun _ => h.observe (fun _ => h.pure _) fun _ _ => rfl

theorem superclass (h : Closed P) (r : Reference) : P Class (Run.superclass r) := by
  refine h.bind (h.lookUp r) fun value => ?_
  split
  · exact h.pure _
  · exact h.stop ..

theorem methodEnvironment (h : Closed P) (above : Option Class) :
    P Environment (Run.methodEnvironment above) := by
  refine h.observe (fun m => ?_) fun _ _ => rfl
  cases above with
  | none => exact h.pure _
  | some c =>
    exact h.bind (h.onStore fun s => s.grows_enclose _) fun _ =>
      h.bind (h.modifyStore fun s => s.grows_define _ _ _) fun _ => h.pure _

theorem declareClass (h : Closed P) (name : Name) (above : Option Reference)
    (methods : List FunctionDecl) : P Unit (Run.declareClass name above methods) := by
  have rest (above : Option Class) : P Unit (do
      Run.define name.text .nil
      let env ← Run.methodEnvironment above
      let identity ← Run.onStore Store.newIdentity
      let layer : ClassLayer := ⟨identity, name.text, methodTable methods env⟩
      let value := Value.class ⟨layer, (above.map Class.layers).getD []⟩
      Run.assignFrom (← get).environment name value) :=
    h.bind (h.define _ _) fun _ => h.bind (h.methodEnvironment above) fun _ =>
      h.bind (h.onStore Store.grows_newIdentity) fun _ =>
        h.observe (fun _ => h.assignFrom ..) fun _ _ => rfl
  cases above with
  | none => exact rest none
  | some r => exact h.bind (h.map some (h.superclass r)) rest

theorem readLine (h : Closed P) (awaitingInput : P Value (throw .awaitingInput))
    (consume : ∀ rest, P Unit (modify fun m => { m with input := rest })) (line : Nat) :
    P Value (Run.readLine line) := by
  refine h.observe (fun m => ?_) fun _ _ => rfl
  split
  · exact awaitingInput
  · exact h.pure _
  · refine h.bind (consume _) fun _ => ?_
    split
    · exact h.pure _
    · exact h.stop ..

theorem activation (h : Closed P) (f : Closure) (arguments : List Value) :
    P Environment (Run.activation f arguments) :=
  h.bind (h.onStore fun s => s.grows_enclose _) fun _ =>
    h.bind (h.modifyStore (Store.grows_defineAll _ _)) fun _ => h.pure _

theorem callResult (h : Closed P) (f : Closure) (completion : Completion) :
    P Value (Run.callResult f completion) := by
  unfold Run.callResult
  split
  · exact h.observe (fun _ => h.pure _) fun _ _ => rfl
  · split <;> exact h.pure _

end Closed

structure ClosedRuns (P : (α : Type) → Run α → Prop) : Prop extends Closed P where
  exhausted {α : Type} : P α (throw .exhausted)
  within {α : Type} {p : Run α} (env : Environment) : P α p → P α (Run.within env p)
  readLine (line : Nat) : P Value (Run.readLine line)
  printLine (value : Value) : P Unit (Run.printLine value)
  greet (name : Value) (line : Nat) : P Value (Run.greet name line)
  callHost (slot : Nat) (arguments : List Value) (line : Nat) :
    P Value (Run.callHost slot arguments line)

namespace ClosedRuns

variable {P : (α : Type) → Run α → Prop} (h : ClosedRuns P)

include h

theorem callNative (body : NativeBody) (arguments : List Value) (line : Nat) :
    P Value (Run.callNative body arguments line) := by
  cases body with
  | clock | tick =>
    exact h.observe (fun _ => h.bind h.clockReading fun _ => h.pure _) fun _ _ => rfl
  | read => exact h.readLine line
  | typeOf => exact h.pure _
  | greet => exact h.greet _ line
  | host slot => exact h.callHost slot arguments line

mutual

theorem execute : ∀ (n : Nat) (s : Stmt), P Completion (Run.execute n s)
  | 0, _ => h.exhausted
  | n + 1, .expression e => h.bind (evaluate n e) fun _ => h.pure _
  | n + 1, .print e =>
    h.bind (evaluate n e) fun _ => h.bind (h.printLine _) fun _ => h.pure _
  | n + 1, .varDecl name none =>
    h.bind (h.pure _) fun _ => h.bind (h.define _ _) fun _ => h.pure _
  | n + 1, .varDecl name (some e) =>
    h.bind (evaluate n e) fun _ => h.bind (h.define _ _) fun _ => h.pure _
  | n + 1, .block body => h.bind h.newScope fun env => h.within env (executeAll n body)
  | n + 1, .ifElse condition consequent alternative => by
    unfold Run.execute
    refine h.bind (evaluate n condition) fun value => ?_
    split
    · exact execute n consequent
    · cases alternative with
      | none => exact h.pure _
      | some alternative => exact execute n alternative
  | n + 1, .loop condition body step => iterate n condition body step
  | n + 1, .funDecl f => h.bind (h.closure f) fun _ => h.bind (h.define _ _) fun _ => h.pure _
  | n + 1, .classDecl name above methods =>
    h.bind (h.declareClass name above methods) fun _ => h.pure _
  | _ + 1, .returning _ none => h.pure _
  | n + 1, .returning _ (some e) => h.bind (evaluate n e) fun _ => h.pure _
  | _ + 1, .jump _ => h.pure _

theorem executeAll : ∀ (n : Nat) (body : List Stmt), P Completion (Run.executeAll n body)
  | 0, _ => h.exhausted
  | _ + 1, [] => h.pure _
  | n + 1, s :: rest => by
    unfold Run.executeAll
    refine h.bind (execute n s) fun completion => ?_
    split
    · exact executeAll n rest
    · exact h.pure _

theorem iterate : ∀ (n : Nat) (condition : Expr) (body : Stmt) (step : Option Expr),
    P Completion (Run.iterate n condition body step)
  | 0, _, _, _ => h.exhausted
  | n + 1, condition, body, step => by
    unfold Run.iterate
    refine h.bind (evaluate n condition) fun value => ?_
    split
    · refine h.bind (execute n body) fun completion => ?_
      split
      · exact h.pure _
      · exact h.pure _
      all_goals
        split
        · exact h.bind (h.pure _) fun _ => iterate n condition body _
        · exact h.bind (evaluate n _) fun _ => iterate n condition body _
    · exact h.pure _

theorem evaluate : ∀ (n : Nat) (e : Expr), P Value (Run.evaluate n e)
  | 0, _ => h.exhausted
  | _ + 1, .literal _ => h.pure _
  | n + 1, .grouping inner => evaluate n inner
  | n + 1, .unary _ line operand => h.bind (evaluate n operand) fun _ => h.ofOperation line _
  | n + 1, .binary _ line left right =>
    h.bind (evaluate n left) fun _ => h.bind (evaluate n right) fun _ => h.ofOperation line _
  | n + 1, .logical op left right => by
    unfold Run.evaluate
    refine h.bind (evaluate n left) fun value => ?_
    have rest (decided : Bool) :
        P Value (if decided then Pure.pure value else Run.evaluate n right) := by
      cases decided with
      | true => exact h.pure _
      | false => exact evaluate n right
    exact rest _
  | _ + 1, .var r => h.lookUp r
  | n + 1, .assign r e =>
    h.bind (evaluate n e) fun value => h.bind (h.assign r value) fun _ => h.pure _
  | n + 1, .call callee line arguments =>
    h.bind (evaluate n callee) fun f =>
      h.bind (evaluateAll n arguments) fun values => call n f line values
  | n + 1, .get object name => by
    unfold Run.evaluate
    refine h.bind (evaluate n object) fun value => ?_
    split
    · exact h.property _ name
    · exact h.stop ..
  | n + 1, .set object name e => by
    unfold Run.evaluate
    refine h.bind (evaluate n object) fun value => ?_
    split
    · exact h.bind (evaluate n e) fun _ =>
        h.bind (h.modifyStore fun s => s.grows_setField _ _ _) fun _ => h.pure _
    · exact h.stop ..
  | _ + 1, .self r => h.lookUp r
  | _ + 1, .super r method => h.inherited r method

theorem evaluateAll : ∀ (n : Nat) (es : List Expr), P (List Value) (Run.evaluateAll n es)
  | 0, _ => h.exhausted
  | _ + 1, [] => h.pure _
  | n + 1, e :: rest =>
    h.bind (evaluate n e) fun _ => h.bind (evaluateAll n rest) fun _ => h.pure _

theorem call : ∀ (n : Nat) (callee : Value) (line : Nat) (arguments : List Value),
    P Value (Run.call n callee line arguments)
  | 0, _, _, _ => h.exhausted
  | n + 1, .function f, _, arguments =>
    h.bind (h.checkArity ..) fun _ => apply n f arguments
  | n + 1, .class c, line, arguments => by
    unfold Run.call
    refine h.bind (h.checkArity ..) fun _ => ?_
    refine h.bind (h.onStore fun s => s.grows_newInstance c) fun i => ?_
    cases c.method? "init" with
    | none => exact h.bind (h.pure _) fun _ => h.pure _
    | some init =>
      exact h.bind (h.bindMethod init i) fun f =>
        h.bind (apply n f arguments) fun _ => h.pure _
  | _ + 1, .native f, line, arguments =>
    h.bind (h.checkArity ..) fun _ => h.callNative f.body arguments line
  | _ + 1, .nil, _, _ | _ + 1, .bool _, _, _ | _ + 1, .number _, _, _ | _ + 1, .string _, _, _
  | _ + 1, .instance _, _, _ => h.stop ..

theorem apply : ∀ (n : Nat) (f : Closure) (arguments : List Value),
    P Value (Run.apply n f arguments)
  | 0, _, _ => h.exhausted
  | n + 1, f, arguments =>
    h.bind (h.activation f arguments) fun env =>
      h.bind (h.within env (executeAll n f.declaration.body)) fun _ => h.callResult f _

end

theorem executeProgram (n : Nat) (body : List Stmt) : P Unit (Run.executeProgram n body) := by
  induction body with
  | nil => exact h.pure ()
  | cons s rest ih => exact h.bind (h.execute n s) fun _ => ih

end ClosedRuns

end Run

end ScopeScript
