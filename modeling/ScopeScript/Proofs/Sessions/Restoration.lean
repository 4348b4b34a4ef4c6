import ScopeScript.Proofs.Sessions.Steps

set_option autoImplicit false

namespace ScopeScript

open Run

namespace Session

/--
The sessions that come about. Any statements may be run and any expression may be evaluated on its
own, as often as one likes and whatever the earlier ones ended with, and functions of the world
around may be added in between.
-/
inductive Reachable : Session → Prop
  | start (output : Sink) (input : Input) (clock : Clock) (library : Library) :
      Reachable (.start (.initial output input clock) library)
  | answer {s : Session} (step : Step) : Reachable s → Reachable (s.answer step).2
  | interpret {s : Session} (depth : Nat) (body : List Stmt) : Reachable s →
      Reachable { s with machine := ending (program depth body s.machine) }
  | evaluate {s : Session} (depth : Nat) (e : Expr) : Reachable s →
      Reachable (s.evaluate depth e).2
  | host {s : Session} (name : String) (arity : Nat) (f : HostFunction) : Reachable s →
      Reachable (s.defineHost name arity f)
  | moved {s : Session} (library : Library) (output : Sink) (input : Input) (clock : Clock) :
      Reachable s → Reachable { s with
        library := library
        machine := { s.machine with output := output, input := input, clock := clock } }

theorem environment_initial (output : Sink) (input : Input) (clock : Clock) :
    (Machine.initial output input clock).environment = .root := by
  have fold (natives : List (String × Nat × NativeBody)) : ∀ m : Machine,
      (natives.foldl
        (fun m native => m.defineNative native.1 native.2.1 native.2.2) m).environment =
        m.environment := by
    induction natives with
    | nil => exact fun _ => rfl
    | cons native rest ih => exact fun m => ih (m.defineNative _ _ _)
  exact fold Machine.natives _

theorem environment_compile (s : Session) (source : String) :
    (s.compile source).2.machine.environment = s.machine.environment := by
  rw [s.machine_compile source]

theorem environment_run {s : Session} (idle : s.machine.environment = .root) (depth : Nat)
    (source : String) : (s.run depth source).2.machine.environment = .root := by
  have before := (s.environment_compile source).trans idle
  rw [run_snd]
  cases step : s.compile source with
  | mk result s' =>
    rw [step] at before
    cases result with
    | error errors => exact before
    | ok body => simp only [ending_program]

theorem environment_evaluate (s : Session) (depth : Nat) (e : Expr) :
    (s.evaluate depth e).2.machine.environment = s.machine.environment := by
  have kept := (keeps_evaluate depth e s.machine).environment
  unfold Session.evaluate
  cases ran : Run.evaluate depth e s.machine <;>
    · rw [ran] at kept
      exact kept

theorem environment_evaluateAll (depth : Nat) (body : List Stmt) (s : Session) :
    (s.evaluateAll depth body).2.machine.environment = s.machine.environment := by
  induction body generalizing s with
  | nil => rfl
  | cons first rest ih =>
    cases first with
    | expression e => exact (ih _).trans (s.environment_evaluate depth e)
    | _ => exact ih s

theorem environment_answer {s : Session} (idle : s.machine.environment = .root) (step : Step) :
    (s.answer step).2.machine.environment = .root := by
  cases step with
  | parse source =>
    change (s.parse source).2.machine.environment = .root
    rw [(s.parse_snd source).1]
    exact idle
  | compile source => exact (s.environment_compile source).trans idle
  | run depth source => exact environment_run idle depth source
  | evaluate depth source =>
    have before := (s.environment_compile source).trans idle
    simp only [answer]
    cases step : s.compile source with
    | mk result s' =>
      rw [step] at before
      cases result with
      | error errors => exact before
      | ok body => exact (environment_evaluateAll depth body s').trans before
  | global name => exact idle

theorem Reachable.idle {s : Session} (reachable : s.Reachable) : s.machine.environment = .root := by
  induction reachable with
  | start output input clock library => exact environment_initial output input clock
  | answer step _ ih => exact environment_answer ih step
  | interpret depth body _ _ => simp only [ending_program]
  | @evaluate s depth e _ ih => exact (s.environment_evaluate depth e).trans ih
  | host name arity f _ ih => exact ih
  | moved library output input clock _ ih => exact ih

end Session

/--
The current environment is always restored: by a statement and by an expression, by statements in a
row, a loop, a call and the body of a function, whether they end with a value, normally, with
a return or a jump, or with a failure. Therefore each step of a session starts in the global
environment, whatever the steps before it ended with.
-/
theorem environment_restored :
    (∀ n s m, (ending (execute n s m)).environment = m.environment) ∧
    (∀ n body m, (ending (executeAll n body m)).environment = m.environment) ∧
    (∀ n condition body step m,
      (ending (iterate n condition body step m)).environment = m.environment) ∧
    (∀ n e m, (ending (evaluate n e m)).environment = m.environment) ∧
    (∀ n es m, (ending (evaluateAll n es m)).environment = m.environment) ∧
    (∀ n callee line arguments m,
      (ending (call n callee line arguments m)).environment = m.environment) ∧
    (∀ n f arguments m, (ending (apply n f arguments m)).environment = m.environment) ∧
    ∀ s : Session, s.Reachable → s.machine.environment = .root :=
  ⟨fun n s m => (keeps_execute n s m).environment,
    fun n body m => (keeps_executeAll n body m).environment,
    fun n condition body step m => (keeps_iterate n condition body step m).environment,
    fun n e m => (keeps_evaluate n e m).environment,
    fun n es m => (keeps_evaluateAll n es m).environment,
    fun n callee line arguments m => (keeps_call n callee line arguments m).environment,
    fun n f arguments m => (keeps_apply n f arguments m).environment,
    fun _ reachable => reachable.idle⟩

end ScopeScript
