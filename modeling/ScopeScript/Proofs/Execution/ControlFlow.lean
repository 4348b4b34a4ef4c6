import ScopeScript.Proofs.Execution.Footprint
import ScopeScript.Proofs.Execution.Point

set_option autoImplicit false

namespace ScopeScript

open Run

namespace Point

def Completes (p : Point) (completion : Completion) (m : Machine) : Prop :=
  match p.task with
  | .execute s => execute p.depth s p.machine = .ok completion m
  | .executeAll body => executeAll p.depth body p.machine = .ok completion m
  | _ => False

end Point

open Point

theorem Machine.eq_of_environment {m : Machine} {env : Environment} (same : m.environment = env) :
    { m with environment := env } = m := by
  subst same
  rfl

theorem Run.executeAll_of_jumped {n : Nat} {s : Stmt} {rest : List Stmt} {m m' : Machine}
    {kind : Jump} (ran : execute n s m = .ok (.jumped kind) m') :
    executeAll (n + 1) (s :: rest) m = .ok (.jumped kind) m' := by
  rw [executeAll, bind_of_ok ran]
  rfl

theorem Run.executeAll_of_normal {n : Nat} {s : Stmt} {rest : List Stmt} {m m' : Machine}
    (ran : execute n s m = .ok .normal m') :
    executeAll (n + 1) (s :: rest) m = executeAll n rest m' := by
  rw [executeAll, bind_of_ok ran]

theorem Run.execute_consequent {n : Nat} {e : Expr} {s : Stmt} {alternative : Option Stmt}
    {m m' : Machine} {value : Value} (ran : evaluate n e m = .ok value m')
    (holds : value.isTruthy = true) :
    execute (n + 1) (.ifElse e s alternative) m = execute n s m' := by
  rw [execute.eq_def]
  simp only
  rw [bind_of_ok ran, if_pos holds]

theorem Run.execute_alternative {n : Nat} {e : Expr} {s alternative : Stmt} {m m' : Machine}
    {value : Value} (ran : evaluate n e m = .ok value m') (fails : value.isTruthy = false) :
    execute (n + 1) (.ifElse e s (some alternative)) m = execute n alternative m' := by
  rw [execute.eq_def]
  simp only
  rw [bind_of_ok ran, if_neg (by simp [fails])]

theorem Run.within_of_ok {α : Type} {act : Run α} {env : Environment} {m m' : Machine} {a : α}
    (ran : act { m with environment := env } = .ok a m') :
    within env act m = .ok a { m' with environment := m.environment } := by
  rw [within, ran]

theorem Begins.completes_jumped {p q : Point} (begins : Begins p q) (statement : p.task.IsStatement)
    (statement' : q.task.IsStatement) {kind : Jump} {m : Machine}
    (h : q.Completes (.jumped kind) m) :
    p.Completes (.jumped kind) { m with environment := p.machine.environment } := by
  cases begins with
  | block ran =>
    cases ran
    exact within_of_ok h
  | consequent ran holds =>
    have kept := ((keeps_evaluate _ _).of_ok ran).trans ((keeps_execute _ _).of_ok h)
    rw [Machine.eq_of_environment kept.environment]
    exact (execute_consequent ran holds).trans h
  | alternative ran fails =>
    have kept := ((keeps_evaluate _ _).of_ok ran).trans ((keeps_execute _ _).of_ok h)
    rw [Machine.eq_of_environment kept.environment]
    exact (execute_alternative ran fails).trans h
  | head =>
    rw [Machine.eq_of_environment ((keeps_execute _ _).of_ok h).environment]
    exact executeAll_of_jumped h
  | tail ran =>
    have kept := ((keeps_execute _ _).of_ok ran).trans ((keeps_executeAll _ _).of_ok h)
    rw [Machine.eq_of_environment kept.environment]
    exact (executeAll_of_normal ran).trans h
  | _ => first | exact False.elim statement | exact False.elim statement'

theorem Point.Completes.environment {p : Point} {completion : Completion} {m : Machine}
    (h : p.Completes completion m) : m.environment = p.machine.environment := by
  obtain ⟨n, task, m'⟩ := p
  cases task with
  | execute s => exact ((keeps_execute n s).of_ok h).environment
  | executeAll body => exact ((keeps_executeAll n body).of_ok h).environment
  | _ => exact False.elim h

theorem Encloses.completes_jumped {p q : Point} (encloses : Encloses p q) {kind : Jump}
    {m : Machine} (h : q.Completes (.jumped kind) m) :
    p.Completes (.jumped kind) { m with environment := p.machine.environment } := by
  induction encloses generalizing m with
  | refl => exact (Machine.eq_of_environment h.environment).symm ▸ h
  | next _ begins statement statement' ih =>
    have handed := ih (begins.completes_jumped statement statement' h)
    exact handed

def Run.afterJump (n : Nat) (condition : Expr) (body : Stmt) (step : Option Expr) :
    Jump → Run Completion
  | .leave => return .normal
  | .next => do
    match step with
    | none => pure ()
    | some e => let _ ← evaluate n e
    iterate n condition body step

theorem Run.iterate_of_jumped {n : Nat} {condition : Expr} {body : Stmt} {step : Option Expr}
    {m m₁ m₂ : Machine} {value : Value} {kind : Jump}
    (tested : evaluate n condition m = .ok value m₁) (holds : value.isTruthy = true)
    (ran : execute n body m₁ = .ok (.jumped kind) m₂) :
    iterate (n + 1) condition body step m = afterJump n condition body step kind m₂ := by
  unfold iterate
  rw [bind_of_ok tested, if_pos holds, bind_of_ok ran]
  cases kind <;> rfl

end ScopeScript
