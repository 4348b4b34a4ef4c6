import ScopeScript.Proofs.Execution.ControlFlow
import ScopeScript.Proofs.Execution.Depth

set_option autoImplicit false

namespace ScopeScript

open Run

def Machine.inside (m : Machine) (env : Environment) : Machine := { m with environment := env }

theorem Machine.inside_eq_self {m : Machine} {env : Environment} (same : m.environment = env) :
    m.inside env = m :=
  Machine.eq_of_environment same

namespace Run

def backIn {α : Type} (env : Environment) : Outcome α → Outcome α
  | .ok a m => .ok a (m.inside env)
  | .error halt m => .error halt (m.inside env)

theorem within_eq {α : Type} (env : Environment) (act : Run α) (m : Machine) :
    within env act m = backIn m.environment (act (m.inside env)) := by
  unfold within Machine.inside
  cases act { m with environment := env } <;> rfl

def clause (missing : Value) (e : Option Expr) (n : Nat) : Run Value :=
  match e with
  | none => pure missing
  | some e => evaluate n e

theorem keeps_clause (missing : Value) (e : Option Expr) (n : Nat) :
    Keeps (clause missing e n) := by
  cases e with
  | none => exact .pure
  | some e => exact keeps_evaluate n e

theorem deepening_clause (missing : Value) (e : Option Expr) : Deepening (clause missing e) := by
  cases e with
  | none => exact fun _ => .refl _
  | some e => exact deepening_evaluate e

theorem ends_literal {l : Literal} {m : Machine} {r : Outcome Value} :
    Ends (evaluate · (.literal l)) m r ↔ r = .ok l.toValue m := by
  constructor
  · intro h
    obtain ⟨n, ran⟩ := h.reached
    cases n with
    | zero => exact absurd ran.symm (h.decided m)
    | succ n => exact ran.symm
  · rintro rfl
    exact .of_ok (n := 1) rfl

theorem ends_condition_iff {condition : Option Expr} {m : Machine} {r : Outcome Value} :
    Ends (clause (.bool true) condition) m r ↔
      Ends (evaluate · (condition.getD (.literal (.bool true)))) m r := by
  cases condition with
  | none =>
    rw [Option.getD_none, ends_literal]
    constructor
    · intro h
      obtain ⟨n, ran⟩ := h.reached
      exact ran.symm
    · rintro rfl
      exact .of_ok (n := 0) rfl
  | some e => rfl

-- One iteration.

variable {n : Nat} {condition : Expr} {body : Stmt} {step : Option Expr} {m m₁ m₂ : Machine}
  {value : Value}

theorem iterate_of_error {halt : Halt} (tested : evaluate n condition m = .error halt m₁) :
    iterate (n + 1) condition body step m = .error halt m₁ :=
  bind_of_error tested

theorem iterate_of_false (tested : evaluate n condition m = .ok value m₁)
    (fails : value.isTruthy = false) :
    iterate (n + 1) condition body step m = .ok .normal m₁ := by
  rw [iterate, bind_of_ok tested, if_neg (by simp [fails])]
  rfl

theorem iterate_of_failed {halt : Halt} (tested : evaluate n condition m = .ok value m₁)
    (holds : value.isTruthy = true) (ran : execute n body m₁ = .error halt m₂) :
    iterate (n + 1) condition body step m = .error halt m₂ := by
  rw [iterate, bind_of_ok tested, if_pos holds]
  exact bind_of_error ran

def onward (n : Nat) (condition : Expr) (body : Stmt) (step : Option Expr) :
    Completion → Run Completion
  | .returned value => return .returned value
  | .jumped .leave => return .normal
  | .normal | .jumped .next => do
    let _ ← clause .nil step n
    iterate n condition body step

theorem iterate_of_body (tested : evaluate n condition m = .ok value m₁)
    (holds : value.isTruthy = true) {completion : Completion}
    (ran : execute n body m₁ = .ok completion m₂) :
    iterate (n + 1) condition body step m = onward n condition body step completion m₂ := by
  rw [iterate, bind_of_ok tested, if_pos holds, bind_of_ok ran]
  cases completion with
  | returned value => rfl
  | normal => cases step <;> rfl
  | jumped kind =>
    cases kind with
    | leave => rfl
    | next => cases step <;> rfl

theorem deepening_onward (completion : Completion) :
    Deepening (onward · condition body step completion) := by
  have again : Deepening fun n => (do
      let _ ← clause .nil step n
      iterate n condition body step) :=
    fun n => (deepening_clause .nil step n).bind fun _ => deepens_iterate n condition body step
  cases completion with
  | returned value => exact fun _ => .refl _
  | normal => exact again
  | jumped kind =>
    cases kind with
    | leave => exact fun _ => .refl _
    | next => exact again

theorem ends_iterate_of_failed {halt : Halt} (tested : Ends (evaluate · condition) m (.ok value m₁))
    (holds : value.isTruthy = true) (done : Ends (execute · body) m₁ (.error halt m₂)) :
    Ends (iterate · condition body step) m (.error halt m₂) := by
  obtain ⟨n, tested⟩ := tested.eventually (deepening_evaluate condition)
  obtain ⟨n', ran⟩ := done.eventually (deepening_execute body)
  have first := tested _ (Nat.le_max_left n n')
  have second := ran _ (Nat.le_max_right n n')
  exact .of_error (n := max n n' + 1) (iterate_of_failed first holds second) done.ne_exhausted

theorem ends_iterate_of_body (tested : Ends (evaluate · condition) m (.ok value m₁))
    (holds : value.isTruthy = true) {completion : Completion} {r : Outcome Completion}
    (done : Ends (execute · body) m₁ (.ok completion m₂))
    (rest : Ends (onward · condition body step completion) m₂ r) :
    Ends (iterate · condition body step) m r := by
  obtain ⟨n₁, tested⟩ := tested.eventually (deepening_evaluate condition)
  obtain ⟨n₂, ran⟩ := done.eventually (deepening_execute body)
  obtain ⟨n₃, later⟩ := rest.eventually (deepening_onward completion)
  have first := tested (max n₁ (max n₂ n₃)) (by omega)
  have second := ran (max n₁ (max n₂ n₃)) (by omega)
  have third := later (max n₁ (max n₂ n₃)) (by omega)
  exact ⟨⟨_, (iterate_of_body first holds second).trans third⟩, rest.decided⟩

theorem onward_ne_jumped {n : Nat}
    (ih : ∀ m m' kind, iterate n condition body step m ≠ .ok (.jumped kind) m')
    (completion : Completion) (m m' : Machine) (kind : Jump) :
    onward n condition body step completion m ≠ .ok (.jumped kind) m' := by
  intro ran
  have again : (do let _ ← clause .nil step n; iterate n condition body step) m ≠
      .ok (.jumped kind) m' := by
    intro ran
    obtain ⟨_, m₁, -, later⟩ := bind_ok ran
    exact ih m₁ m' kind later
  cases completion with
  | returned value => cases ran
  | normal => exact again ran
  | jumped taken =>
    cases taken with
    | leave => cases ran
    | next => exact again ran

theorem iterate_ne_jumped (n : Nat) (m m' : Machine) (kind : Jump) :
    iterate n condition body step m ≠ .ok (.jumped kind) m' := by
  induction n generalizing m m' kind with
  | zero => exact nofun
  | succ n ih =>
    intro ran
    cases tested : evaluate n condition m with
    | error halt m₁ => cases (iterate_of_error tested).symm.trans ran
    | ok value m₁ =>
      cases holds : value.isTruthy with
      | false => cases (iterate_of_false tested holds).symm.trans ran
      | true =>
        cases done : execute n body m₁ with
        | error halt m₂ => cases (iterate_of_failed tested holds done).symm.trans ran
        | ok completion m₂ =>
          exact onward_ne_jumped ih completion m₂ m' kind
            ((iterate_of_body tested holds done).symm.trans ran)

end Run

-- The jumps of a loop.

theorem Encloses.trans {p q q' : Point} (first : Encloses p q) (second : Encloses q q') :
    Encloses p q' := by
  induction second with
  | refl => exact first
  | next _ begins statement statement' ih => exact ih.next begins statement statement'

def Point.Jumps (p : Point) (kind : Jump) (m : Machine) : Prop :=
  ∃ k jumping, Encloses p ⟨k + 1, .execute (.jump kind), jumping⟩ ∧
    m = jumping.inside p.machine.environment

theorem Begins.jumps {p q : Point} (begins : Begins p q) (statement : p.task.IsStatement)
    (statement' : q.task.IsStatement) {kind : Jump} {m : Machine} (h : q.Jumps kind m) :
    p.Jumps kind (m.inside p.machine.environment) := by
  obtain ⟨k, jumping, encloses, rfl⟩ := h
  exact ⟨k, jumping, (Encloses.refl.next begins statement statement').trans encloses, rfl⟩

theorem Begins.jumps_kept {p q : Point} (begins : Begins p q) (statement : p.task.IsStatement)
    (statement' : q.task.IsStatement) (kept : p.machine.Kept q.machine) {kind : Jump} {m : Machine}
    (h : q.Jumps kind m) : p.Jumps kind m := by
  have within := begins.jumps statement statement' h
  obtain ⟨k, jumping, encloses, rfl⟩ := h
  rw [kept.environment] at within ⊢
  exact within

theorem jumps_block {n : Nat} {body : List Stmt} {m m' : Machine} {kind : Jump}
    (ih : ∀ q, Begins ⟨n + 1, .execute (.block body), m⟩ q → ∀ kind m,
      q.Completes (.jumped kind) m → q.Jumps kind m)
    (ran : execute (n + 1) (.block body) m = .ok (.jumped kind) m') :
    Point.Jumps ⟨n + 1, .execute (.block body), m⟩ kind m' := by
  obtain ⟨env, m₁, opened, inside⟩ := bind_ok (p := newScope) ran
  rw [within_eq] at inside
  cases done : executeAll n body (m₁.inside env) with
  | error halt m₂ => cases (congrArg (backIn m₁.environment) done).symm.trans inside
  | ok completion m₂ =>
    cases (congrArg (backIn m₁.environment) done).symm.trans inside
    have within := (Begins.block opened).jumps trivial trivial (ih _ (.block opened) _ _ done)
    rw [(Keeps.newScope.of_ok opened).environment]
    exact within

theorem jumps_ifElse {n : Nat} {condition : Expr} {consequent : Stmt} {alternative : Option Stmt}
    {m m' : Machine} {kind : Jump}
    (ih : ∀ q, Begins ⟨n + 1, .execute (.ifElse condition consequent alternative), m⟩ q →
      ∀ kind m, q.Completes (.jumped kind) m → q.Jumps kind m)
    (ran : execute (n + 1) (.ifElse condition consequent alternative) m = .ok (.jumped kind) m') :
    Point.Jumps ⟨n + 1, .execute (.ifElse condition consequent alternative), m⟩ kind m' := by
  obtain ⟨value, m₁, tested, chosen⟩ := bind_ok (p := evaluate n condition) ran
  have kept := (keeps_evaluate n condition).of_ok tested
  cases holds : value.isTruthy with
  | true =>
    rw [if_pos holds] at chosen
    have begins : Begins ⟨n + 1, .execute (.ifElse condition consequent alternative), m⟩
        ⟨n, .execute consequent, m₁⟩ := .consequent tested holds
    exact begins.jumps_kept trivial trivial kept (ih _ begins _ _ chosen)
  | false =>
    rw [if_neg (by simp [holds])] at chosen
    cases alternative with
    | none => cases chosen
    | some other =>
      have begins : Begins ⟨n + 1, .execute (.ifElse condition consequent (some other)), m⟩
          ⟨n, .execute other, m₁⟩ := .alternative tested holds
      exact begins.jumps_kept trivial trivial kept (ih _ begins _ _ chosen)

theorem jumps_executeAll {n : Nat} {s : Stmt} {rest : List Stmt} {m m' : Machine} {kind : Jump}
    (ih : ∀ q, Begins ⟨n + 1, .executeAll (s :: rest), m⟩ q → ∀ kind m,
      q.Completes (.jumped kind) m → q.Jumps kind m)
    (ran : executeAll (n + 1) (s :: rest) m = .ok (.jumped kind) m') :
    Point.Jumps ⟨n + 1, .executeAll (s :: rest), m⟩ kind m' := by
  obtain ⟨completion, m₁, first, later⟩ := bind_ok (p := execute n s) ran
  cases completion with
  | normal =>
    have begins : Begins ⟨n + 1, .executeAll (s :: rest), m⟩ ⟨n, .executeAll rest, m₁⟩ :=
      .tail first
    have kept := (keeps_execute n s).of_ok first
    exact begins.jumps_kept trivial trivial kept (ih _ begins _ _ later)
  | returned value => cases later
  | jumped taken =>
    cases later
    exact Begins.head.jumps_kept trivial trivial (.refl m) (ih _ .head _ _ first)

theorem Point.Completes.jumps : ∀ (p : Point) (kind : Jump) (m : Machine),
    p.Completes (.jumped kind) m → p.Jumps kind m := by
  intro p
  induction p using Begins.induction with
  | point p ih =>
    obtain ⟨n, task, m⟩ := p
    intro kind m' h
    cases task with
    | execute s =>
      replace h : execute n s m = .ok (.jumped kind) m' := h
      cases n with
      | zero => cases h
      | succ n =>
        cases s with
        | block body => exact jumps_block ih h
        | ifElse condition consequent alternative => exact jumps_ifElse ih h
        | loop condition body step => exact absurd h (iterate_ne_jumped n m m' kind)
        | jump other =>
          cases h
          exact ⟨n, m, .refl, rfl⟩
        | expression e =>
          obtain ⟨_, _, -, ended⟩ := bind_ok h
          cases ended
        | print e =>
          obtain ⟨value, _, -, printed⟩ := bind_ok h
          obtain ⟨_, _, -, ended⟩ := bind_ok (p := printLine value) printed
          cases ended
        | varDecl name initial =>
          cases initial with
          | none => cases h
          | some e =>
            obtain ⟨_, _, -, ended⟩ := bind_ok h
            cases ended
        | funDecl f => cases h
        | classDecl name above methods =>
          obtain ⟨_, _, -, ended⟩ := bind_ok (p := declareClass name above methods) h
          cases ended
        | returning line e =>
          cases e with
          | none => cases h
          | some e =>
            obtain ⟨_, _, -, ended⟩ := bind_ok h
            cases ended
    | executeAll body =>
      cases n with
      | zero => cases h
      | succ n =>
        cases body with
        | nil => cases h
        | cons s rest => exact jumps_executeAll ih h
    | _ => exact h.elim

/--
The statement comes to a jump of this kind, through blocks, branches and statements in a row alone:
no loop and no function stands between the two.
-/
def Stmt.Interrupts (s : Stmt) (kind : Jump) (m m' : Machine) : Prop :=
  ∃ n, Point.Jumps ⟨n, .execute s, m⟩ kind m'

theorem Stmt.interrupts_iff {s : Stmt} {kind : Jump} {m m' : Machine} :
    s.Interrupts kind m m' ↔ Ends (execute · s) m (.ok (.jumped kind) m') := by
  constructor
  · rintro ⟨n, k, jumping, encloses, rfl⟩
    have jumped :
      Point.Completes ⟨k + 1, .execute (.jump kind), jumping⟩ (.jumped kind) jumping := rfl
    exact .of_ok (n := n) (encloses.completes_jumped jumped)
  · intro h
    obtain ⟨n, ran⟩ := h.reached
    exact ⟨n, Point.Completes.jumps ⟨n, .execute s, m⟩ kind m' ran⟩

end ScopeScript
