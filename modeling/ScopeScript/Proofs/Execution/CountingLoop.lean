import ScopeScript.Proofs.Execution.Iterations
import ScopeScript.Syntax.Grammar

set_option autoImplicit false

namespace ScopeScript

open Run

inductive Opening where
  | declaration (name : Name) (value : Option Expr)
  | expression (value : Expr)

def Opening.statement : Opening → Stmt
  | .declaration name value => .varDecl name value
  | .expression value => .expression value

structure CountingLoop where
  initial : Option Opening
  condition : Option Expr
  step : Option Expr
  body : Stmt

namespace CountingLoop

def tree (l : CountingLoop) : Stmt :=
  Parser.forNode (l.initial.map Opening.statement) l.condition l.step l.body

def test (l : CountingLoop) : Expr := l.condition.getD (.literal (.bool true))

variable (l : CountingLoop)

def Tests (holds : Bool) (m m' : Machine) : Prop :=
  ∃ value, Ends (clause (.bool true) l.condition) m (.ok value m') ∧ value.isTruthy = holds

def Iterates (m m' : Machine) : Prop :=
  Ends (execute · l.body) m (.ok .normal m') ∨ l.body.Interrupts .next m m'

/-- How a loop in the scope `env` ends from a test on. -/
inductive Repeats (env : Environment) : Machine → Outcome Completion → Prop
  | untested {m m₁ : Machine} {halt : Halt} :
    Ends (clause (.bool true) l.condition) (m.inside env) (.error halt m₁) →
    Repeats env m (.error halt m₁)
  | finished {m m₁ : Machine} : l.Tests false (m.inside env) m₁ → Repeats env m (.ok .normal m₁)
  | failed {m m₁ m₂ : Machine} {halt : Halt} :
    l.Tests true (m.inside env) m₁ →
    Ends (execute · l.body) (m₁.inside env) (.error halt m₂) → Repeats env m (.error halt m₂)
  | returned {m m₁ m₂ : Machine} {value : Value} :
    l.Tests true (m.inside env) m₁ →
    Ends (execute · l.body) (m₁.inside env) (.ok (.returned value) m₂) →
    Repeats env m (.ok (.returned value) m₂)
  | left {m m₁ m₂ : Machine} :
    l.Tests true (m.inside env) m₁ → l.body.Interrupts .leave (m₁.inside env) m₂ →
    Repeats env m (.ok .normal m₂)
  | unstepped {m m₁ m₂ m₃ : Machine} {halt : Halt} :
    l.Tests true (m.inside env) m₁ → l.Iterates (m₁.inside env) m₂ →
    Ends (clause .nil l.step) (m₂.inside env) (.error halt m₃) → Repeats env m (.error halt m₃)
  | again {m m₁ m₂ m₃ : Machine} {value : Value} {r : Outcome Completion} :
    l.Tests true (m.inside env) m₁ → l.Iterates (m₁.inside env) m₂ →
    Ends (clause .nil l.step) (m₂.inside env) (.ok value m₃) → Repeats env m₃ r → Repeats env m r

/-- How a loop ends. What it does first it does once, in a new scope around all the rest of it. -/
inductive Runs : Machine → Outcome Completion → Prop
  | repeats {m : Machine} {r : Outcome Completion} :
    l.initial = none → l.Repeats m.environment m r → Runs m r
  | unbegun {m m₁ : Machine} {first : Opening} {env : Environment} {store : Store} {halt : Halt} :
    l.initial = some first → m.store.enclose m.environment = (env, store) →
    Ends (execute · first.statement) { m with store := store, environment := env }
      (.error halt m₁) →
    Runs m (backIn m.environment (.error halt m₁))
  | begun {m m₁ : Machine} {first : Opening} {env : Environment} {store : Store}
      {r : Outcome Completion} :
    l.initial = some first → m.store.enclose m.environment = (env, store) →
    Ends (execute · first.statement) { m with store := store, environment := env }
      (.ok .normal m₁) →
    l.Repeats env m₁ r → Runs m (backIn m.environment r)

variable {l}

theorem tests_iff {holds : Bool} {m m' : Machine} :
    l.Tests holds m m' ↔ ∃ value,
      Ends (evaluate · l.test) m (.ok value m') ∧
        value.isTruthy = holds := by
  unfold Tests test
  simp only [ends_condition_iff]

theorem iterates_of_ends {m m' : Machine} {completion : Completion}
    (done : Ends (execute · l.body) m (.ok completion m'))
    (more : completion = .normal ∨ completion = .jumped .next) : l.Iterates m m' := by
  rcases more with rfl | rfl
  · exact .inl done
  · exact .inr (Stmt.interrupts_iff.mpr done)

theorem repeats_of_onward {env : Environment} {n : Nat} {m m₁ m₂ : Machine}
    {completion : Completion} {r : Outcome Completion}
    (ih : ∀ {m r}, m.environment = env → (∀ m', r ≠ .error .exhausted m') →
      iterate n l.test l.body l.step m = r → l.Repeats env m r)
    (tests : l.Tests true (m.inside env) m₁)
    (ended : Ends (execute · l.body) (m₁.inside env) (.ok completion m₂))
    (decided : ∀ m', r ≠ .error .exhausted m')
    (ran : onward n l.test l.body l.step completion m₂ = r) :
    l.Repeats env m r := by
  have here : m₂.environment = env := (ended.kept fun n => keeps_execute n l.body).environment
  have again (more : completion = .normal ∨ completion = .jumped .next)
      (ran : (do
        let _ ← clause .nil l.step n
        iterate n l.test l.body l.step) m₂ = r) :
      l.Repeats env m r := by
    have iterated := iterates_of_ends ended more
    have at_step := Machine.inside_eq_self here
    cases stepped : clause .nil l.step n m₂ with
    | error halt m₃ =>
      cases (bind_of_error stepped).symm.trans ran
      have failed : halt ≠ .exhausted := fun same => decided m₃ (same ▸ rfl)
      exact .unstepped tests iterated (at_step.symm ▸ .of_error stepped failed)
    | ok value m₃ =>
      rw [bind_of_ok stepped] at ran
      have kept := (keeps_clause .nil l.step n).of_ok stepped
      have next := ih (kept.environment.trans here) decided ran
      have ended : Ends (clause .nil l.step) (m₂.inside env) (.ok value m₃) :=
        at_step.symm ▸ .of_ok stepped
      exact .again tests iterated ended next
  cases completion with
  | normal => exact again (.inl rfl) ran
  | returned value =>
    cases ran
    exact .returned tests ended
  | jumped kind =>
    cases kind with
    | leave =>
      cases ran
      exact .left tests (Stmt.interrupts_iff.mpr ended)
    | next => exact again (.inr rfl) ran

theorem repeats_of_iterate {env : Environment} {n : Nat} {m : Machine} {r : Outcome Completion}
    (here : m.environment = env) (decided : ∀ m', r ≠ .error .exhausted m')
    (ran : iterate n l.test l.body l.step m = r) :
    l.Repeats env m r := by
  induction n generalizing m r with
  | zero => exact absurd ran.symm (decided m)
  | succ n ih =>
    have at_test := Machine.inside_eq_self here
    cases tested : evaluate n l.test m with
    | error halt m₁ =>
      cases (iterate_of_error tested).symm.trans ran
      have failed : halt ≠ .exhausted := fun same => decided m₁ (same ▸ rfl)
      exact .untested (at_test.symm ▸ ends_condition_iff.mpr (.of_error tested failed))
    | ok value m₁ =>
      have at_body :=
        Machine.inside_eq_self (((keeps_evaluate n _).of_ok tested).environment.trans here)
      have tests : l.Tests value.isTruthy (m.inside env) m₁ :=
        at_test.symm ▸ tests_iff.mpr ⟨value, .of_ok tested, rfl⟩
      cases holds : value.isTruthy with
      | false =>
        cases (iterate_of_false tested holds).symm.trans ran
        exact .finished (holds ▸ tests)
      | true =>
        rw [holds] at tests
        cases done : execute n l.body m₁ with
        | error halt m₂ =>
          cases (iterate_of_failed tested holds done).symm.trans ran
          have failed : halt ≠ .exhausted := fun same => decided m₂ (same ▸ rfl)
          exact .failed tests (at_body.symm ▸ .of_error done failed)
        | ok completion m₂ =>
          rw [iterate_of_body tested holds done] at ran
          have ended : Ends (execute · l.body) (m₁.inside env) (.ok completion m₂) :=
            at_body.symm ▸ .of_ok done
          exact repeats_of_onward ih tests ended decided ran

theorem Tests.kept {holds : Bool} {m m' : Machine} (h : l.Tests holds m m') : m.Kept m' := by
  obtain ⟨value, tested, -⟩ := h
  exact tested.kept (keeps_clause _ _)

theorem Iterates.kept {m m' : Machine} (h : l.Iterates m m') : m.Kept m' := by
  rcases h with done | jumps
  · exact done.kept fun n => keeps_execute n l.body
  · exact (Stmt.interrupts_iff.mp jumps).kept fun n => keeps_execute n l.body

theorem ends_iterate_of_iterates {m m₁ m₂ : Machine} {r : Outcome Completion}
    (tests : l.Tests true m m₁) (iterates : l.Iterates m₁ m₂)
    (rest : Ends (fun n => (do
      let _ ← clause .nil l.step n
      iterate n l.test l.body l.step)) m₂ r) :
    Ends (iterate · l.test l.body l.step) m r := by
  obtain ⟨value, tested, holds⟩ := tests_iff.mp tests
  rcases iterates with done | jumps
  · exact ends_iterate_of_body tested holds done rest
  · exact ends_iterate_of_body tested holds (Stmt.interrupts_iff.mp jumps) rest

theorem Repeats.ends {env : Environment} {m : Machine} {r : Outcome Completion}
    (h : l.Repeats env m r) (here : m.environment = env) :
    Ends (iterate · l.test l.body l.step) m r := by
  induction h with
  | untested fails =>
    rw [Machine.inside_eq_self here] at fails
    obtain ⟨n, ran⟩ := (ends_condition_iff.mp fails).reached
    exact .of_error (n := n + 1) (iterate_of_error ran) fails.ne_exhausted
  | finished tests =>
    rw [Machine.inside_eq_self here] at tests
    obtain ⟨value, tested, holds⟩ := tests_iff.mp tests
    obtain ⟨n, ran⟩ := tested.reached
    exact .of_ok (n := n + 1) (iterate_of_false ran holds)
  | failed tests fails =>
    rw [Machine.inside_eq_self here] at tests
    rw [Machine.inside_eq_self (tests.kept.environment.trans here)] at fails
    obtain ⟨value, tested, holds⟩ := tests_iff.mp tests
    exact ends_iterate_of_failed tested holds fails
  | returned tests ended =>
    rw [Machine.inside_eq_self here] at tests
    rw [Machine.inside_eq_self (tests.kept.environment.trans here)] at ended
    obtain ⟨value, tested, holds⟩ := tests_iff.mp tests
    exact ends_iterate_of_body tested holds ended (.of_ok (n := 0) rfl)
  | left tests jumps =>
    rw [Machine.inside_eq_self here] at tests
    rw [Machine.inside_eq_self (tests.kept.environment.trans here)] at jumps
    obtain ⟨value, tested, holds⟩ := tests_iff.mp tests
    exact ends_iterate_of_body tested holds (Stmt.interrupts_iff.mp jumps) (.of_ok (n := 0) rfl)
  | unstepped tests iterates fails =>
    rw [Machine.inside_eq_self here] at tests
    have here₁ := tests.kept.environment.trans here
    rw [Machine.inside_eq_self here₁] at iterates
    rw [Machine.inside_eq_self (iterates.kept.environment.trans here₁)] at fails
    exact ends_iterate_of_iterates tests iterates fails.bind_error
  | again tests iterates stepped _ ih =>
    rw [Machine.inside_eq_self here] at tests
    have here₁ := tests.kept.environment.trans here
    rw [Machine.inside_eq_self here₁] at iterates
    have here₂ := iterates.kept.environment.trans here₁
    rw [Machine.inside_eq_self here₂] at stepped
    have here₃ := (stepped.kept (keeps_clause _ _)).environment.trans here₂
    exact ends_iterate_of_iterates tests iterates
      (stepped.bind (deepening_clause _ _) (fun _ => deepening_iterate _ _ _) (ih here₃))

theorem ends_iterate_iff {env : Environment} {m : Machine} {r : Outcome Completion}
    (here : m.environment = env) :
    Ends (iterate · l.test l.body l.step) m r ↔
      l.Repeats env m r := by
  constructor
  · intro h
    obtain ⟨n, ran⟩ := h.reached
    exact repeats_of_iterate here h.decided ran
  · exact fun h => h.ends here

end CountingLoop

theorem Opening.completes {first : Opening} {m m' : Machine} {completion : Completion}
    (h : Ends (execute · first.statement) m (.ok completion m')) : completion = .normal := by
  obtain ⟨n, ran⟩ := h.reached
  cases n with
  | zero => cases ran
  | succ n =>
    cases first with
    | expression e =>
      obtain ⟨_, _, -, ended⟩ := bind_ok (p := evaluate n e) ran
      cases ended
      rfl
    | declaration name value =>
      cases value with
      | none =>
        cases ran
        rfl
      | some e =>
        obtain ⟨_, _, -, ended⟩ := bind_ok (p := evaluate n e) ran
        cases ended
        rfl

namespace Run

variable {m : Machine} {r : Outcome Completion}

theorem amounts_loop (condition : Expr) (body : Stmt) (step : Option Expr) :
    Amounts (execute · (.loop condition body step)) (iterate · condition body step) :=
  .succ (deepening_execute (.loop condition body step))

theorem ends_block_iff {body : List Stmt} {env : Environment} {store : Store}
    (opened : m.store.enclose m.environment = (env, store)) :
    Ends (execute · (.block body)) m r ↔
      ∃ r', Ends (executeAll · body) { m with store := store, environment := env } r' ∧
        r = backIn m.environment r' := by
  have scope : newScope m = .ok env { m with store := store } := by
    simp only [newScope, opened]
  have unfolds (n : Nat) : execute (n + 1) (.block body) m =
      backIn m.environment (executeAll n body { m with store := store, environment := env }) :=
    (bind_of_ok scope).trans (within_eq env (executeAll n body) _)
  constructor
  · intro h
    obtain ⟨n, ran⟩ := (h.succ (deepening_execute _)).reached
    rw [unfolds n] at ran
    refine ⟨_, ⟨⟨n, rfl⟩, fun m' out => ?_⟩, ran.symm⟩
    rw [out] at ran
    exact h.decided _ ran.symm
  · rintro ⟨r', h, rfl⟩
    obtain ⟨n, ran⟩ := h.reached
    refine ⟨⟨n + 1, (unfolds n).trans (congrArg _ ran)⟩, fun m' out => ?_⟩
    cases r' with
    | ok => cases out
    | error halt m₁ =>
      cases out
      exact h.ne_exhausted rfl

theorem executeAll_single (n : Nat) (s : Stmt) : executeAll (n + 2) [s] = execute (n + 1) s := by
  funext m
  cases ran : execute (n + 1) s m with
  | error halt m₁ => exact bind_of_error ran
  | ok completion m₁ =>
    refine (bind_of_ok ran).trans ?_
    cases completion <;> rfl

theorem amounts_single (s : Stmt) : Amounts (executeAll · [s]) (execute · s) := by
  have all : Deepening (executeAll · [s]) := deepening_executeAll [s]
  have twice := (Amounts.succ all).trans (.succ fun n => all (n + 1))
  simp only [executeAll_single] at twice
  exact twice.trans (Amounts.succ (deepening_execute s)).symm

end Run

namespace CountingLoop

variable {l : CountingLoop}

def following (rest : List Stmt) (n : Nat) : Completion → Run Completion
  | .normal => executeAll n rest
  | completion => return completion

theorem amounts_cons (s : Stmt) (rest : List Stmt) :
    Amounts (executeAll · (s :: rest)) fun n => execute n s >>= following rest n := by
  have unfolds (n : Nat) : executeAll (n + 1) (s :: rest) = execute n s >>= following rest n := by
    rw [executeAll]
    rfl
  simpa only [unfolds] using Amounts.succ (deepening_executeAll (s :: rest))

theorem deepening_following (rest : List Stmt) (completion : Completion) :
    Deepening (following rest · completion) := by
  cases completion with
  | normal => exact deepening_executeAll rest
  | returned value | jumped kind => exact fun _ => .refl _

theorem ends_started_iff {first : Opening} {loop : Stmt} {m : Machine} {r : Outcome Completion} :
    Ends (executeAll · [first.statement, loop]) m r ↔
      (∃ halt m₁, Ends (execute · first.statement) m (.error halt m₁) ∧ r = .error halt m₁) ∨
        ∃ m₁, Ends (execute · first.statement) m (.ok .normal m₁) ∧ Ends (execute · loop) m₁ r := by
  rw [(amounts_cons first.statement [loop]).ends m r]
  constructor
  · intro h
    rcases h.of_bind with ⟨completion, m₁, started, rest⟩ | failed
    · obtain rfl := Opening.completes started
      exact .inr ⟨m₁, started, ((amounts_single loop).ends m₁ r).mp rest⟩
    · exact .inl failed
  · rintro (⟨halt, m₁, failed, rfl⟩ | ⟨m₁, started, rest⟩)
    · exact failed.bind_error
    · exact started.bind (deepening_execute _) (deepening_following [loop])
        (((amounts_single loop).ends m₁ r).mpr rest)

theorem ends_loop_tree_iff {env : Environment} {m : Machine} {r : Outcome Completion}
    (here : m.environment = env) :
    Ends (execute · (.loop l.test l.body l.step)) m r ↔
      l.Repeats env m r :=
  ((amounts_loop l.test l.body l.step).ends m r).trans (ends_iterate_iff here)

theorem ends_tree_iff {m : Machine} {r : Outcome Completion} :
    Ends (execute · l.tree) m r ↔ l.Runs m r := by
  cases start : l.initial with
  | none =>
    have shape : l.tree = .loop l.test l.body l.step := by
      rw [tree, start]
      rfl
    rw [shape, ends_loop_tree_iff rfl]
    constructor
    · exact .repeats start
    · intro h
      cases h with
      | repeats _ repeats => exact repeats
      | unbegun other | begun other => cases start.symm.trans other
  | some first =>
    have shape : l.tree = .block [first.statement,
        .loop l.test l.body l.step] := by
      rw [tree, start]
      rfl
    cases opened : m.store.enclose m.environment with
    | mk env store =>
      rw [shape, ends_block_iff opened]
      simp only [ends_started_iff]
      constructor
      · rintro ⟨_, ⟨halt, m₁, failed, rfl⟩ | ⟨m₁, started, rest⟩, rfl⟩
        · exact .unbegun start opened failed
        · have here := (started.kept fun n => keeps_execute n _).environment
          exact .begun start opened started ((ends_loop_tree_iff here).mp rest)
      · intro h
        cases h with
        | repeats other => cases start.symm.trans other
        | unbegun other opened' failed =>
          cases start.symm.trans other
          cases opened.symm.trans opened'
          exact ⟨_, .inl ⟨_, _, failed, rfl⟩, rfl⟩
        | begun other opened' started rest =>
          cases start.symm.trans other
          cases opened.symm.trans opened'
          have here := (started.kept fun n => keeps_execute n _).environment
          exact ⟨_, .inr ⟨_, started, (ends_loop_tree_iff here).mpr rest⟩, rfl⟩

end CountingLoop

end ScopeScript
