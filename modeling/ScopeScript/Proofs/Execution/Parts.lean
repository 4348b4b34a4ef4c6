import ScopeScript.Proofs.Execution.Groundedness

set_option autoImplicit false

namespace ScopeScript

open Run

namespace Run

def thereafter {α : Type} (result : EStateM.Result Halt Machine α)
    (next : α → Machine → List Point) : List Point :=
  match result with
  | .ok a m => next a m
  | .error _ _ => []

variable {α : Type} {next : α → Machine → List Point} {m : Machine}

@[simp]
theorem thereafter_ok (a : α) : thereafter (.ok a m) next = next a m := rfl

@[simp]
theorem thereafter_error (halt : Halt) : thereafter (.error halt m) next = [] := rfl

theorem mem_thereafter {result : EStateM.Result Halt Machine α} {p : Point} :
    p ∈ thereafter result next ↔ ∃ a m, result = .ok a m ∧ p ∈ next a m := by
  cases result <;> simp

def repetition (n : Nat) (condition : Expr) (body : Stmt) (step : Option Expr)
    (completion : Completion) (m : Machine) : List Point :=
  match completion with
  | .normal | .jumped .next =>
    match step with
    | none => [⟨n, .iterate condition body none, m⟩]
    | some e =>
      ⟨n, .evaluate e, m⟩ :: thereafter (evaluate n e m) fun _ m' =>
        [⟨n, .iterate condition body (some e), m'⟩]
  | .jumped .leave | .returned _ => []

end Run

namespace Point

def parts : Point → List Point
  | ⟨_, .program [], _⟩ => []
  | ⟨n, .program (s :: rest), m⟩ =>
    ⟨n, .execute s, m⟩ :: thereafter (execute n s m) fun _ m' => [⟨n, .program rest, m'⟩]
  | ⟨0, _, _⟩ => []
  | ⟨n + 1, .execute (.expression e), m⟩ | ⟨n + 1, .execute (.print e), m⟩
  | ⟨n + 1, .execute (.varDecl _ (some e)), m⟩ | ⟨n + 1, .execute (.returning _ (some e)), m⟩ =>
    [⟨n, .evaluate e, m⟩]
  | ⟨n + 1, .execute (.block body), m⟩ =>
    thereafter (newScope m) fun env m' => [⟨n, .executeAll body, { m' with environment := env }⟩]
  | ⟨n + 1, .execute (.ifElse e s alternative), m⟩ =>
    ⟨n, .evaluate e, m⟩ :: thereafter (evaluate n e m) fun value m' =>
      if value.isTruthy then [⟨n, .execute s, m'⟩]
      else alternative.toList.map fun other => ⟨n, .execute other, m'⟩
  | ⟨n + 1, .execute (.loop e s step), m⟩ => [⟨n, .iterate e s step, m⟩]
  | ⟨_ + 1, .execute (.varDecl _ none), _⟩ | ⟨_ + 1, .execute (.funDecl _), _⟩
  | ⟨_ + 1, .execute (.classDecl ..), _⟩ | ⟨_ + 1, .execute (.returning _ none), _⟩
  | ⟨_ + 1, .execute (.jump _), _⟩ => []
  | ⟨_ + 1, .executeAll [], _⟩ => []
  | ⟨n + 1, .executeAll (s :: rest), m⟩ =>
    ⟨n, .execute s, m⟩ :: thereafter (execute n s m) fun completion m' =>
      match completion with
      | .normal => [⟨n, .executeAll rest, m'⟩]
      | _ => []
  | ⟨n + 1, .iterate e s step, m⟩ =>
    ⟨n, .evaluate e, m⟩ :: thereafter (evaluate n e m) fun value m₁ =>
      if value.isTruthy then
        ⟨n, .execute s, m₁⟩ :: thereafter (execute n s m₁) (repetition n e s step)
      else []
  | ⟨n + 1, .evaluate (.grouping e), m⟩ | ⟨n + 1, .evaluate (.unary _ _ e), m⟩
  | ⟨n + 1, .evaluate (.assign _ e), m⟩ | ⟨n + 1, .evaluate (.get e _), m⟩ => [⟨n, .evaluate e, m⟩]
  | ⟨n + 1, .evaluate (.binary _ _ e right), m⟩ =>
    ⟨n, .evaluate e, m⟩ :: thereafter (evaluate n e m) fun _ m' => [⟨n, .evaluate right, m'⟩]
  | ⟨n + 1, .evaluate (.logical op e right), m⟩ =>
    ⟨n, .evaluate e, m⟩ :: thereafter (evaluate n e m) fun value m' =>
      if value.isTruthy = (op == .and) then [⟨n, .evaluate right, m'⟩] else []
  | ⟨n + 1, .evaluate (.call e line es), m⟩ =>
    ⟨n, .evaluate e, m⟩ :: thereafter (evaluate n e m) fun value m₁ =>
      ⟨n, .evaluateAll es, m₁⟩ :: thereafter (evaluateAll n es m₁) fun arguments m' =>
        [⟨n, .call value line arguments, m'⟩]
  | ⟨n + 1, .evaluate (.set e _ content), m⟩ =>
    ⟨n, .evaluate e, m⟩ :: thereafter (evaluate n e m) fun value m' =>
      match value with
      | .instance _ => [⟨n, .evaluate content, m'⟩]
      | _ => []
  | ⟨_ + 1, .evaluate (.literal _), _⟩ | ⟨_ + 1, .evaluate (.var _), _⟩
  | ⟨_ + 1, .evaluate (.self _), _⟩ | ⟨_ + 1, .evaluate (.super ..), _⟩ => []
  | ⟨_ + 1, .evaluateAll [], _⟩ => []
  | ⟨n + 1, .evaluateAll (e :: es), m⟩ =>
    ⟨n, .evaluate e, m⟩ :: thereafter (evaluate n e m) fun _ m' => [⟨n, .evaluateAll es, m'⟩]
  | ⟨n + 1, .call (.function f) _ arguments, m⟩ =>
    if f.arity = arguments.length then [⟨n, .apply f arguments, m⟩] else []
  | ⟨n + 1, .call (.class c) _ arguments, m⟩ =>
    if c.arity = arguments.length then
      (c.method? "init").toList.flatMap fun init =>
        thereafter (onStore (fun s => s.newInstance c) m) fun i m₁ =>
          thereafter (bind init i m₁) fun f m' => [⟨n, .apply f arguments, m'⟩]
    else []
  | ⟨_ + 1, .call .., _⟩ => []
  | ⟨n + 1, .apply f arguments, m⟩ =>
    thereafter (activation f arguments m) fun env m' =>
      [⟨n, .executeAll f.declaration.body, { m' with environment := env }⟩]

theorem mem_parts_of_begins {p q : Point} (begins : Begins p q) : q ∈ p.parts := by
  cases begins with
  | step tested holds ran repeats | again tested holds ran repeats =>
    rcases repeats with rfl | rfl <;> simp [parts, repetition, *]
  | againStepped tested holds ran repeats stepped =>
    rcases repeats with rfl | rfl <;> simp [parts, repetition, *]
  | _ => simp [parts, *]

theorem begins_of_mem_repetition {n : Nat} {e : Expr} {s : Stmt} {step : Option Expr}
    {m m₁ m₂ : Machine} {value : Value} {completion : Completion} {q : Point}
    (tested : evaluate n e m = .ok value m₁) (holds : value.isTruthy = true)
    (ran : execute n s m₁ = .ok completion m₂) (mem : q ∈ repetition n e s step completion m₂) :
    Begins ⟨n + 1, .iterate e s step, m⟩ q := by
  unfold repetition at mem
  split at mem
  case h_3 | h_4 => cases mem
  all_goals
    cases step with
    | none =>
      obtain rfl := List.mem_singleton.mp mem
      exact .again tested holds ran (by simp)
    | some e' =>
      rcases List.mem_cons.mp mem with rfl | mem
      · exact .step tested holds ran (by simp)
      · obtain ⟨_, _, stepped, mem⟩ := mem_thereafter.mp mem
        obtain rfl := List.mem_singleton.mp mem
        exact .againStepped tested holds ran (by simp) stepped

section

variable {n line : Nat} {m : Machine} {q : Point}

theorem begins_of_mem_execute {s : Stmt} (mem : q ∈ parts ⟨n + 1, .execute s, m⟩) :
    Begins ⟨n + 1, .execute s, m⟩ q := by
  cases s with
  | expression e =>
    obtain rfl := List.mem_singleton.mp mem
    exact .expression
  | print e =>
    obtain rfl := List.mem_singleton.mp mem
    exact .print
  | varDecl name initial =>
    cases initial with
    | none => cases mem
    | some e =>
      obtain rfl := List.mem_singleton.mp mem
      exact .initial
  | block body =>
    simp only [parts] at mem
    obtain ⟨env, m', ran, mem⟩ := mem_thereafter.mp mem
    obtain rfl := List.mem_singleton.mp mem
    exact .block ran
  | ifElse e s alternative =>
    rcases List.mem_cons.mp mem with rfl | mem
    · exact .choice
    obtain ⟨value, m', ran, mem⟩ := mem_thereafter.mp mem
    split at mem
    next holds =>
      obtain rfl := List.mem_singleton.mp mem
      exact .consequent ran holds
    next fails =>
      have fails : value.isTruthy = false := by simpa using fails
      cases alternative with
      | none => cases mem
      | some other =>
        obtain rfl := List.mem_singleton.mp mem
        exact .alternative ran fails
  | loop e s step =>
    obtain rfl := List.mem_singleton.mp mem
    exact .loop
  | returning line value =>
    cases value with
    | none => cases mem
    | some e =>
      obtain rfl := List.mem_singleton.mp mem
      exact .returned
  | funDecl _ | classDecl _ _ _ | jump _ => cases mem

theorem begins_of_mem_evaluate {e : Expr} (mem : q ∈ parts ⟨n + 1, .evaluate e, m⟩) :
    Begins ⟨n + 1, .evaluate e, m⟩ q := by
  cases e with
  | grouping e =>
    obtain rfl := List.mem_singleton.mp mem
    exact .grouping
  | unary op line e =>
    obtain rfl := List.mem_singleton.mp mem
    exact .operand
  | assign r e =>
    obtain rfl := List.mem_singleton.mp mem
    exact .assigned
  | get e name =>
    obtain rfl := List.mem_singleton.mp mem
    exact .owner
  | binary op line e right =>
    rcases List.mem_cons.mp mem with rfl | mem
    · exact .left
    obtain ⟨value, m', ran, mem⟩ := mem_thereafter.mp mem
    obtain rfl := List.mem_singleton.mp mem
    exact .right ran
  | logical op e right =>
    rcases List.mem_cons.mp mem with rfl | mem
    · exact .decision
    obtain ⟨value, m', ran, mem⟩ := mem_thereafter.mp mem
    split at mem
    next undecided =>
      obtain rfl := List.mem_singleton.mp mem
      exact .undecided ran undecided
    · cases mem
  | call e line es =>
    rcases List.mem_cons.mp mem with rfl | mem
    · exact .callee
    obtain ⟨value, m₁, ran, mem⟩ := mem_thereafter.mp mem
    rcases List.mem_cons.mp mem with rfl | mem
    · exact .arguments ran
    obtain ⟨arguments, m', ran₁, mem⟩ := mem_thereafter.mp mem
    obtain rfl := List.mem_singleton.mp mem
    exact .called ran ran₁
  | set e name content =>
    rcases List.mem_cons.mp mem with rfl | mem
    · exact .target
    obtain ⟨value, m', ran, mem⟩ := mem_thereafter.mp mem
    split at mem
    next i =>
      obtain rfl := List.mem_singleton.mp mem
      exact .content ran
    · cases mem
  | literal _ | var _ | self _ | super _ _ => cases mem

theorem begins_of_mem_iterate {e : Expr} {s : Stmt} {step : Option Expr}
    (mem : q ∈ parts ⟨n + 1, .iterate e s step, m⟩) : Begins ⟨n + 1, .iterate e s step, m⟩ q := by
  rcases List.mem_cons.mp mem with rfl | mem
  · exact .test
  obtain ⟨value, m₁, tested, mem⟩ := mem_thereafter.mp mem
  split at mem
  next holds =>
    rcases List.mem_cons.mp mem with rfl | mem
    · exact .body tested holds
    obtain ⟨completion, m₂, ran, mem⟩ := mem_thereafter.mp mem
    exact begins_of_mem_repetition tested holds ran mem
  · cases mem

theorem begins_of_mem_call {callee : Value} {arguments : List Value}
    (mem : q ∈ parts ⟨n + 1, .call callee line arguments, m⟩) :
    Begins ⟨n + 1, .call callee line arguments, m⟩ q := by
  cases callee with
  | function f =>
    simp only [parts] at mem
    split at mem
    next same =>
      obtain rfl := List.mem_singleton.mp mem
      exact .function same
    · cases mem
  | «class» c =>
    simp only [parts] at mem
    split at mem
    next same =>
      obtain ⟨init, found, mem⟩ := List.mem_flatMap.mp mem
      obtain ⟨i, m₁, made, mem⟩ := mem_thereafter.mp mem
      obtain ⟨f, m', bound, mem⟩ := mem_thereafter.mp mem
      obtain rfl := List.mem_singleton.mp mem
      exact .initializer same (Option.mem_toList.mp found) made bound
    · cases mem
  | nil | bool _ | number _ | string _ | native _ | «instance» _ => cases mem

theorem begins_of_mem_executeAll {body : List Stmt}
    (mem : q ∈ parts ⟨n + 1, .executeAll body, m⟩) : Begins ⟨n + 1, .executeAll body, m⟩ q := by
  cases body with
  | nil => cases mem
  | cons s rest =>
    rcases List.mem_cons.mp mem with rfl | mem
    · exact .head
    obtain ⟨completion, m', ran, mem⟩ := mem_thereafter.mp mem
    split at mem
    · obtain rfl := List.mem_singleton.mp mem
      exact .tail ran
    · cases mem

theorem begins_of_mem_evaluateAll {es : List Expr}
    (mem : q ∈ parts ⟨n + 1, .evaluateAll es, m⟩) : Begins ⟨n + 1, .evaluateAll es, m⟩ q := by
  cases es with
  | nil => cases mem
  | cons e rest =>
    rcases List.mem_cons.mp mem with rfl | mem
    · exact .first
    obtain ⟨value, m', ran, mem⟩ := mem_thereafter.mp mem
    obtain rfl := List.mem_singleton.mp mem
    exact .others ran

theorem begins_of_mem_apply {f : Closure} {arguments : List Value}
    (mem : q ∈ parts ⟨n + 1, .apply f arguments, m⟩) :
    Begins ⟨n + 1, .apply f arguments, m⟩ q := by
  simp only [parts] at mem
  obtain ⟨env, m', ran, mem⟩ := mem_thereafter.mp mem
  obtain rfl := List.mem_singleton.mp mem
  exact .applied ran

theorem begins_of_mem_parts {p : Point} (mem : q ∈ p.parts) : Begins p q := by
  obtain ⟨depth, task, m⟩ := p
  cases task with
  | program body =>
    cases body with
    | nil => cases depth <;> cases mem
    | cons s rest =>
      have mem : q ∈ ⟨depth, .execute s, m⟩ :: thereafter (Run.execute depth s m)
          fun _ m' => [⟨depth, .program rest, m'⟩] := by
        cases depth <;> exact mem
      rcases List.mem_cons.mp mem with rfl | mem
      · exact .programHead
      obtain ⟨completion, m', ran, mem⟩ := mem_thereafter.mp mem
      obtain rfl := List.mem_singleton.mp mem
      exact .programTail ran
  | _ =>
    cases depth with
    | zero => cases mem
    | succ n => first
      | exact begins_of_mem_execute mem
      | exact begins_of_mem_iterate mem
      | exact begins_of_mem_evaluate mem
      | exact begins_of_mem_call mem
      | exact begins_of_mem_executeAll mem
      | exact begins_of_mem_evaluateAll mem
      | exact begins_of_mem_apply mem

theorem mem_parts_iff {p : Point} : q ∈ p.parts ↔ Begins p q :=
  ⟨begins_of_mem_parts, mem_parts_of_begins⟩

end

end Point

end ScopeScript
