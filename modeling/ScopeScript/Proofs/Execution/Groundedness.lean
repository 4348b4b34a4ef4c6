import ScopeScript.Proofs.Execution.GroundedEffects
import ScopeScript.Proofs.Execution.Superclass

set_option autoImplicit false

namespace ScopeScript

open Run

variable {O : Origins} {n line : Nat} {m : Machine}

def Completion.Grounded (O : Origins) (s : Store) : Completion → Prop
  | .returned value => value.Grounded O s
  | .normal | .jumped _ => True

def Task.Grounded (O : Origins) (m : Machine) : Task → Prop
  | .program body | .executeAll body => m.Placed O ∧ Stmt.AllWellFormed body
  | .execute s => m.Placed O ∧ s.WellFormed
  | .iterate condition body step => m.Placed O ∧ (Stmt.loop condition body step).WellFormed
  | .evaluate e => m.Placed O ∧ e.WellNamed
  | .evaluateAll es => m.Placed O ∧ Expr.AllWellNamed es
  | .call callee _ arguments =>
    callee.Grounded O m.store ∧ ∀ value ∈ arguments, value.Grounded O m.store
  | .apply f arguments => f.Grounded O m.store ∧ ∀ value ∈ arguments, value.Grounded O m.store

namespace Point

def Grounded (O : Origins) (p : Point) : Prop :=
  p.machine.Grounded O ∧ p.task.Grounded O p.machine

theorem Grounded.grow {O' : Origins} {p : Point} (h : p.Grounded O) (below : O.Below O') :
    p.Grounded O' := by
  obtain ⟨n, task, m⟩ := p
  obtain ⟨machine, starts⟩ := h
  refine ⟨machine.grow below, ?_⟩
  cases task with
  | call callee line arguments =>
    exact ⟨starts.1.grow below, fun value mem => (starts.2 value mem).grow below⟩
  | apply f arguments =>
    have callee : (Value.function f).Grounded O m.store := starts.1
    exact ⟨callee.grow below, fun value mem => (starts.2 value mem).grow below⟩
  | _ => exact ⟨starts.1.grow below, starts.2⟩

def Grounds (O : Origins) : Point → Prop
  | ⟨n, .program body, m⟩ => Run.Grounds O (executeProgram n body) m fun _ _ => True
  | ⟨n, .execute s, m⟩ =>
    Run.Grounds O (execute n s) m fun completion m' => completion.Grounded O m'.store
  | ⟨n, .executeAll body, m⟩ =>
    Run.Grounds O (executeAll n body) m fun completion m' => completion.Grounded O m'.store
  | ⟨n, .iterate condition body step, m⟩ =>
    Run.Grounds O (iterate n condition body step) m fun completion m' =>
      completion.Grounded O m'.store
  | ⟨n, .evaluate e, m⟩ => Run.Grounds O (evaluate n e) m fun value m' => value.Grounded O m'.store
  | ⟨n, .evaluateAll es, m⟩ => Run.Grounds O (evaluateAll n es) m fun values m' =>
    ∀ value ∈ values, value.Grounded O m'.store
  | ⟨n, .call callee line arguments, m⟩ =>
    Run.Grounds O (call n callee line arguments) m fun value m' => value.Grounded O m'.store
  | ⟨n, .apply f arguments, m⟩ =>
    Run.Grounds O (apply n f arguments) m fun value m' => value.Grounded O m'.store

def after : Point → Store
  | ⟨n, .program body, m⟩ => (ending (executeProgram n body m)).store
  | ⟨n, .execute s, m⟩ => (ending (execute n s m)).store
  | ⟨n, .executeAll body, m⟩ => (ending (executeAll n body m)).store
  | ⟨n, .iterate condition body step, m⟩ => (ending (iterate n condition body step m)).store
  | ⟨n, .evaluate e, m⟩ => (ending (evaluate n e m)).store
  | ⟨n, .evaluateAll es, m⟩ => (ending (evaluateAll n es m)).store
  | ⟨n, .call callee line arguments, m⟩ => (ending (call n callee line arguments m)).store
  | ⟨n, .apply f arguments, m⟩ => (ending (apply n f arguments m)).store

def Halts (halt : Halt) : Point → Prop
  | ⟨n, .program body, m⟩ => ∃ m', executeProgram n body m = .error halt m'
  | ⟨n, .execute s, m⟩ => ∃ m', execute n s m = .error halt m'
  | ⟨n, .executeAll body, m⟩ => ∃ m', executeAll n body m = .error halt m'
  | ⟨n, .iterate condition body step, m⟩ => ∃ m', iterate n condition body step m = .error halt m'
  | ⟨n, .evaluate e, m⟩ => ∃ m', evaluate n e m = .error halt m'
  | ⟨n, .evaluateAll es, m⟩ => ∃ m', evaluateAll n es m = .error halt m'
  | ⟨n, .call callee line arguments, m⟩ => ∃ m', call n callee line arguments m = .error halt m'
  | ⟨n, .apply f arguments, m⟩ => ∃ m', apply n f arguments m = .error halt m'

namespace Grounds

variable {p : Point}

theorem steady (h : p.Grounds O) : p.machine.store.Steady p.after := by
  obtain ⟨n, task, m⟩ := p
  cases task <;> exact Run.Grounds.steady h

theorem machine (h : p.Grounds O) {m' : Machine} (store : m'.store = p.after) : m'.Grounded O := by
  obtain ⟨n, task, m⟩ := p
  cases task <;> exact (Run.Grounds.machine h).congr store

theorem proper (h : p.Grounds O) {halt : Halt} (halts : p.Halts halt) : halt.Proper := by
  obtain ⟨n, task, m⟩ := p
  cases task <;>
    · obtain ⟨m', failed⟩ := halts
      exact Run.Grounds.halts h halt m' failed

end Grounds

def Lasting (O : Origins) (p : Point) : Prop :=
  p.Grounded O → p.Grounds O ∧ ∀ q, Begins p q → q.Grounded O ∧ q.after.Steady p.after

structure Attested (O : Origins) (p : Point) : Prop where
  made : ∀ d, Makes p d → O.made d
  declared : ∀ f, Declares p f → O.declared f
  fits : ∃ S v, p.Fits S v ∧ ∀ o, S.known o → o.use = .super → Frame.Derived o.frames

end Point

open Point

def Point.Contains (O : Origins) (p q : Point) : Prop := p.Grounds O ∧ q.after.Steady p.after

section

variable {α β : Type} {p : Run α} {f : α → Run β} {a : α} {m₁ : Machine} {s : Store}

theorem Run.steady_skip (ran : p m = .ok a m₁) (h : s.Steady (ending (f a m₁)).store) :
    s.Steady (ending ((p >>= f) m)).store := by
  rwa [bind_of_ok ran]

theorem Run.steady_of_eq {r r' : EStateM.Result Halt Machine α} (same : r = r') :
    (ending r').store.Steady (ending r).store :=
  .of_eq (congrArg (fun r => (ending r).store) same)

end

namespace Machine.Placed

variable {m' : Machine}

theorem evaluated (h : m.Placed O) {e : Expr} {value : Value} (steady : m.store.Steady m'.store)
    (ran : evaluate n e m = .ok value m') : m'.Placed O :=
  h.steady ((keeps_evaluate n e).of_ok ran) steady

theorem executed (h : m.Placed O) {s : Stmt} {completion : Completion}
    (steady : m.store.Steady m'.store) (ran : execute n s m = .ok completion m') : m'.Placed O :=
  h.steady ((keeps_execute n s).of_ok ran) steady

end Machine.Placed

-- Statements.

section

variable {s : Stmt} {e : Expr} {body rest : List Stmt} {name : Name}

theorem lasting_expression
    (parts : ∀ q, Begins ⟨n + 1, .execute (.expression e), m⟩ q → q.Lasting O) :
    Lasting O ⟨n + 1, .execute (.expression e), m⟩ := by
  rintro ⟨grounded, placed, formed⟩
  have inner : Point.Grounded O ⟨n, .evaluate e, m⟩ := ⟨grounded, placed, formed⟩
  have whole : Contains O ⟨n + 1, .execute (.expression e), m⟩ ⟨n, .evaluate e, m⟩ :=
    Grounds.through (parts _ .expression inner).1 fun _ _ _ grounded' _ _ => .pure grounded' trivial
  refine ⟨whole.1, ?_⟩
  rintro q ⟨⟩
  exact ⟨inner, whole.2⟩

theorem lasting_print (parts : ∀ q, Begins ⟨n + 1, .execute (.print e), m⟩ q → q.Lasting O) :
    Lasting O ⟨n + 1, .execute (.print e), m⟩ := by
  rintro ⟨grounded, placed, formed⟩
  have inner : Point.Grounded O ⟨n, .evaluate e, m⟩ := ⟨grounded, placed, formed⟩
  have whole : Contains O ⟨n + 1, .execute (.print e), m⟩ ⟨n, .evaluate e, m⟩ := by
    refine Grounds.through (parts _ .print inner).1 fun _ _ _ grounded₁ _ _ => ?_
    exact (grounds_printLine grounded₁).bind fun _ _ _ grounded₂ _ _ => .pure grounded₂ trivial
  refine ⟨whole.1, ?_⟩
  rintro q ⟨⟩
  exact ⟨inner, whole.2⟩

theorem lasting_varDecl {initial : Option Expr}
    (parts : ∀ q, Begins ⟨n + 1, .execute (.varDecl name initial), m⟩ q → q.Lasting O) :
    Lasting O ⟨n + 1, .execute (.varDecl name initial), m⟩ := by
  rintro ⟨grounded, placed, ordinary, formed⟩
  have rest {m' : Machine} {value : Value} (grounded' : m'.Grounded O) (placed' : m'.Placed O)
      (kept : value.Grounded O m'.store) :
      Run.Grounds O (do define name.text value; return Completion.normal) m'
        fun completion m'' => completion.Grounded O m''.store :=
    (grounds_define grounded' placed' ordinary kept).bind fun _ _ _ grounded'' _ _ =>
      .pure grounded'' trivial
  cases initial with
  | none => exact ⟨rest grounded placed trivial, by rintro _ ⟨⟩⟩
  | some e =>
    have inner : Point.Grounded O ⟨n, .evaluate e, m⟩ := ⟨grounded, placed, formed e rfl⟩
    have whole : Contains O ⟨n + 1, .execute (.varDecl name (some e)), m⟩ ⟨n, .evaluate e, m⟩ :=
      Grounds.through (parts _ .initial inner).1 fun value m' ran grounded' steady kept =>
        rest grounded' (placed.evaluated steady ran) kept
    refine ⟨whole.1, ?_⟩
    rintro q ⟨⟩
    exact ⟨inner, whole.2⟩

theorem lasting_block
    (parts : ∀ q, Begins ⟨n + 1, .execute (.block body), m⟩ q → q.Lasting O) :
    Lasting O ⟨n + 1, .execute (.block body), m⟩ := by
  rintro ⟨grounded, placed, formed⟩
  have entered := grounded.enclose m.environment
  have inner : Point.Grounded O ⟨n, .executeAll body, { m with
      store := (m.store.enclose m.environment).2
      environment := (m.store.enclose m.environment).1 }⟩ :=
    ⟨entered.congr rfl, placed_enclose grounded placed.layered, formed⟩
  refine ⟨?_, ?_⟩
  · refine Run.Grounds.bind (p := newScope) (Q := fun env m' =>
      env = (m.store.enclose m.environment).1 ∧
        m' = { m with store := (m.store.enclose m.environment).2 })
      (.of_ok rfl entered (m.store.steady_enclose m.environment) ⟨rfl, rfl⟩) ?_
    rintro _ _ - - - ⟨rfl, rfl⟩
    exact (parts _ (.block rfl) inner).1.within fun _ _ h => h
  · rintro q ⟨⟩
    next ran =>
    cases ran
    refine ⟨inner, ?_⟩
    exact .of_eq (store_ending_within _ (executeAll n body) _)

theorem lasting_ifElse {alternative : Option Stmt}
    (parts : ∀ q, Begins ⟨n + 1, .execute (.ifElse e s alternative), m⟩ q → q.Lasting O) :
    Lasting O ⟨n + 1, .execute (.ifElse e s alternative), m⟩ := by
  rintro ⟨grounded, placed, formed⟩
  have condition : Point.Grounded O ⟨n, .evaluate e, m⟩ := by
    cases alternative <;> exact ⟨grounded, placed, formed.1⟩
  have test := (parts _ .choice condition).1
  have consequent {value : Value} {m' : Machine} (ran : evaluate n e m = .ok value m') :
      Point.Grounded O ⟨n, .execute s, m'⟩ := by
    refine ⟨test.grounded ran, placed.evaluated (test.steady_of_ok ran) ran, ?_⟩
    cases alternative with
    | none => exact formed.2.1
    | some _ => exact formed.2.1.1
  have alternate {value : Value} {m' : Machine} (ran : evaluate n e m = .ok value m')
      {other : Stmt} (present : alternative = some other) :
      Point.Grounded O ⟨n, .execute other, m'⟩ := by
    subst present
    exact ⟨test.grounded ran, placed.evaluated (test.steady_of_ok ran) ran, formed.2.2.1⟩
  have whole : Contains O ⟨n + 1, .execute (.ifElse e s alternative), m⟩ ⟨n, .evaluate e, m⟩ := by
    refine Grounds.through test fun value m' ran grounded' _ _ => ?_
    split
    next holds => exact (parts _ (.consequent ran holds) (consequent ran)).1
    next fails =>
      cases alternative with
      | none => exact .pure grounded' trivial
      | some other =>
        have fails : value.isTruthy = false := by simpa using fails
        exact (parts _ (.alternative ran fails) (alternate ran rfl)).1
  refine ⟨whole.1, fun q begins => ?_⟩
  cases begins with
  | choice => exact ⟨condition, whole.2⟩
  | consequent ran holds => exact ⟨consequent ran, steady_of_eq (execute_consequent ran holds)⟩
  | alternative ran fails => exact ⟨alternate ran rfl, steady_of_eq (execute_alternative ran fails)⟩

theorem lasting_loop {step : Option Expr}
    (parts : ∀ q, Begins ⟨n + 1, .execute (.loop e s step), m⟩ q → q.Lasting O) :
    Lasting O ⟨n + 1, .execute (.loop e s step), m⟩ := by
  rintro ⟨grounded, placed, formed⟩
  have inner : Point.Grounded O ⟨n, .iterate e s step, m⟩ := ⟨grounded, placed, formed⟩
  refine ⟨(parts _ .loop inner).1, ?_⟩
  rintro q ⟨⟩
  exact ⟨inner, .refl _⟩

theorem lasting_funDecl {f : FunctionDecl}
    (attested : Attested O ⟨n + 1, .execute (.funDecl f), m⟩) :
    Lasting O ⟨n + 1, .execute (.funDecl f), m⟩ := by
  rintro ⟨grounded, placed, formed⟩
  refine ⟨?_, by rintro _ ⟨⟩⟩
  refine Run.Grounds.bind (p := closure f) (Q := fun f' m' =>
    f' = ⟨m.store.identities, f, m.environment, false⟩ ∧
      m' = { m with store := m.store.newIdentity.2 })
    (.of_ok rfl grounded.newIdentity m.store.steady_newIdentity ⟨rfl, rfl⟩) ?_
  rintro _ _ - grounded₁ steady ⟨rfl, rfl⟩
  have value : (Value.function ⟨m.store.identities, f, m.environment, false⟩).Grounded O
      m.store.newIdentity.2 :=
    ⟨formed, placed.layered.mono steady, .inl (attested.declared _ .intro)⟩
  have placed₁ : Machine.Placed O { m with store := m.store.newIdentity.2 } :=
    placed.steady ⟨rfl, rfl, rfl, rfl, m.store.grows_newIdentity⟩ steady
  have ordinary := FunctionDecl.WellFormed.name_ordinary formed
  exact (grounds_define grounded₁ placed₁ ordinary value).bind fun _ _ _ grounded₂ _ _ =>
    .pure grounded₂ trivial

theorem lasting_classDecl {above : Option Reference} {methods : List FunctionDecl}
    (attested : Attested O ⟨n + 1, .execute (.classDecl name above methods), m⟩) :
    Lasting O ⟨n + 1, .execute (.classDecl name above methods), m⟩ := by
  rintro ⟨grounded, placed, formed⟩
  refine ⟨?_, by rintro _ ⟨⟩⟩
  exact (grounds_declareClass grounded placed formed attested.made).bind
    fun _ _ _ grounded' _ _ => .pure grounded' trivial

theorem lasting_returning {value : Option Expr}
    (parts : ∀ q, Begins ⟨n + 1, .execute (.returning line value), m⟩ q → q.Lasting O) :
    Lasting O ⟨n + 1, .execute (.returning line value), m⟩ := by
  rintro ⟨grounded, placed, formed⟩
  cases value with
  | none =>
    have unset : Completion.Grounded O m.store (.returned .nil) := trivial
    exact ⟨.pure grounded unset, by rintro _ ⟨⟩⟩
  | some e =>
    have inner : Point.Grounded O ⟨n, .evaluate e, m⟩ := ⟨grounded, placed, formed e rfl⟩
    have whole : Contains O ⟨n + 1, .execute (.returning line (some e)), m⟩ ⟨n, .evaluate e, m⟩ :=
      Grounds.through (parts _ .returned inner).1 fun _ _ _ grounded' _ kept =>
        .pure grounded' kept
    refine ⟨whole.1, ?_⟩
    rintro q ⟨⟩
    exact ⟨inner, whole.2⟩

theorem lasting_executeAll
    (parts : ∀ q, Begins ⟨n + 1, .executeAll body, m⟩ q → q.Lasting O) :
    Lasting O ⟨n + 1, .executeAll body, m⟩ := by
  rintro ⟨grounded, placed, formed⟩
  cases body with
  | nil => exact ⟨.pure grounded trivial, by rintro _ ⟨⟩⟩
  | cons s rest =>
    have head : Point.Grounded O ⟨n, .execute s, m⟩ := ⟨grounded, placed, formed.1⟩
    have first := (parts _ .head head).1
    have tail {m' : Machine} (ran : execute n s m = .ok .normal m') :
        Point.Grounded O ⟨n, .executeAll rest, m'⟩ :=
      ⟨first.grounded ran, placed.executed (first.steady_of_ok ran) ran, formed.2⟩
    have whole : Contains O ⟨n + 1, .executeAll (s :: rest), m⟩ ⟨n, .execute s, m⟩ := by
      refine Grounds.through first fun completion m' ran grounded' _ ends => ?_
      cases completion with
      | normal => exact (parts _ (.tail ran) (tail ran)).1
      | returned value => exact .pure grounded' ends
      | jumped kind => exact .pure grounded' ends
    refine ⟨whole.1, fun q begins => ?_⟩
    cases begins with
    | head => exact ⟨head, whole.2⟩
    | tail ran => exact ⟨tail ran, steady_of_eq (executeAll_of_normal ran)⟩

def Run.afterBody (n : Nat) (condition : Expr) (body : Stmt) (step : Option Expr) :
    Completion → Run Completion
  | .jumped .leave => return .normal
  | .returned value => return .returned value
  | .normal | .jumped .next => afterJump n condition body step .next

theorem Run.iterate_of_true {step : Option Expr} {value : Value} {m₁ : Machine}
    (tested : evaluate n e m = .ok value m₁) (holds : value.isTruthy = true) :
    iterate (n + 1) e s step m = (execute n s >>= afterBody n e s step) m₁ := by
  unfold iterate
  rw [bind_of_ok tested, if_pos holds]
  refine congrArg (fun rest => (execute n s >>= rest) m₁) (funext fun completion => ?_)
  cases completion with
  | normal | returned value => rfl
  | jumped kind => cases kind <;> rfl

theorem Run.iterate_of_repeats {step : Option Expr} {value : Value} {completion : Completion}
    {m₁ m₂ : Machine} (tested : evaluate n e m = .ok value m₁) (holds : value.isTruthy = true)
    (ran : execute n s m₁ = .ok completion m₂)
    (goesOn : completion = .normal ∨ completion = .jumped .next) :
    iterate (n + 1) e s step m = afterJump n e s step .next m₂ := by
  rw [iterate_of_true tested holds, bind_of_ok ran]
  rcases goesOn with rfl | rfl <;> rfl

-- The parts of a loop, from its next test on.

section

variable {step : Option Expr} {value : Value} {completion : Completion} {m₁ m₂ : Machine}
  (start : Point.Grounded O ⟨n + 1, .iterate e s step, m⟩)
  (parts : ∀ q, Begins ⟨n + 1, .iterate e s step, m⟩ q → q.Lasting O)

include start

theorem Point.Grounded.iterate_test : Point.Grounded O ⟨n, .evaluate e, m⟩ :=
  ⟨start.1, start.2.1, start.2.2.1⟩

theorem Point.Grounded.iterate_again {m' : Machine} (known : m'.Grounded O ∧ m'.Placed O) :
    Point.Grounded O ⟨n, .iterate e s step, m'⟩ :=
  ⟨known.1, known.2, start.2.2⟩

include parts

theorem iterate_tested (ran : evaluate n e m = .ok value m₁) : m₁.Grounded O ∧ m₁.Placed O := by
  have tested := (parts _ .test start.iterate_test).1
  exact ⟨tested.grounded ran, start.2.1.evaluated (tested.steady_of_ok ran) ran⟩

theorem iterate_body (ran : evaluate n e m = .ok value m₁) :
    Point.Grounded O ⟨n, .execute s, m₁⟩ := by
  obtain ⟨grounded, placed⟩ := iterate_tested start parts ran
  exact ⟨grounded, placed, start.2.2.2.1.1⟩

theorem iterate_behind (ran : evaluate n e m = .ok value m₁) (holds : value.isTruthy = true)
    (ran₁ : execute n s m₁ = .ok completion m₂) : m₂.Grounded O ∧ m₂.Placed O := by
  have body := iterate_body start parts ran
  have executed := (parts _ (.body ran holds) body).1
  exact ⟨executed.grounded ran₁, body.2.1.executed (executed.steady_of_ok ran₁) ran₁⟩

end

section

variable {e' : Expr} {value value' : Value} {completion : Completion} {m₁ m₂ m₃ : Machine}
  (start : Point.Grounded O ⟨n + 1, .iterate e s (some e'), m⟩)
  (parts : ∀ q, Begins ⟨n + 1, .iterate e s (some e'), m⟩ q → q.Lasting O)

include start parts

theorem iterate_step (ran : evaluate n e m = .ok value m₁) (holds : value.isTruthy = true)
    (ran₁ : execute n s m₁ = .ok completion m₂) : Point.Grounded O ⟨n, .evaluate e', m₂⟩ := by
  obtain ⟨grounded, placed⟩ := iterate_behind start parts ran holds ran₁
  exact ⟨grounded, placed, start.2.2.2.2 e' rfl⟩

theorem iterate_stepped (ran : evaluate n e m = .ok value m₁) (holds : value.isTruthy = true)
    (ran₁ : execute n s m₁ = .ok completion m₂)
    (goesOn : completion = .normal ∨ completion = .jumped .next)
    (ran₂ : evaluate n e' m₂ = .ok value' m₃) : m₃.Grounded O ∧ m₃.Placed O := by
  have inner := iterate_step start parts ran holds ran₁
  have evaluated := (parts _ (.step ran holds ran₁ goesOn) inner).1
  exact ⟨evaluated.grounded ran₂, inner.2.1.evaluated (evaluated.steady_of_ok ran₂) ran₂⟩

end

theorem iterate_repeats {step : Option Expr} {value : Value} {completion : Completion}
    {m₁ m₂ : Machine} (start : Point.Grounded O ⟨n + 1, .iterate e s step, m⟩)
    (parts : ∀ q, Begins ⟨n + 1, .iterate e s step, m⟩ q → q.Lasting O)
    (ran : evaluate n e m = .ok value m₁) (holds : value.isTruthy = true)
    (ran₁ : execute n s m₁ = .ok completion m₂)
    (goesOn : completion = .normal ∨ completion = .jumped .next) :
    Run.Grounds O (afterJump n e s step .next) m₂
      (fun completion m' => completion.Grounded O m'.store) ∧
    ∀ e' ∈ step, (Point.after ⟨n, .evaluate e', m₂⟩).Steady
      (ending (afterJump n e s step .next m₂)).store := by
  cases step with
  | none =>
    have again := start.iterate_again (iterate_behind start parts ran holds ran₁)
    exact ⟨(parts _ (.again ran holds ran₁ goesOn) again).1, nofun⟩
  | some e' =>
    have both := Grounds.through (f := fun _ => iterate n e s (some e'))
      (R := fun completion m' => completion.Grounded O m'.store)
      (parts _ (.step ran holds ran₁ goesOn) (iterate_step start parts ran holds ran₁)).1
      fun value' m₃ ran₂ _ _ _ => (parts _ (.againStepped ran holds ran₁ goesOn ran₂)
        (start.iterate_again (iterate_stepped start parts ran holds ran₁ goesOn ran₂))).1
    refine ⟨both.1, ?_⟩
    rintro _ ⟨⟩
    exact both.2

theorem lasting_iterate {step : Option Expr}
    (parts : ∀ q, Begins ⟨n + 1, .iterate e s step, m⟩ q → q.Lasting O) :
    Lasting O ⟨n + 1, .iterate e s step, m⟩ := by
  intro start
  have inside {value : Value} {m₁ : Machine} (ran : evaluate n e m = .ok value m₁)
      (holds : value.isTruthy = true) :=
    Grounds.through (f := afterBody n e s step)
      (R := fun completion m' => completion.Grounded O m'.store)
      (parts _ (.body ran holds) (iterate_body start parts ran)).1
      fun completion m₂ ran₁ grounded₂ _ ends => by
        cases completion with
        | normal => exact (iterate_repeats start parts ran holds ran₁ (.inl rfl)).1
        | returned value => exact .pure grounded₂ ends
        | jumped kind =>
          cases kind with
          | leave => exact .pure grounded₂ trivial
          | next => exact (iterate_repeats start parts ran holds ran₁ (.inr rfl)).1
  have whole : Contains O ⟨n + 1, .iterate e s step, m⟩ ⟨n, .evaluate e, m⟩ := by
    refine Grounds.through (parts _ .test start.iterate_test).1 fun value m₁ ran grounded₁ _ _ => ?_
    split
    next holds =>
      refine .congr ?_ (inside ran holds).1
      have same : iterate (n + 1) e s step m = _ := iterate_of_true ran holds
      unfold iterate at same
      rwa [bind_of_ok ran, if_pos holds] at same
    · exact .pure grounded₁ trivial
  refine ⟨whole.1, fun q begins => ?_⟩
  cases begins with
  | test => exact ⟨start.iterate_test, whole.2⟩
  | body ran holds =>
    refine ⟨iterate_body start parts ran, ?_⟩
    exact (inside ran holds).2.trans (steady_of_eq (iterate_of_true ran holds))
  | step ran holds ran₁ goesOn =>
    refine ⟨iterate_step start parts ran holds ran₁, ?_⟩
    exact ((iterate_repeats start parts ran holds ran₁ goesOn).2 _ rfl).trans
      (steady_of_eq (iterate_of_repeats ran holds ran₁ goesOn))
  | again ran holds ran₁ goesOn =>
    exact ⟨start.iterate_again (iterate_behind start parts ran holds ran₁),
      steady_of_eq (iterate_of_repeats ran holds ran₁ goesOn)⟩
  | againStepped ran holds ran₁ goesOn ran₂ =>
    refine ⟨start.iterate_again (iterate_stepped start parts ran holds ran₁ goesOn ran₂), ?_⟩
    refine Store.Steady.trans ?_ (steady_of_eq (iterate_of_repeats ran holds ran₁ goesOn))
    exact steady_skip (f := fun _ => iterate n e s (some _)) ran₂ (.refl _)

end

-- Expressions.

section

variable {e left right : Expr} {es : List Expr} {r : Reference} {name : Name}

theorem lasting_grouping
    (parts : ∀ q, Begins ⟨n + 1, .evaluate (.grouping e), m⟩ q → q.Lasting O) :
    Lasting O ⟨n + 1, .evaluate (.grouping e), m⟩ := by
  rintro ⟨grounded, placed, named⟩
  have inner : Point.Grounded O ⟨n, .evaluate e, m⟩ := ⟨grounded, placed, named⟩
  refine ⟨(parts _ .grouping inner).1, ?_⟩
  rintro q ⟨⟩
  exact ⟨inner, .refl _⟩

theorem lasting_unary {op : UnaryOp}
    (parts : ∀ q, Begins ⟨n + 1, .evaluate (.unary op line e), m⟩ q → q.Lasting O) :
    Lasting O ⟨n + 1, .evaluate (.unary op line e), m⟩ := by
  rintro ⟨grounded, placed, named⟩
  have inner : Point.Grounded O ⟨n, .evaluate e, m⟩ := ⟨grounded, placed, named⟩
  have whole : Contains O ⟨n + 1, .evaluate (.unary op line e), m⟩ ⟨n, .evaluate e, m⟩ :=
    Grounds.through (parts _ .operand inner).1 fun _ _ _ grounded' _ _ =>
      grounds_ofOperation grounded' (fun _ failed => proper_of_unary failed line)
        fun _ h => (UnaryOp.apply_plain h).grounded
  refine ⟨whole.1, ?_⟩
  rintro q ⟨⟩
  exact ⟨inner, whole.2⟩

theorem lasting_binary {op : BinaryOp}
    (parts : ∀ q, Begins ⟨n + 1, .evaluate (.binary op line left right), m⟩ q → q.Lasting O) :
    Lasting O ⟨n + 1, .evaluate (.binary op line left right), m⟩ := by
  rintro ⟨grounded, placed, named⟩
  have first : Point.Grounded O ⟨n, .evaluate left, m⟩ := ⟨grounded, placed, named.1⟩
  have evaluated := (parts _ .left first).1
  have second {value : Value} {m' : Machine} (ran : evaluate n left m = .ok value m') :
      Point.Grounded O ⟨n, .evaluate right, m'⟩ :=
    ⟨evaluated.grounded ran, placed.evaluated (evaluated.steady_of_ok ran) ran, named.2⟩
  have rest {a : Value} {m' : Machine} (ran : evaluate n left m = .ok a m') :=
    Grounds.through (f := fun b => ofOperation line (op.apply a b))
      (R := fun value m' => value.Grounded O m'.store) (parts _ (.right ran) (second ran)).1
      fun _ _ _ grounded' _ _ =>
        grounds_ofOperation grounded' (fun _ failed => proper_of_binary failed line)
          fun _ h => (BinaryOp.apply_plain h).grounded
  have whole : Contains O ⟨n + 1, .evaluate (.binary op line left right), m⟩
      ⟨n, .evaluate left, m⟩ :=
    Grounds.through evaluated fun _ _ ran _ _ _ => (rest ran).1
  refine ⟨whole.1, fun q begins => ?_⟩
  cases begins with
  | left => exact ⟨first, whole.2⟩
  | right ran => exact ⟨second ran, steady_skip ran (rest ran).2⟩

theorem lasting_logical {op : LogicalOp}
    (parts : ∀ q, Begins ⟨n + 1, .evaluate (.logical op left right), m⟩ q → q.Lasting O) :
    Lasting O ⟨n + 1, .evaluate (.logical op left right), m⟩ := by
  rintro ⟨grounded, placed, named⟩
  have first : Point.Grounded O ⟨n, .evaluate left, m⟩ := ⟨grounded, placed, named.1⟩
  have evaluated := (parts _ .decision first).1
  have second {value : Value} {m' : Machine} (ran : evaluate n left m = .ok value m') :
      Point.Grounded O ⟨n, .evaluate right, m'⟩ :=
    ⟨evaluated.grounded ran, placed.evaluated (evaluated.steady_of_ok ran) ran, named.2⟩
  have other {value : Value} {m' : Machine} (ran : evaluate n left m = .ok value m')
      (undecided : value.isTruthy = (op == .and)) :=
    (parts _ (.undecided ran undecided) (second ran)).1
  have whole : Contains O ⟨n + 1, .evaluate (.logical op left right), m⟩
      ⟨n, .evaluate left, m⟩ := by
    refine Grounds.through evaluated fun value m' ran grounded' _ kept => ?_
    cases op with
    | or =>
      simp only
      split
      · exact .pure grounded' kept
      next fails => exact other ran (eq_false_of_ne_true fails)
    | and =>
      simp only
      split
      · exact .pure grounded' kept
      next holds => exact other ran (by simpa using holds)
  refine ⟨whole.1, fun q begins => ?_⟩
  cases begins with
  | decision => exact ⟨first, whole.2⟩
  | undecided ran undecided =>
    refine ⟨second ran, steady_skip ran ?_⟩
    cases op with
    | or =>
      have fails : _ = false := undecided
      simp only [fails, Bool.false_eq_true, if_false]
      exact .refl _
    | and =>
      have holds : _ = true := undecided
      simp only [holds, Bool.not_true, Bool.false_eq_true, if_false]
      exact .refl _

theorem Point.Attested.writable (attested : Attested O ⟨n + 1, .evaluate (.assign r e), m⟩)
    (grounded : m.Grounded O) (placed : m.Placed O) (ordinary : r.name.Ordinary) {distance : Nat}
    (resolved : m.resolution[r.id]? = some distance) :
    (m.environment.ancestor distance).innermost < m.store.scopes.size ∧
      m.store.Writable (m.environment.ancestor distance).innermost r.name.text := by
  cases distance with
  | zero =>
    have here : m.environment.ancestor 0 = m.environment := by
      rw [Environment.ancestor]
    exact here ▸ ⟨placed.inside, placed.writable ordinary⟩
  | succ outer =>
    obtain ⟨S, v, ⟨sound, mirrors, knows⟩, -⟩ := attested.fits
    obtain ⟨recorded, -⟩ := sound.recorded _ (knows _ List.mem_cons_self)
    have declared : Frame.address? (Frame.declare v.fresh.toList v.frames) r.name.text =
        some (outer + 1) := recorded.symm.trans resolved
    have bound : Frame.address? v.frames r.name.text = some (outer + 1) := by
      cases frames : v.frames with
      | nil => simp [frames, Frame.declare, Frame.address?] at declared
      | cons frame rest =>
        rw [frames, Frame.declare, Frame.address?_cons] at declared
        split at declared
        · cases declared
        next other =>
          rw [Frame.address?_cons, if_neg fun mem => other (List.mem_append_right _ mem)]
          exact declared
    obtain ⟨address, -, value, link, -, -, found⟩ := mirrors.bound_of_address? bound
    rw [Environment.innermost_ancestor link]
    refine ⟨Store.lt_size_of_lookup found, .inr ⟨fun dedicated => ?_, ordinary⟩⟩
    rcases grounded.dedicated address dedicated with ⟨i, only⟩ | ⟨c, only⟩
    · exact ordinary.1 (only.eq_of_lookup found).1
    · exact ordinary.2 (only.eq_of_lookup found).1

theorem lasting_assign (attested : Attested O ⟨n + 1, .evaluate (.assign r e), m⟩)
    (parts : ∀ q, Begins ⟨n + 1, .evaluate (.assign r e), m⟩ q → q.Lasting O) :
    Lasting O ⟨n + 1, .evaluate (.assign r e), m⟩ := by
  rintro ⟨grounded, placed, ordinary, named⟩
  have inner : Point.Grounded O ⟨n, .evaluate e, m⟩ := ⟨grounded, placed, named⟩
  have whole : Contains O ⟨n + 1, .evaluate (.assign r e), m⟩ ⟨n, .evaluate e, m⟩ := by
    refine Grounds.through (parts _ .assigned inner).1 fun value m₁ ran grounded₁ steady kept => ?_
    have same := (keeps_evaluate n e).of_ok ran
    refine (grounds_assign grounded₁ kept ordinary fun distance resolved => ?_).bind
      fun _ m₂ _ grounded₂ steady₂ _ => .pure grounded₂ (kept.mono steady₂)
    obtain ⟨inside, writable⟩ :=
      attested.writable grounded placed ordinary (same.resolution ▸ resolved)
    rw [same.environment]
    exact writable.imp id fun ⟨free, ordinary⟩ =>
      ⟨fun dedicated => free (steady.back _ inside dedicated), ordinary⟩
  refine ⟨whole.1, ?_⟩
  rintro q ⟨⟩
  exact ⟨inner, whole.2⟩

theorem lasting_call_expression
    (parts : ∀ q, Begins ⟨n + 1, .evaluate (.call e line es), m⟩ q → q.Lasting O) :
    Lasting O ⟨n + 1, .evaluate (.call e line es), m⟩ := by
  rintro ⟨grounded, placed, named⟩
  have callee : Point.Grounded O ⟨n, .evaluate e, m⟩ := ⟨grounded, placed, named.1⟩
  have first := (parts _ .callee callee).1
  have arguments {value : Value} {m' : Machine} (ran : evaluate n e m = .ok value m') :
      Point.Grounded O ⟨n, .evaluateAll es, m'⟩ :=
    ⟨first.grounded ran, placed.evaluated (first.steady_of_ok ran) ran, named.2⟩
  have second {value : Value} {m' : Machine} (ran : evaluate n e m = .ok value m') :=
    (parts _ (.arguments ran) (arguments ran)).1
  have called {value : Value} {values : List Value} {m₁ m₂ : Machine}
      (ran : evaluate n e m = .ok value m₁) (ran₁ : evaluateAll n es m₁ = .ok values m₂) :
      Point.Grounded O ⟨n, .call value line values, m₂⟩ :=
    ⟨(second ran).grounded ran₁, (first.result _ _ ran).mono ((second ran).steady_of_ok ran₁),
      (second ran).result _ _ ran₁⟩
  have rest {value : Value} {m₁ : Machine} (ran : evaluate n e m = .ok value m₁) :=
    Grounds.through (f := fun values => call n value line values)
      (R := fun value m' => value.Grounded O m'.store) (second ran)
      fun _ _ ran₁ _ _ _ => (parts _ (.called ran ran₁) (called ran ran₁)).1
  have whole : Contains O ⟨n + 1, .evaluate (.call e line es), m⟩ ⟨n, .evaluate e, m⟩ :=
    Grounds.through first fun _ _ ran _ _ _ => (rest ran).1
  refine ⟨whole.1, fun q begins => ?_⟩
  cases begins with
  | callee => exact ⟨callee, whole.2⟩
  | arguments ran => exact ⟨arguments ran, steady_skip ran (rest ran).2⟩
  | @called _ _ _ value m₁ _ values m₂ _ ran ran₁ =>
    refine ⟨called ran ran₁, steady_skip ran ?_⟩
    exact steady_skip (f := fun values => call n value line values) ran₁ (.refl _)

theorem lasting_get (parts : ∀ q, Begins ⟨n + 1, .evaluate (.get e name), m⟩ q → q.Lasting O) :
    Lasting O ⟨n + 1, .evaluate (.get e name), m⟩ := by
  rintro ⟨grounded, placed, named⟩
  have inner : Point.Grounded O ⟨n, .evaluate e, m⟩ := ⟨grounded, placed, named⟩
  have whole : Contains O ⟨n + 1, .evaluate (.get e name), m⟩ ⟨n, .evaluate e, m⟩ := by
    refine Grounds.through (parts _ .owner inner).1 fun value m' ran grounded' _ kept => ?_
    split
    · exact grounds_property grounded' kept
    · exact .stop grounded' trivial
  refine ⟨whole.1, ?_⟩
  rintro q ⟨⟩
  exact ⟨inner, whole.2⟩

theorem lasting_set {e' : Expr}
    (parts : ∀ q, Begins ⟨n + 1, .evaluate (.set e name e'), m⟩ q → q.Lasting O) :
    Lasting O ⟨n + 1, .evaluate (.set e name e'), m⟩ := by
  rintro ⟨grounded, placed, named⟩
  have target : Point.Grounded O ⟨n, .evaluate e, m⟩ := ⟨grounded, placed, named.1⟩
  have first := (parts _ .target target).1
  have content {i : Instance} {m' : Machine} (ran : evaluate n e m = .ok (.instance i) m') :
      Point.Grounded O ⟨n, .evaluate e', m'⟩ :=
    ⟨first.grounded ran, placed.evaluated (first.steady_of_ok ran) ran, named.2⟩
  have rest {i : Instance} {m₁ : Machine} (ran : evaluate n e m = .ok (.instance i) m₁) :=
    Grounds.through (f := fun value => do
        modifyStore fun s => s.setField i name.text value
        return value)
      (R := fun value m' => value.Grounded O m'.store) (parts _ (.content ran) (content ran)).1
      fun value m₂ _ grounded₂ _ kept =>
        Run.Grounds.bind (p := modifyStore fun s => s.setField i name.text value)
          (Q := fun _ m' => value.Grounded O m'.store)
          (.of_ok rfl (grounded₂.setField i kept) (m₂.store.steady_setField i _ _)
            (kept.mono (m₂.store.steady_setField i _ _)))
          fun _ _ _ grounded₃ _ kept' => .pure grounded₃ kept'
  have whole : Contains O ⟨n + 1, .evaluate (.set e name e'), m⟩ ⟨n, .evaluate e, m⟩ := by
    refine Grounds.through first fun value m₁ ran grounded₁ _ _ => ?_
    split
    · exact (rest ran).1
    · exact .stop grounded₁ trivial
  refine ⟨whole.1, fun q begins => ?_⟩
  cases begins with
  | target => exact ⟨target, whole.2⟩
  | content ran => exact ⟨content ran, steady_skip ran (rest ran).2⟩

theorem lasting_super (attested : Attested O ⟨n + 1, .evaluate (.super r name), m⟩) :
    Lasting O ⟨n + 1, .evaluate (.super r name), m⟩ := by
  rintro ⟨grounded, placed, -⟩
  refine ⟨?_, by rintro _ ⟨⟩⟩
  obtain ⟨S, v, fits, derived⟩ := attested.fits
  have inside := derived _ (fits.2.2 _ List.mem_cons_self) rfl
  obtain ⟨frames, method, header, receiver, superclass, scopes⟩ := fits.superScopes inside
  obtain ⟨i, d, c, isInstance, isClass, -, descends, above⟩ := scopes.values grounded placed.layered
  have isClass' : m.store.getAt? m.environment (frames.length + 1) "super" = some (.class c) := by
    rw [Store.getAt?, scopes.ancestor_superclass, isClass]
  have isInstance' : m.store.getAt? m.environment (frames.length + 1 - 1) "this" =
      some (.instance i) := by
    rw [Store.getAt?, Nat.add_sub_cancel, scopes.ancestor_receiver, isInstance]
  exact grounds_inherited grounded scopes.resolved isClass' isInstance' (descends.next above)

theorem lasting_evaluate (attested : Attested O ⟨n + 1, .evaluate e, m⟩)
    (parts : ∀ q, Begins ⟨n + 1, .evaluate e, m⟩ q → q.Lasting O) :
    Lasting O ⟨n + 1, .evaluate e, m⟩ := by
  cases e with
  | literal value =>
    rintro ⟨grounded, -⟩
    refine ⟨?_, by rintro _ ⟨⟩⟩
    have kept : value.toValue.Grounded O m.store := Value.grounded_toValue value
    exact .of_ok rfl grounded (.refl _) kept
  | grouping inner => exact lasting_grouping parts
  | unary op line operand => exact lasting_unary parts
  | binary op line left right => exact lasting_binary parts
  | logical op left right => exact lasting_logical parts
  | var r =>
    rintro ⟨grounded, -, ordinary⟩
    refine ⟨(grounds_lookUp grounded ordinary.2).weaken ?_, by rintro _ ⟨⟩⟩
    rintro value _ ⟨rfl, kept⟩
    exact kept
  | assign r value => exact lasting_assign attested parts
  | call callee line arguments => exact lasting_call_expression parts
  | get object name => exact lasting_get parts
  | set object name value => exact lasting_set parts
  | self r =>
    rintro ⟨grounded, -, (named : r.name.text = "this")⟩
    have other : r.name.text ≠ "super" := by simp [named]
    refine ⟨(grounds_lookUp grounded other).weaken ?_, by rintro _ ⟨⟩⟩
    rintro value _ ⟨rfl, kept⟩
    exact kept
  | super r method => exact lasting_super attested

theorem lasting_evaluateAll
    (parts : ∀ q, Begins ⟨n + 1, .evaluateAll es, m⟩ q → q.Lasting O) :
    Lasting O ⟨n + 1, .evaluateAll es, m⟩ := by
  rintro ⟨grounded, placed, named⟩
  cases es with
  | nil => exact ⟨.pure grounded (by simp), by rintro _ ⟨⟩⟩
  | cons e rest =>
    have head : Point.Grounded O ⟨n, .evaluate e, m⟩ := ⟨grounded, placed, named.1⟩
    have first := (parts _ .first head).1
    have others {value : Value} {m' : Machine} (ran : evaluate n e m = .ok value m') :
        Point.Grounded O ⟨n, .evaluateAll rest, m'⟩ :=
      ⟨first.grounded ran, placed.evaluated (first.steady_of_ok ran) ran, named.2⟩
    have remaining {value : Value} {m₁ : Machine} (ran : evaluate n e m = .ok value m₁) :=
      Grounds.through (f := fun values => return value :: values)
        (R := fun values m' => ∀ value ∈ values, value.Grounded O m'.store)
        (parts _ (.others ran) (others ran)).1 fun values m₂ _ grounded₂ steady kept => by
          refine .pure grounded₂ (List.forall_mem_cons.mpr ⟨?_, kept⟩)
          exact (first.result _ _ ran).mono steady
    have whole : Contains O ⟨n + 1, .evaluateAll (e :: rest), m⟩ ⟨n, .evaluate e, m⟩ :=
      Grounds.through first fun _ _ ran _ _ _ => (remaining ran).1
    refine ⟨whole.1, fun q begins => ?_⟩
    cases begins with
    | first => exact ⟨head, whole.2⟩
    | others ran => exact ⟨others ran, steady_skip ran (remaining ran).2⟩

end

-- Calls.

section

variable {arguments : List Value}

theorem Run.call_of_initializer {c : Class} {init : Method} {i : Instance} {f : Closure}
    {m₁ m₂ : Machine} (same : c.arity = arguments.length) (found : c.method? "init" = some init)
    (ran : onStore (fun s => s.newInstance c) m = .ok i m₁) (ran₁ : bind init i m₁ = .ok f m₂) :
    call (n + 1) (.class c) line arguments m =
      (apply n f arguments >>= fun _ => return .instance i) m₂ := by
  unfold call
  simp only
  rw [bind_of_ok (checkArity_of_eq same m), bind_of_ok ran]
  simp only [found]
  rw [bind_of_ok ran₁]

theorem lasting_call_class {c : Class}
    (parts : ∀ q, Begins ⟨n + 1, .call (.class c) line arguments, m⟩ q → q.Lasting O) :
    Lasting O ⟨n + 1, .call (.class c) line arguments, m⟩ := by
  rintro ⟨grounded, c_grounded, kept⟩
  have made := grounds_newInstance grounded c_grounded
  have bound {init : Method} {i : Instance} {m₁ : Machine} (found : c.method? "init" = some init)
      (ran : onStore (fun s => s.newInstance c) m = .ok i m₁) :
      Run.Grounds O (bind init i) m₁ fun f m' => f.Grounded O m'.store := by
    obtain ⟨rfl, receiver⟩ := made.result _ _ ran
    exact grounds_bind (made.grounded ran) (Class.Grounded.mono c_grounded (made.steady_of_ok ran))
      receiver .refl found
  have initial {init : Method} {i : Instance} {f : Closure} {m₁ m₂ : Machine}
      (found : c.method? "init" = some init)
      (ran : onStore (fun s => s.newInstance c) m = .ok i m₁) (ran₁ : bind init i m₁ = .ok f m₂) :
      Point.Grounded O ⟨n, .apply f arguments, m₂⟩ := by
    refine ⟨(bound found ran).grounded ran₁, (bound found ran).result _ _ ran₁, fun value mem => ?_⟩
    exact ((kept value mem).mono (made.steady_of_ok ran)).mono ((bound found ran).steady_of_ok ran₁)
  have initialized {init : Method} {i : Instance} {f : Closure} {m₁ m₂ : Machine}
      (same : c.arity = arguments.length) (found : c.method? "init" = some init)
      (ran : onStore (fun s => s.newInstance c) m = .ok i m₁) (ran₁ : bind init i m₁ = .ok f m₂) :=
    Grounds.through (f := fun _ => return Value.instance i)
      (R := fun value m' => Value.Grounded O m'.store value)
      (parts _ (.initializer same found ran ran₁) (initial found ran ran₁)).1
      fun _ m₃ _ grounded₃ steady _ => by
        have receiver := (made.result _ _ ran).2.mono ((bound found ran).steady_of_ok ran₁)
        exact .pure grounded₃ (receiver.mono steady)
  refine ⟨?_, ?_⟩
  · refine (grounds_checkArity grounded).bind ?_
    rintro _ _ - - - ⟨rfl, same⟩
    refine made.bind fun i m₁ ran grounded₁ _ ⟨_, receiver⟩ => ?_
    split
    · exact .pure grounded₁ receiver
    next init found =>
      exact (bound found ran).bind fun f m₂ ran₁ _ _ _ => (initialized same found ran ran₁).1
  · intro q begins
    cases begins with
    | initializer same found ran ran₁ =>
      refine ⟨initial found ran ran₁, (initialized same found ran ran₁).2.trans ?_⟩
      exact steady_of_eq (call_of_initializer same found ran ran₁)

theorem lasting_call {callee : Value}
    (attested : Attested O ⟨n + 1, .call callee line arguments, m⟩)
    (parts : ∀ q, Begins ⟨n + 1, .call callee line arguments, m⟩ q → q.Lasting O) :
    Lasting O ⟨n + 1, .call callee line arguments, m⟩ := by
  cases callee with
  | function f =>
    rintro ⟨grounded, f_grounded, kept⟩
    have inner : Point.Grounded O ⟨n, .apply f arguments, m⟩ := ⟨grounded, f_grounded, kept⟩
    refine ⟨?_, ?_⟩
    · refine (grounds_checkArity grounded).bind ?_
      rintro _ _ - - - ⟨rfl, same⟩
      exact (parts _ (.function same) inner).1
    · rintro q ⟨⟩
      next same =>
      have agreed : checkArity f.arity arguments.length line m = .ok () m :=
        checkArity_of_eq same m
      exact ⟨inner, steady_skip (f := fun _ => apply n f arguments) agreed (.refl _)⟩
  | «class» c => exact lasting_call_class parts
  | native f =>
    rintro ⟨grounded, -, kept⟩
    refine ⟨?_, by rintro _ ⟨⟩⟩
    obtain ⟨S, v, ⟨sound, -⟩, -⟩ := attested.fits
    refine (grounds_checkArity grounded).bind ?_
    rintro _ _ - - - ⟨rfl, -⟩
    exact grounds_callNative grounded sound.hosts kept
  | nil | bool _ | number _ | string _ | «instance» _ =>
    rintro ⟨grounded, -⟩
    exact ⟨.stop grounded trivial, by rintro _ ⟨⟩⟩

theorem lasting_apply {f : Closure}
    (parts : ∀ q, Begins ⟨n + 1, .apply f arguments, m⟩ q → q.Lasting O) :
    Lasting O ⟨n + 1, .apply f arguments, m⟩ := by
  rintro ⟨grounded, f_grounded, kept⟩
  have entered := grounds_activation grounded f_grounded kept
  have inner {env : Environment} {m' : Machine} (ran : activation f arguments m = .ok env m') :
      Point.Grounded O ⟨n, .executeAll f.declaration.body, { m' with environment := env }⟩ :=
    ⟨(entered.grounded ran).congr rfl, entered.result _ _ ran, f_grounded.formed.body⟩
  have rest {env : Environment} {m' : Machine} (ran : activation f arguments m = .ok env m') :=
    Grounds.through (f := callResult f) (R := fun value m' => value.Grounded O m'.store)
      ((parts _ (.applied ran) (inner ran)).1.within
        (R := fun completion m' => completion.Grounded O m'.store) fun _ _ h => h)
      fun completion m₂ _ grounded₂ _ ends => grounds_callResult grounded₂ fun value returned => by
        subst returned
        exact ends
  refine ⟨entered.bind fun env m' ran _ _ _ => (rest ran).1, fun q begins => ?_⟩
  cases begins with
  | applied ran =>
    refine ⟨inner ran, steady_skip ran ?_⟩
    exact (Store.Steady.of_eq (store_ending_within _ (executeAll n f.declaration.body) _)).trans
      (rest ran).2

end

-- Whole runs.

theorem lasting_execute {s : Stmt} (attested : Attested O ⟨n + 1, .execute s, m⟩)
    (parts : ∀ q, Begins ⟨n + 1, .execute s, m⟩ q → q.Lasting O) :
    Lasting O ⟨n + 1, .execute s, m⟩ := by
  cases s with
  | expression e => exact lasting_expression parts
  | print e => exact lasting_print parts
  | varDecl name initial => exact lasting_varDecl parts
  | block body => exact lasting_block parts
  | ifElse condition consequent alternative => exact lasting_ifElse parts
  | loop condition body step => exact lasting_loop parts
  | funDecl f => exact lasting_funDecl attested
  | classDecl name above methods => exact lasting_classDecl attested
  | returning line value => exact lasting_returning parts
  | jump kind =>
    rintro ⟨grounded, -⟩
    exact ⟨.pure grounded trivial, by rintro _ ⟨⟩⟩

theorem lasting_program {body : List Stmt}
    (parts : ∀ q, Begins ⟨n, .program body, m⟩ q → q.Lasting O) :
    Lasting O ⟨n, .program body, m⟩ := by
  rintro ⟨grounded, placed, formed⟩
  cases body with
  | nil => exact ⟨.pure grounded trivial, by rintro _ ⟨⟩⟩
  | cons s rest =>
    have head : Point.Grounded O ⟨n, .execute s, m⟩ := ⟨grounded, placed, formed.1⟩
    have first := (parts _ .programHead head).1
    have tail {completion : Completion} {m' : Machine} (ran : execute n s m = .ok completion m') :
        Point.Grounded O ⟨n, .program rest, m'⟩ :=
      ⟨first.grounded ran, placed.executed (first.steady_of_ok ran) ran, formed.2⟩
    have whole : Contains O ⟨n, .program (s :: rest), m⟩ ⟨n, .execute s, m⟩ :=
      Grounds.through first fun _ _ ran _ _ _ => (parts _ (.programTail ran) (tail ran)).1
    refine ⟨whole.1, fun q begins => ?_⟩
    cases begins with
    | programHead => exact ⟨head, whole.2⟩
    | programTail ran =>
      exact ⟨tail ran, steady_skip (f := fun _ => executeProgram n rest) ran (.refl _)⟩

theorem lasting_exhausted {task : Task} (part : ∀ body, task ≠ .program body) :
    Lasting O ⟨0, task, m⟩ := by
  rintro ⟨grounded, -⟩
  refine ⟨?_, fun q begins => ?_⟩
  · cases task with
    | program body => exact absurd rfl (part body)
    | _ => exact .throw grounded trivial
  · cases begins with
    | programHead => exact absurd rfl (part _)
    | programTail => exact absurd rfl (part _)

theorem lasting_of_begins (p : Point) (attested : p.Attested O)
    (parts : ∀ q, Begins p q → q.Lasting O) : p.Lasting O := by
  obtain ⟨depth, task, m⟩ := p
  cases task with
  | program body => exact lasting_program parts
  | _ =>
    cases depth with
    | zero => exact lasting_exhausted nofun
    | succ n => first
      | exact lasting_execute attested parts
      | exact lasting_executeAll parts
      | exact lasting_iterate parts
      | exact lasting_evaluate attested parts
      | exact lasting_evaluateAll parts
      | exact lasting_call attested parts
      | exact lasting_apply parts

namespace Point

def Witnessed (O : Origins) (p : Point) : Prop := ∀ q, Reaches p q → q.Attested O

theorem lasting_of_witnessed (p : Point) : p.Witnessed O → p.Lasting O := by
  induction p using Begins.induction with
  | point p ih =>
    intro witnessed
    refine lasting_of_begins p (witnessed p .refl) fun q begins => ih q begins fun q' later => ?_
    exact witnessed q' (.of_begins begins later)

theorem grounded_of_reaches {p q : Point} (witnessed : p.Witnessed O) (grounded : p.Grounded O)
    (reaches : Reaches p q) : q.Grounded O ∧ q.Grounds O ∧ q.after.Steady p.after := by
  have inner {q : Point} (reached : Reaches p q) : q.Lasting O :=
    lasting_of_witnessed q fun q' later => witnessed q' (reached.trans later)
  induction reaches with
  | refl => exact ⟨grounded, (inner .refl grounded).1, .refl _⟩
  | @next q q' before begins ih =>
    obtain ⟨q_grounded, -, steady⟩ := ih
    obtain ⟨q'_grounded, steady'⟩ := (inner before q_grounded).2 q' begins
    exact ⟨q'_grounded, (inner (before.next begins) q'_grounded).1, steady'.trans steady⟩

end Point

end ScopeScript
