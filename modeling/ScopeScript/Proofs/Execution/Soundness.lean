import ScopeScript.Proofs.Execution.ControlFlow
import ScopeScript.Proofs.Execution.Effects

set_option autoImplicit false

namespace ScopeScript

open Run

structure View where
  frames : List Frame
  fresh : Option String
  inFunction : Bool
  inLoop : Bool

namespace View

def topLevel : View := ⟨[], none, false, false⟩

def reading (v : View) (fresh : Option String) : View := ⟨v.frames, fresh, v.inFunction, false⟩

def within (v : View) (frame : Frame) : View := { v with frames := frame :: v.frames }

def behind (v : View) (s : Stmt) : View := { v with frames := Frame.declare s.declares v.frames }

def iterating (v : View) : View := { v with inLoop := true }

def called (f : FunctionDecl) (frames : List Frame) : View :=
  ⟨Frame.ofCall f frames, none, true, false⟩

end View

variable {S : Setting} {v : View} {n line : Nat} {m : Machine}

def Completion.Sound (S : Setting) (v : View) (m : Machine) : Completion → Prop
  | .normal => True
  | .returned value => v.inFunction = true ∧ value.Sound S m.store
  | .jumped _ => v.inLoop = true

def Task.Fits (S : Setting) (v : View) (m : Machine) : Task → Prop
  | .program body =>
    v = .topLevel ∧ Mirrors S m.store m.environment.chain [] ∧
      S.Knows (Stmt.occurrencesAll [] body) ∧ Stmt.AllEnclosed false false body
  | .execute s =>
    Mirrors S m.store m.environment.chain v.frames ∧ S.Knows (s.occurrences v.frames) ∧
      s.Enclosed v.inFunction v.inLoop
  | .executeAll body =>
    Mirrors S m.store m.environment.chain v.frames ∧ S.Knows (Stmt.occurrencesAll v.frames body) ∧
      Stmt.AllEnclosed v.inFunction v.inLoop body
  | .iterate condition body step =>
    Mirrors S m.store m.environment.chain v.frames ∧
      S.Knows ((Stmt.loop condition body step).occurrences v.frames) ∧
      body.Enclosed v.inFunction true
  | .evaluate e =>
    Mirrors S m.store m.environment.chain v.frames ∧ S.Knows (e.occurrences v.frames v.fresh)
  | .evaluateAll es =>
    Mirrors S m.store m.environment.chain v.frames ∧
      S.Knows (Expr.occurrencesAll v.frames v.fresh es)
  | .call callee _ arguments =>
    callee.Sound S m.store ∧ ∀ value ∈ arguments, value.Sound S m.store
  | .apply f arguments =>
    f.Sound S m.store ∧ f.arity = arguments.length ∧ ∀ value ∈ arguments, value.Sound S m.store

namespace Point

def Fits (S : Setting) (v : View) (p : Point) : Prop :=
  p.machine.Sound S ∧ p.task.Fits S v p.machine

def Finishes (S : Setting) (v : View) : Point → Prop
  | ⟨n, .program body, m⟩ => Ensures S (executeProgram n body) m fun _ _ => True
  | ⟨n, .execute s, m⟩ => Ensures S (execute n s) m fun completion m' =>
    completion.Sound S v m' ∧ (completion = .normal →
      Mirrors S m'.store m'.environment.chain (v.behind s).frames)
  | ⟨n, .executeAll body, m⟩ => Ensures S (executeAll n body) m fun completion m' =>
    completion.Sound S v m'
  | ⟨n, .iterate condition body step, m⟩ =>
    Ensures S (iterate n condition body step) m fun completion m' =>
      completion.Sound S { v with inLoop := false } m'
  | ⟨n, .evaluate e, m⟩ => Ensures S (evaluate n e) m fun value m' => value.Sound S m'.store
  | ⟨n, .evaluateAll es, m⟩ => Ensures S (evaluateAll n es) m fun values m' =>
    ∀ value ∈ values, value.Sound S m'.store
  | ⟨n, .call callee line arguments, m⟩ =>
    Ensures S (call n callee line arguments) m fun value m' => value.Sound S m'.store
  | ⟨n, .apply f arguments, m⟩ => Ensures S (apply n f arguments) m fun value m' =>
    value.Sound S m'.store

end Point

def Inherits (p : Point) (v : View) (q : Point) (w : View) : Prop :=
  w.inLoop = true →
    q.task.IsStatement ∧ (p.task.IsIterate ∨ p.task.IsStatement ∧ v.inLoop = true)

theorem Inherits.outside {p q : Point} {w : View} (outside : w.inLoop = false) :
    Inherits p v q w := by
  intro inside
  rw [outside] at inside
  cases inside

namespace Point

def Stable (S : Setting) (p : Point) : Prop :=
  ∀ v, p.Fits S v → p.Finishes S v ∧ ∀ q, Begins p q → ∃ w, q.Fits S w ∧ Inherits p v q w

def Opened (S : Setting) (p : Point) : Prop :=
  ∀ address site, Opens p address site → S.activated address site

variable {p q : Point}

theorem Stable.finishes {w : View} (h : q.Stable S) (fits : q.Fits S w) : q.Finishes S w :=
  (h w fits).1

theorem finishes_of_declares_eq_nil {s : Stmt} (nothing : s.declares = [])
    (mirrors : Mirrors S m.store m.environment.chain v.frames)
    (h : Ensures S (execute n s) m fun completion m' => completion.Sound S v m') :
    Finishes S v ⟨n, .execute s, m⟩ := by
  refine ⟨h.1, fun completion m' ran => ⟨h.2 completion m' ran, fun _ => ?_⟩⟩
  have same : (v.behind s).frames = v.frames := Frame.declare_of_declares_eq_nil nothing _
  exact same ▸ mirrors.kept ((keeps_execute n s).of_ok ran)

end Point

open Point

-- Statements.

section

variable {s : Stmt} {e : Expr} {body rest : List Stmt} {name : Name}

theorem stable_expression
    (parts : ∀ q, Begins ⟨n + 1, .execute (.expression e), m⟩ q → q.Stable S) :
    Stable S ⟨n + 1, .execute (.expression e), m⟩ := by
  rintro v ⟨sound, mirrors, knows, -⟩
  have inner : Fits S (v.reading none) ⟨n, .evaluate e, m⟩ := ⟨sound, mirrors, knows⟩
  refine ⟨finishes_of_declares_eq_nil rfl mirrors ?_, ?_⟩
  · exact ((parts _ .expression).finishes inner).bind fun _ _ _ sound' _ => .pure sound' trivial
  · rintro q ⟨⟩
    exact ⟨_, inner, .outside rfl⟩

theorem stable_print (parts : ∀ q, Begins ⟨n + 1, .execute (.print e), m⟩ q → q.Stable S) :
    Stable S ⟨n + 1, .execute (.print e), m⟩ := by
  rintro v ⟨sound, mirrors, knows, -⟩
  have inner : Fits S (v.reading none) ⟨n, .evaluate e, m⟩ := ⟨sound, mirrors, knows⟩
  refine ⟨finishes_of_declares_eq_nil rfl mirrors ?_, ?_⟩
  · refine ((parts _ .print).finishes inner).bind fun _ _ _ sound₁ _ => ?_
    exact (ensures_printLine sound₁).bind fun _ _ _ sound₂ _ => .pure sound₂ trivial
  · rintro q ⟨⟩
    exact ⟨_, inner, .outside rfl⟩

theorem stable_varDecl {initial : Option Expr}
    (parts : ∀ q, Begins ⟨n + 1, .execute (.varDecl name initial), m⟩ q → q.Stable S) :
    Stable S ⟨n + 1, .execute (.varDecl name initial), m⟩ := by
  rintro v ⟨sound, mirrors, knows, -⟩
  have rest {m' : Machine} {value : Value} (sound' : m'.Sound S)
      (mirrors' : Mirrors S m'.store m'.environment.chain v.frames)
      (kept : value.Sound S m'.store) :
      Ensures S (do define name.text value; return Completion.normal) m' fun completion m'' =>
        completion.Sound S v m'' ∧ (completion = .normal →
          Mirrors S m''.store m''.environment.chain (Frame.declare [name.text] v.frames)) := by
    have later := kept.mono (m'.store.grows_define m'.environment name.text value)
    refine (ensures_define (Q := fun _ m'' =>
      Mirrors S m''.store m''.environment.chain (Frame.declare [name.text] v.frames)) sound' later
      (mirrors'.define name.text value)).bind fun _ m'' _ sound'' bound => ?_
    exact .pure sound'' ⟨trivial, fun _ => bound⟩
  cases initial with
  | none => exact ⟨rest sound mirrors trivial, by rintro _ ⟨⟩⟩
  | some e =>
    have inner : Fits S (v.reading (some name.text)) ⟨n, .evaluate e, m⟩ := ⟨sound, mirrors, knows⟩
    refine ⟨?_, ?_⟩
    · refine ((parts _ .initial).finishes inner).bind fun value m' ran sound' kept => ?_
      exact rest sound' (mirrors.kept ((keeps_evaluate n e).of_ok ran)) kept
    · rintro q ⟨⟩
      exact ⟨_, inner, .outside rfl⟩

theorem stable_block
    (parts : ∀ q, Begins ⟨n + 1, .execute (.block body), m⟩ q → q.Stable S)
    (opened : Opened S ⟨n + 1, .execute (.block body), m⟩) :
    Stable S ⟨n + 1, .execute (.block body), m⟩ := by
  rintro v ⟨sound, mirrors, knows, enclosed⟩
  have inner : Fits S (v.within ⟨.block body, []⟩) ⟨n, .executeAll body, { m with
      store := (m.store.enclose m.environment).2
      environment := (m.store.enclose m.environment).1 }⟩ :=
    ⟨(sound.enclose m.environment).environment _, mirrors.enclose (opened _ _ .block), knows,
      enclosed⟩
  refine ⟨finishes_of_declares_eq_nil rfl mirrors ?_, ?_⟩
  · refine Ensures.bind (Ensures.of_eq (p := newScope) (Q := fun env m' =>
      env = (m.store.enclose m.environment).1 ∧
        m' = { m with store := (m.store.enclose m.environment).2 }) rfl
        (sound.enclose m.environment) ⟨rfl, rfl⟩) ?_
    rintro _ _ - - ⟨rfl, rfl⟩
    refine ((parts _ (.block rfl)).finishes inner).within fun completion m' h => ?_
    cases completion <;> exact h
  · rintro q ⟨⟩
    next ran =>
    cases ran
    exact ⟨_, inner, fun inLoop => ⟨trivial, .inr ⟨trivial, inLoop⟩⟩⟩

theorem stable_ifElse {alternative : Option Stmt}
    (parts : ∀ q, Begins ⟨n + 1, .execute (.ifElse e s alternative), m⟩ q → q.Stable S) :
    Stable S ⟨n + 1, .execute (.ifElse e s alternative), m⟩ := by
  rintro v ⟨sound, mirrors, knows, enclosed⟩
  have condition : Fits S (v.reading none) ⟨n, .evaluate e, m⟩ := by
    refine ⟨sound, mirrors, ?_⟩
    cases alternative <;> exact knows.left
  have consequent {value : Value} {m' : Machine} (ran : evaluate n e m = .ok value m') :
      Fits S v ⟨n, .execute s, m'⟩ := by
    have mirrors' := mirrors.kept ((keeps_evaluate n e).of_ok ran)
    refine ⟨(((parts _ .choice).finishes condition).ok ran).1, mirrors', ?_⟩
    cases alternative with
    | none => exact ⟨knows.right, enclosed⟩
    | some _ => exact ⟨knows.right.left, enclosed.1⟩
  have alternate {value : Value} {m' : Machine} (ran : evaluate n e m = .ok value m')
      {other : Stmt} (present : alternative = some other) : Fits S v ⟨n, .execute other, m'⟩ := by
    have mirrors' := mirrors.kept ((keeps_evaluate n e).of_ok ran)
    subst present
    exact ⟨(((parts _ .choice).finishes condition).ok ran).1, mirrors', knows.right.right,
      enclosed.2⟩
  refine ⟨finishes_of_declares_eq_nil rfl mirrors ?_, ?_⟩
  · refine ((parts _ .choice).finishes condition).bind fun value m' ran sound' _ => ?_
    split
    next holds =>
      exact ((parts _ (.consequent ran holds)).finishes (consequent ran)).weaken fun _ _ h => h.1
    next fails =>
      cases alternative with
      | none => exact .pure sound' trivial
      | some other =>
        have fails : value.isTruthy = false := by simpa using fails
        exact ((parts _ (.alternative ran fails)).finishes (alternate ran rfl)).weaken
          fun _ _ h => h.1
  · intro q begins
    cases begins with
    | choice => exact ⟨_, condition, .outside rfl⟩
    | consequent ran holds =>
      exact ⟨v, consequent ran, fun inLoop => ⟨trivial, .inr ⟨trivial, inLoop⟩⟩⟩
    | alternative ran fails =>
      exact ⟨v, alternate ran rfl, fun inLoop => ⟨trivial, .inr ⟨trivial, inLoop⟩⟩⟩

theorem stable_loop {step : Option Expr}
    (parts : ∀ q, Begins ⟨n + 1, .execute (.loop e s step), m⟩ q → q.Stable S) :
    Stable S ⟨n + 1, .execute (.loop e s step), m⟩ := by
  rintro v ⟨sound, mirrors, knows, enclosed⟩
  have inner : Fits S { v with inLoop := false } ⟨n, .iterate e s step, m⟩ :=
    ⟨sound, mirrors, knows, enclosed⟩
  refine ⟨finishes_of_declares_eq_nil rfl mirrors ?_, ?_⟩
  · refine ((parts _ .loop).finishes inner).weaken fun completion m' h => ?_
    cases completion with
    | normal => trivial
    | returned value => exact h
    | jumped kind => cases h
  · rintro q ⟨⟩
    exact ⟨_, inner, .outside rfl⟩

theorem stable_funDecl {f : FunctionDecl} : Stable S ⟨n + 1, .execute (.funDecl f), m⟩ := by
  rintro v ⟨sound, mirrors, knows, enclosed⟩
  refine ⟨?_, by rintro _ ⟨⟩⟩
  refine Ensures.bind (Ensures.of_eq (p := closure f) (Q := fun f' m' =>
    f' = ⟨m.store.identities, f, m.environment, false⟩ ∧
      m' = { m with store := m.store.newIdentity.2 }) rfl sound.newIdentity ⟨rfl, rfl⟩) ?_
  rintro _ _ - sound₁ ⟨rfl, rfl⟩
  have bound := (mirrors.mono m.store.grows_newIdentity).define f.name.text
    (.function ⟨m.store.identities, f, m.environment, false⟩)
  -- The closure sees its own name, so it is sound only in the store that has it.
  have runs : (Value.function ⟨m.store.identities, f, m.environment, false⟩).Sound S
      (m.store.newIdentity.2.define m.environment f.name.text
        (.function ⟨m.store.identities, f, m.environment, false⟩)) :=
    ⟨enclosed, _, bound, knows⟩
  refine (ensures_define (Q := fun _ m' =>
    Mirrors S m'.store m'.environment.chain (Frame.declare [f.name.text] v.frames)) sound₁
    runs bound).bind fun _ m₂ _ sound₂ bound₂ => ?_
  exact .pure sound₂ ⟨trivial, fun _ => bound₂⟩

theorem stable_classDecl {above : Option Reference} {methods : List FunctionDecl}
    (opened : Opened S ⟨n + 1, .execute (.classDecl name above methods), m⟩) :
    Stable S ⟨n + 1, .execute (.classDecl name above methods), m⟩ := by
  rintro v ⟨sound, mirrors, knows, enclosed⟩
  refine ⟨?_, by rintro _ ⟨⟩⟩
  refine (ensures_declareClass sound mirrors knows.right enclosed ?_).bind
    fun _ m' _ sound' bound => .pure sound' ⟨trivial, fun _ => bound⟩
  rintro r c rfl ran
  exact opened _ _ (.superclass ran)

theorem stable_returning {value : Option Expr}
    (parts : ∀ q, Begins ⟨n + 1, .execute (.returning line value), m⟩ q → q.Stable S) :
    Stable S ⟨n + 1, .execute (.returning line value), m⟩ := by
  rintro v ⟨sound, mirrors, knows, inFunction⟩
  cases value with
  | none =>
    exact ⟨finishes_of_declares_eq_nil rfl mirrors (.pure sound ⟨inFunction, trivial⟩),
      by rintro _ ⟨⟩⟩
  | some e =>
    have inner : Fits S (v.reading none) ⟨n, .evaluate e, m⟩ := ⟨sound, mirrors, knows⟩
    refine ⟨finishes_of_declares_eq_nil rfl mirrors ?_, ?_⟩
    · exact ((parts _ .returned).finishes inner).bind fun _ _ _ sound' kept =>
        .pure sound' ⟨inFunction, kept⟩
    · rintro q ⟨⟩
      exact ⟨_, inner, .outside rfl⟩

theorem stable_jump {kind : Jump} : Stable S ⟨n + 1, .execute (.jump kind), m⟩ := by
  rintro v ⟨sound, mirrors, -, inLoop⟩
  exact ⟨finishes_of_declares_eq_nil rfl mirrors (.pure sound inLoop), by rintro _ ⟨⟩⟩

theorem stable_executeAll
    (parts : ∀ q, Begins ⟨n + 1, .executeAll body, m⟩ q → q.Stable S) :
    Stable S ⟨n + 1, .executeAll body, m⟩ := by
  rintro v ⟨sound, mirrors, knows, enclosed⟩
  cases body with
  | nil => exact ⟨.pure sound trivial, by rintro _ ⟨⟩⟩
  | cons s rest =>
    have head : Fits S v ⟨n, .execute s, m⟩ := ⟨sound, mirrors, knows.left, enclosed.1⟩
    have tail {m' : Machine} (ran : execute n s m = .ok .normal m') :
        Fits S (v.behind s) ⟨n, .executeAll rest, m'⟩ := by
      have finished := ((parts _ .head).finishes head).ok ran
      exact ⟨finished.1, finished.2.2 rfl, knows.right, enclosed.2⟩
    refine ⟨?_, ?_⟩
    · refine ((parts _ .head).finishes head).bind fun completion m' ran sound' ends => ?_
      cases completion with
      | normal =>
        refine ((parts _ (.tail ran)).finishes (tail ran)).weaken fun completion m'' h => ?_
        cases completion <;> exact h
      | returned value => exact .pure sound' ends.1
      | jumped kind => exact .pure sound' ends.1
    · intro q begins
      cases begins with
      | head => exact ⟨v, head, fun inLoop => ⟨trivial, .inr ⟨trivial, inLoop⟩⟩⟩
      | tail ran => exact ⟨_, tail ran, fun inLoop => ⟨trivial, .inr ⟨trivial, inLoop⟩⟩⟩

theorem stable_iterate {step : Option Expr}
    (parts : ∀ q, Begins ⟨n + 1, .iterate e s step, m⟩ q → q.Stable S) :
    Stable S ⟨n + 1, .iterate e s step, m⟩ := by
  rintro v ⟨sound, mirrors, knows, enclosed⟩
  have test : Fits S (v.reading none) ⟨n, .evaluate e, m⟩ := ⟨sound, mirrors, knows.left⟩
  have body {value : Value} {m₁ : Machine} (ran : evaluate n e m = .ok value m₁) :
      Fits S v.iterating ⟨n, .execute s, m₁⟩ :=
    ⟨(((parts _ .test).finishes test).ok ran).1, mirrors.kept ((keeps_evaluate n e).of_ok ran),
      knows.right.left, enclosed⟩
  have behind {value : Value} {completion : Completion} {m₁ m₂ : Machine}
      (ran : evaluate n e m = .ok value m₁) (holds : value.isTruthy = true)
      (ran₁ : execute n s m₁ = .ok completion m₂) :
      m₂.Sound S ∧ Mirrors S m₂.store m₂.environment.chain v.frames :=
    ⟨(((parts _ (.body ran holds)).finishes (body ran)).ok ran₁).1,
      (mirrors.kept ((keeps_evaluate n e).of_ok ran)).kept ((keeps_execute n s).of_ok ran₁)⟩
  have stepped {value : Value} {completion : Completion} {m₁ m₂ : Machine} {e' : Expr}
      (present : step = some e') (ran : evaluate n e m = .ok value m₁)
      (holds : value.isTruthy = true) (ran₁ : execute n s m₁ = .ok completion m₂) :
      Fits S (v.reading none) ⟨n, .evaluate e', m₂⟩ := by
    subst present
    exact ⟨(behind ran holds ran₁).1, (behind ran holds ran₁).2, knows.right.right⟩
  have again {m' : Machine} (sound' : m'.Sound S)
      (mirrors' : Mirrors S m'.store m'.environment.chain v.frames) :
      Fits S { v with inLoop := false } ⟨n, .iterate e s step, m'⟩ :=
    ⟨sound', mirrors', knows, enclosed⟩
  refine ⟨?_, ?_⟩
  · change Ensures S (iterate (n + 1) e s step) m _
    unfold iterate
    refine ((parts _ .test).finishes test).bind fun value m₁ ran sound₁ _ => ?_
    split
    next holds =>
      refine ((parts _ (.body ran holds)).finishes (body ran)).bind
        fun completion m₂ ran₁ sound₂ ends => ?_
      have mirrors₂ := (behind ran holds ran₁).2
      have repeats (goesOn : completion = .normal ∨ completion = .jumped .next) :
          Ensures S (afterJump n e s step .next) m₂ fun completion m' =>
            completion.Sound S { v with inLoop := false } m' := by
        cases step with
        | none =>
          exact (parts _ (.again ran holds ran₁ goesOn)).finishes (again sound₂ mirrors₂)
        | some e' =>
          refine ((parts _ (.step ran holds ran₁ goesOn)).finishes
            (stepped rfl ran holds ran₁)).bind fun value' m₃ ran₂ sound₃ _ => ?_
          have mirrors₃ := mirrors₂.kept ((keeps_evaluate n e').of_ok ran₂)
          exact (parts _ (.againStepped ran holds ran₁ goesOn ran₂)).finishes
            (again sound₃ mirrors₃)
      cases completion with
      | normal => exact repeats (.inl rfl)
      | returned value => exact .pure sound₂ ends.1
      | jumped kind =>
        cases kind with
        | leave => exact .pure sound₂ trivial
        | next => exact repeats (.inr rfl)
    · exact .pure sound₁ trivial
  · intro q begins
    cases begins with
    | test => exact ⟨_, test, .outside rfl⟩
    | body ran holds => exact ⟨_, body ran, fun _ => ⟨trivial, .inl trivial⟩⟩
    | step ran holds ran₁ goesOn => exact ⟨_, stepped rfl ran holds ran₁, .outside rfl⟩
    | again ran holds ran₁ goesOn =>
      have known := behind ran holds ran₁
      exact ⟨_, again known.1 known.2, .outside rfl⟩
    | againStepped ran holds ran₁ goesOn ran₂ =>
      have known := (parts _ (.step ran holds ran₁ goesOn)).finishes (stepped rfl ran holds ran₁)
      have mirrors₂ := (behind ran holds ran₁).2
      exact ⟨_, again (known.ok ran₂).1 (mirrors₂.kept ((keeps_evaluate n _).of_ok ran₂)),
        .outside rfl⟩

end

-- Expressions.

section

variable {e left right : Expr} {es : List Expr} {r : Reference} {name : Name}

theorem stable_grouping
    (parts : ∀ q, Begins ⟨n + 1, .evaluate (.grouping e), m⟩ q → q.Stable S) :
    Stable S ⟨n + 1, .evaluate (.grouping e), m⟩ := by
  rintro v ⟨sound, mirrors, knows⟩
  have inner : Fits S { v with inLoop := false } ⟨n, .evaluate e, m⟩ := ⟨sound, mirrors, knows⟩
  refine ⟨(parts _ .grouping).finishes inner, ?_⟩
  rintro q ⟨⟩
  exact ⟨_, inner, .outside rfl⟩

theorem UnaryOp.apply_plain {op : UnaryOp} {value result : Value}
    (h : op.apply value = .ok result) :
    result.Plain := by
  unfold UnaryOp.apply at h
  split at h
  · cases h
    trivial
  · cases h
    trivial
  · cases h

theorem Value.onNumbers_plain {f : Float → Float → Value} (plain : ∀ x y, (f x y).Plain)
    {a b result : Value} (h : Value.onNumbers f a b = .ok result) : result.Plain := by
  unfold Value.onNumbers at h
  split at h
  · cases h
    exact plain _ _
  · cases h

theorem BinaryOp.apply_plain {op : BinaryOp} {a b result : Value} (h : op.apply a b = .ok result) :
    result.Plain := by
  cases op with
  | add =>
    simp only [BinaryOp.apply, Value.plus] at h
    split at h
    all_goals
      cases h
      try trivial
  | equal | notEqual =>
    cases h
    trivial
  | _ => exact Value.onNumbers_plain (by intro x y; trivial) h

theorem stable_unary {op : UnaryOp}
    (parts : ∀ q, Begins ⟨n + 1, .evaluate (.unary op line e), m⟩ q → q.Stable S) :
    Stable S ⟨n + 1, .evaluate (.unary op line e), m⟩ := by
  rintro v ⟨sound, mirrors, knows⟩
  have inner : Fits S { v with inLoop := false } ⟨n, .evaluate e, m⟩ := ⟨sound, mirrors, knows⟩
  refine ⟨?_, ?_⟩
  · exact ((parts _ .operand).finishes inner).bind fun _ _ _ sound' _ =>
      .ofOperation sound' fun _ h => (UnaryOp.apply_plain h).sound
  · rintro q ⟨⟩
    exact ⟨_, inner, .outside rfl⟩

theorem stable_binary {op : BinaryOp}
    (parts : ∀ q, Begins ⟨n + 1, .evaluate (.binary op line left right), m⟩ q → q.Stable S) :
    Stable S ⟨n + 1, .evaluate (.binary op line left right), m⟩ := by
  rintro v ⟨sound, mirrors, knows⟩
  have first : Fits S { v with inLoop := false } ⟨n, .evaluate left, m⟩ :=
    ⟨sound, mirrors, knows.left⟩
  have second {value : Value} {m' : Machine} (ran : evaluate n left m = .ok value m') :
      Fits S { v with inLoop := false } ⟨n, .evaluate right, m'⟩ :=
    ⟨(((parts _ .left).finishes first).ok ran).1,
      mirrors.kept ((keeps_evaluate n left).of_ok ran), knows.right⟩
  refine ⟨?_, ?_⟩
  · refine ((parts _ .left).finishes first).bind fun a m₁ ran _ _ => ?_
    exact ((parts _ (.right ran)).finishes (second ran)).bind fun b m₂ _ sound₂ _ =>
      .ofOperation sound₂ fun _ h => (BinaryOp.apply_plain h).sound
  · intro q begins
    cases begins with
    | left => exact ⟨_, first, .outside rfl⟩
    | right ran => exact ⟨_, second ran, .outside rfl⟩

theorem stable_logical {op : LogicalOp}
    (parts : ∀ q, Begins ⟨n + 1, .evaluate (.logical op left right), m⟩ q → q.Stable S) :
    Stable S ⟨n + 1, .evaluate (.logical op left right), m⟩ := by
  rintro v ⟨sound, mirrors, knows⟩
  have first : Fits S { v with inLoop := false } ⟨n, .evaluate left, m⟩ :=
    ⟨sound, mirrors, knows.left⟩
  have second {value : Value} {m' : Machine} (ran : evaluate n left m = .ok value m') :
      Fits S { v with inLoop := false } ⟨n, .evaluate right, m'⟩ :=
    ⟨(((parts _ .decision).finishes first).ok ran).1,
      mirrors.kept ((keeps_evaluate n left).of_ok ran), knows.right⟩
  refine ⟨?_, ?_⟩
  · change Ensures S (evaluate (n + 1) (.logical op left right)) m _
    unfold evaluate
    refine ((parts _ .decision).finishes first).bind fun value m' ran sound' kept => ?_
    have other (open' : value.isTruthy = (op == .and)) :=
      (parts _ (.undecided ran open')).finishes (second ran)
    cases op with
    | or =>
      simp only
      split
      · exact .pure sound' kept
      next fails => exact other (eq_false_of_ne_true fails)
    | and =>
      simp only
      split
      · exact .pure sound' kept
      next holds => exact other (by simpa using holds)
  · intro q begins
    cases begins with
    | decision => exact ⟨_, first, .outside rfl⟩
    | undecided ran => exact ⟨_, second ran, .outside rfl⟩

theorem stable_assign
    (parts : ∀ q, Begins ⟨n + 1, .evaluate (.assign r e), m⟩ q → q.Stable S) :
    Stable S ⟨n + 1, .evaluate (.assign r e), m⟩ := by
  rintro v ⟨sound, mirrors, knows⟩
  have inner : Fits S { v with inLoop := false } ⟨n, .evaluate e, m⟩ :=
    ⟨sound, mirrors, fun o mem => knows o (.tail _ mem)⟩
  refine ⟨?_, ?_⟩
  · refine ((parts _ .assigned).finishes inner).bind fun value m₁ _ sound₁ kept => ?_
    exact (ensures_assign sound₁ kept).bind fun _ m₂ ran sound₂ _ =>
      .pure sound₂ (kept.mono (Keeps.assign.of_ok ran).store)
  · rintro q ⟨⟩
    exact ⟨_, inner, .outside rfl⟩

theorem stable_call_expression
    (parts : ∀ q, Begins ⟨n + 1, .evaluate (.call e line es), m⟩ q → q.Stable S) :
    Stable S ⟨n + 1, .evaluate (.call e line es), m⟩ := by
  rintro v ⟨sound, mirrors, knows⟩
  have callee : Fits S { v with inLoop := false } ⟨n, .evaluate e, m⟩ :=
    ⟨sound, mirrors, knows.left⟩
  have arguments {value : Value} {m' : Machine} (ran : evaluate n e m = .ok value m') :
      Fits S { v with inLoop := false } ⟨n, .evaluateAll es, m'⟩ :=
    ⟨(((parts _ .callee).finishes callee).ok ran).1,
      mirrors.kept ((keeps_evaluate n e).of_ok ran), knows.right⟩
  have called {value : Value} {values : List Value} {m₁ m₂ : Machine}
      (ran : evaluate n e m = .ok value m₁) (ran₁ : evaluateAll n es m₁ = .ok values m₂) :
      Fits S { v with inLoop := false } ⟨n, .call value line values, m₂⟩ := by
    have first := ((parts _ .callee).finishes callee).ok ran
    have second := ((parts _ (.arguments ran)).finishes (arguments ran)).ok ran₁
    exact ⟨second.1, first.2.mono ((keeps_evaluateAll n es).of_ok ran₁).store, second.2⟩
  refine ⟨?_, ?_⟩
  · refine ((parts _ .callee).finishes callee).bind fun value m₁ ran _ _ => ?_
    refine ((parts _ (.arguments ran)).finishes (arguments ran)).bind fun values m₂ ran₁ _ _ => ?_
    exact (parts _ (.called ran ran₁)).finishes (called ran ran₁)
  · intro q begins
    cases begins with
    | callee => exact ⟨_, callee, .outside rfl⟩
    | arguments ran => exact ⟨_, arguments ran, .outside rfl⟩
    | called ran ran₁ => exact ⟨_, called ran ran₁, .outside rfl⟩

theorem stable_get (parts : ∀ q, Begins ⟨n + 1, .evaluate (.get e name), m⟩ q → q.Stable S)
    (opened : Opened S ⟨n + 1, .evaluate (.get e name), m⟩) :
    Stable S ⟨n + 1, .evaluate (.get e name), m⟩ := by
  rintro v ⟨sound, mirrors, knows⟩
  have inner : Fits S { v with inLoop := false } ⟨n, .evaluate e, m⟩ := ⟨sound, mirrors, knows⟩
  refine ⟨?_, ?_⟩
  · change Ensures S (evaluate (n + 1) (.get e name)) m _
    unfold evaluate
    refine ((parts _ .owner).finishes inner).bind fun value m' ran sound' kept => ?_
    split
    · exact ensures_property sound' kept fun method missing found =>
        opened _ _ (.property ran missing found)
    · exact .stop sound'
  · rintro q ⟨⟩
    exact ⟨_, inner, .outside rfl⟩

theorem stable_set {e' : Expr}
    (parts : ∀ q, Begins ⟨n + 1, .evaluate (.set e name e'), m⟩ q → q.Stable S) :
    Stable S ⟨n + 1, .evaluate (.set e name e'), m⟩ := by
  rintro v ⟨sound, mirrors, knows⟩
  have target : Fits S { v with inLoop := false } ⟨n, .evaluate e, m⟩ :=
    ⟨sound, mirrors, knows.left⟩
  have content {i : Instance} {m' : Machine} (ran : evaluate n e m = .ok (.instance i) m') :
      Fits S { v with inLoop := false } ⟨n, .evaluate e', m'⟩ :=
    ⟨(((parts _ .target).finishes target).ok ran).1,
      mirrors.kept ((keeps_evaluate n e).of_ok ran), knows.right⟩
  refine ⟨?_, ?_⟩
  · change Ensures S (evaluate (n + 1) (.set e name e')) m _
    unfold evaluate
    refine ((parts _ .target).finishes target).bind fun value m₁ ran sound₁ _ => ?_
    split
    next i _ =>
      refine ((parts _ (.content ran)).finishes (content ran)).bind fun value m₂ _ sound₂ kept => ?_
      refine Ensures.bind (Ensures.of_eq (p := modifyStore fun s => s.setField i name.text value)
        (Q := fun _ m' => value.Sound S m'.store) rfl (sound₂.setField i kept)
        (kept.mono (m₂.store.grows_setField i _ _))) fun _ m₃ _ sound₃ kept' => ?_
      exact .pure sound₃ kept'
    · exact .stop sound₁
  · intro q begins
    cases begins with
    | target => exact ⟨_, target, .outside rfl⟩
    | content ran => exact ⟨_, content ran, .outside rfl⟩

theorem stable_evaluate (parts : ∀ q, Begins ⟨n + 1, .evaluate e, m⟩ q → q.Stable S)
    (opened : Opened S ⟨n + 1, .evaluate e, m⟩) : Stable S ⟨n + 1, .evaluate e, m⟩ := by
  cases e with
  | literal value =>
    refine fun v fits => ⟨?_, by rintro _ ⟨⟩⟩
    have kept : value.toValue.Sound S m.store := Value.sound_toValue value
    exact Ensures.of_eq (p := evaluate (n + 1) (.literal value)) rfl fits.1 kept
  | grouping inner => exact stable_grouping parts
  | unary op line operand => exact stable_unary parts
  | binary op line left right => exact stable_binary parts
  | logical op left right => exact stable_logical parts
  | var r =>
    refine fun v fits => ⟨(ensures_lookUp fits.1).weaken ?_, by rintro _ ⟨⟩⟩
    rintro value _ ⟨rfl, kept⟩
    exact kept
  | assign r value => exact stable_assign parts
  | call callee line arguments => exact stable_call_expression parts
  | get object name => exact stable_get parts opened
  | set object name value => exact stable_set parts
  | self r =>
    refine fun v fits => ⟨(ensures_lookUp fits.1).weaken ?_, by rintro _ ⟨⟩⟩
    rintro value _ ⟨rfl, kept⟩
    exact kept
  | super r method =>
    refine fun v fits =>
      ⟨ensures_inherited fits.1 fun distance c i method a b c' d => ?_, by rintro _ ⟨⟩⟩
    exact opened _ _ (.inherited a b c' d)

theorem stable_evaluateAll (parts : ∀ q, Begins ⟨n + 1, .evaluateAll es, m⟩ q → q.Stable S) :
    Stable S ⟨n + 1, .evaluateAll es, m⟩ := by
  rintro v ⟨sound, mirrors, knows⟩
  cases es with
  | nil => exact ⟨.pure sound (by simp), by rintro _ ⟨⟩⟩
  | cons e rest =>
    have first : Fits S { v with inLoop := false } ⟨n, .evaluate e, m⟩ :=
      ⟨sound, mirrors, knows.left⟩
    have others {value : Value} {m' : Machine} (ran : evaluate n e m = .ok value m') :
        Fits S { v with inLoop := false } ⟨n, .evaluateAll rest, m'⟩ :=
      ⟨(((parts _ .first).finishes first).ok ran).1,
        mirrors.kept ((keeps_evaluate n e).of_ok ran), knows.right⟩
    refine ⟨?_, ?_⟩
    · refine ((parts _ .first).finishes first).bind fun value m₁ ran _ kept => ?_
      refine ((parts _ (.others ran)).finishes (others ran)).bind
        fun values m₂ ran₁ sound₂ kept' => .pure sound₂ fun value' mem => ?_
      rcases List.mem_cons.mp mem with rfl | mem
      · exact kept.mono ((keeps_evaluateAll n rest).of_ok ran₁).store
      · exact kept' value' mem
    · intro q begins
      cases begins with
      | first => exact ⟨_, first, .outside rfl⟩
      | others ran => exact ⟨_, others ran, .outside rfl⟩

end

-- Calls.

section

variable {arguments : List Value}

theorem stable_call {callee : Value}
    (parts : ∀ q, Begins ⟨n + 1, .call callee line arguments, m⟩ q → q.Stable S)
    (opened : Opened S ⟨n + 1, .call callee line arguments, m⟩) :
    Stable S ⟨n + 1, .call callee line arguments, m⟩ := by
  rintro v ⟨sound, runs, kept⟩
  cases callee with
  | function f =>
    have inner (same : f.arity = arguments.length) : Fits S .topLevel ⟨n, .apply f arguments, m⟩ :=
      ⟨sound, runs, same, kept⟩
    refine ⟨?_, ?_⟩
    · refine (ensures_checkArity sound).bind ?_
      rintro _ _ - - ⟨rfl, same⟩
      exact (parts _ (.function same)).finishes (inner same)
    · intro q begins
      cases begins with
      | function same => exact ⟨_, inner same, .outside rfl⟩
  | «class» c =>
    have made := ensures_newInstance c sound
    have initial {init : Method} {i : Instance} {f : Closure} {m₁ m₂ : Machine}
        (same : c.arity = arguments.length) (found : c.method? "init" = some init)
        (ran : onStore (fun s => s.newInstance c) m = .ok i m₁) (ran₁ : bind init i m₁ = .ok f m₂) :
        Fits S .topLevel ⟨n, .apply f arguments, m₂⟩ := by
      obtain ⟨sound₁, rfl, grows, size⟩ := made.ok ran
      have bound := (ensures_bind sound₁ ((runs.mono grows).method found) (runs.mono grows)
        (size ▸ opened _ _ (.initializer same found))).ok ran₁
      refine ⟨bound.1, bound.2, ?_, fun value mem => ?_⟩
      · cases ran₁
        simpa [Closure.arity, Class.arity, found] using same
      · exact ((kept value mem).mono grows).mono
          ((closedRuns_keeps.bindMethod _ _).of_ok ran₁).store
    refine ⟨?_, ?_⟩
    · refine (ensures_checkArity sound).bind ?_
      rintro _ _ - - ⟨rfl, same⟩
      refine made.bind fun i m₁ ran sound₁ ⟨ofClass, grows, size⟩ => ?_
      subst ofClass
      have whole := runs.mono grows
      split
      · exact .pure sound₁ whole
      next init found =>
        have bound := ensures_bind sound₁ (whole.method found) whole
          (size ▸ opened _ _ (.initializer same found))
        refine bound.bind fun f m₂ ran₁ _ _ => ?_
        have whole₂ := whole.mono ((closedRuns_keeps.bindMethod _ _).of_ok ran₁).store
        refine ((parts _ (.initializer same found ran ran₁)).finishes
          (initial same found ran ran₁)).bind fun _ m₃ ran₂ sound₃ _ => ?_
        exact .pure sound₃ (whole₂.mono ((keeps_apply n f arguments).of_ok ran₂).store)
    · intro q begins
      cases begins with
      | initializer same found ran ran₁ => exact ⟨_, initial same found ran ran₁, .outside rfl⟩
  | native f =>
    refine ⟨?_, by rintro _ ⟨⟩⟩
    refine (ensures_checkArity sound).bind ?_
    rintro _ _ - sound' ⟨rfl, -⟩
    exact ensures_callNative sound' kept
  | nil | bool _ | number _ | string _ | «instance» _ => exact ⟨.stop sound, by rintro _ ⟨⟩⟩

theorem Point.Fits.applied {f : Closure} (fits : Fits S v ⟨n + 1, .apply f arguments, m⟩)
    (opened : Opened S ⟨n + 1, .apply f arguments, m⟩) :
    ∃ frames, (ending (activation f arguments m)).Sound S ∧
      ∀ {env m'}, activation f arguments m = .ok env m' → Fits S (.called f.declaration frames)
        ⟨n, .executeAll f.declaration.body, { m' with environment := env }⟩ := by
  obtain ⟨sound, ⟨enclosed, frames, mirrors, knows⟩, same, kept⟩ := fits
  have entered := ensures_activation sound same mirrors kept (opened _ _ .call)
  refine ⟨frames, entered.1, fun ran => ?_⟩
  refine ⟨(entered.ok ran).1.environment _, (entered.ok ran).2, ?_, enclosed.body⟩
  exact FunctionDecl.occurrences_eq frames f.declaration ▸ knows

theorem stable_apply {f : Closure}
    (parts : ∀ q, Begins ⟨n + 1, .apply f arguments, m⟩ q → q.Stable S)
    (opened : Opened S ⟨n + 1, .apply f arguments, m⟩) :
    Stable S ⟨n + 1, .apply f arguments, m⟩ := by
  intro v fits
  obtain ⟨frames, sound, inner⟩ := fits.applied opened
  have entered : Ensures S (activation f arguments) m fun _ _ => True :=
    ⟨sound, fun _ _ _ => trivial⟩
  refine ⟨?_, ?_⟩
  · refine entered.bind fun env m₁ ran sound₁ _ => ?_
    refine (((parts _ (.applied ran)).finishes (inner ran)).within
      (R := fun completion m' => completion.Sound S (.called f.declaration frames) m')
      fun completion m' h => ?_).bind fun completion m₂ _ sound₂ ends => ?_
    · cases completion <;> exact h
    · exact ensures_callResult sound₂ fun value returned => (returned ▸ ends : _ ∧ _).2
  · intro q begins
    cases begins with
    | applied ran => exact ⟨_, inner ran, .outside rfl⟩

end

-- Whole runs.

theorem stable_execute {s : Stmt} (parts : ∀ q, Begins ⟨n + 1, .execute s, m⟩ q → q.Stable S)
    (opened : Opened S ⟨n + 1, .execute s, m⟩) : Stable S ⟨n + 1, .execute s, m⟩ := by
  cases s with
  | expression e => exact stable_expression parts
  | print e => exact stable_print parts
  | varDecl name initial => exact stable_varDecl parts
  | block body => exact stable_block parts opened
  | ifElse condition consequent alternative => exact stable_ifElse parts
  | loop condition body step => exact stable_loop parts
  | funDecl f => exact stable_funDecl
  | classDecl name above methods => exact stable_classDecl opened
  | returning line value => exact stable_returning parts
  | jump kind => exact stable_jump

theorem stable_program {body : List Stmt}
    (parts : ∀ q, Begins ⟨n, .program body, m⟩ q → q.Stable S) :
    Stable S ⟨n, .program body, m⟩ := by
  rintro v ⟨sound, rfl, mirrors, knows, enclosed⟩
  cases body with
  | nil => exact ⟨.pure sound trivial, by rintro _ ⟨⟩⟩
  | cons s rest =>
    have head : Fits S .topLevel ⟨n, .execute s, m⟩ := ⟨sound, mirrors, knows.left, enclosed.1⟩
    have tail {completion : Completion} {m' : Machine} (ran : execute n s m = .ok completion m') :
        Fits S .topLevel ⟨n, .program rest, m'⟩ :=
      ⟨(((parts _ .programHead).finishes head).ok ran).1, rfl,
        mirrors.kept ((keeps_execute n s).of_ok ran), knows.right, enclosed.2⟩
    refine ⟨?_, ?_⟩
    · refine ((parts _ .programHead).finishes head).bind fun completion m' ran _ _ => ?_
      exact (parts _ (.programTail ran)).finishes (tail ran)
    · intro q begins
      cases begins with
      | programHead => exact ⟨_, head, .outside rfl⟩
      | programTail ran => exact ⟨_, tail ran, .outside rfl⟩

theorem stable_exhausted {task : Task} (part : ∀ body, task ≠ .program body) :
    Stable S ⟨0, task, m⟩ := by
  refine fun v fits => ⟨?_, fun q begins => ?_⟩
  · cases task with
    | program body => exact absurd rfl (part body)
    | _ => exact .throw fits.1
  · cases begins with
    | programHead => exact absurd rfl (part _)
    | programTail => exact absurd rfl (part _)

theorem stable_of_begins (p : Point) (parts : ∀ q, Begins p q → q.Stable S) (opened : p.Opened S) :
    p.Stable S := by
  obtain ⟨depth, task, m⟩ := p
  cases task with
  | program body => exact stable_program parts
  | _ =>
    cases depth with
    | zero => exact stable_exhausted nofun
    | succ n => first
      | exact stable_execute parts opened
      | exact stable_executeAll parts
      | exact stable_iterate parts
      | exact stable_evaluate parts opened
      | exact stable_evaluateAll parts
      | exact stable_call parts opened
      | exact stable_apply parts opened

namespace Point

def Covered (S : Setting) (p : Point) : Prop := ∀ q, Reaches p q → q.Opened S

theorem stable_of_covered (p : Point) : p.Covered S → p.Stable S := by
  induction p using Begins.induction with
  | point p ih =>
    intro covered
    refine stable_of_begins p (fun q begins => ih q begins fun q' later => ?_) (covered p .refl)
    exact covered q' (.of_begins begins later)

theorem fits_of_reaches {p q : Point} (covered : p.Covered S) (fits : p.Fits S .topLevel)
    (reaches : Reaches p q) :
    ∃ w, q.Fits S w ∧ (w.inLoop = true → ∃ loop body, Reaches p loop ∧ loop.task.IsIterate ∧
      Begins loop body ∧ Encloses body q) := by
  induction reaches with
  | refl => exact ⟨.topLevel, fits, nofun⟩
  | @next q q' before begins ih =>
    obtain ⟨w, fits, around⟩ := ih
    have stable := stable_of_covered q fun q'' later => covered q'' (before.trans later)
    obtain ⟨w', fits', inherits⟩ := (stable w fits).2 q' begins
    refine ⟨w', fits', fun inLoop => ?_⟩
    obtain ⟨statement', iterate | ⟨statement, outer⟩⟩ := inherits inLoop
    · exact ⟨q, q', before, iterate, begins, .refl⟩
    · obtain ⟨loop, body, reached, iterate, entered, encloses⟩ := around outer
      exact ⟨loop, body, reached, iterate, entered, encloses.next begins statement statement'⟩

end Point

end ScopeScript
