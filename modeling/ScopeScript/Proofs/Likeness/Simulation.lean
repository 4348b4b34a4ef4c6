import ScopeScript.Proofs.Execution.Point
import ScopeScript.Proofs.Likeness.Objects

set_option autoImplicit false

namespace ScopeScript

open Run

def Run.nextIteration (n : Nat) (condition : Expr) (body : Stmt) : Option Expr → Run Completion
  | none => iterate n condition body none
  | some step => do
    let _ ← evaluate n step
    iterate n condition body (some step)

structure Guard (K : Link) where
  holds : Point → Prop
  begins : ∀ {p q : Point}, holds p → Begins p q → holds q
  found : ∀ {p : Point} {r : Reference} {use : Use}, holds p → Reads p r use → K.Found p.machine r

def Guard.plain {K : Link} (plain : K.Plain) : Guard K where
  holds _ := True
  begins _ _ := trivial
  found _ _ := fun _ _ => .inr plain

variable {K : Link} {G : Guard K} {n : Nat}

structure Simulates (G : Guard K) (n : Nat) : Prop where
  execute : ∀ {ρ σs m m' s s'}, G.holds ⟨n, .execute s, m⟩ → m.Matches K ρ σs m' →
    s.Alike K σs s' →
    Agrees K ρ σs (Completion.Alike K) (execute n s m) (execute n s' m')
  executeAll : ∀ {ρ σs m m' body body'}, G.holds ⟨n, .executeAll body, m⟩ →
    m.Matches K ρ σs m' → Stmt.AllAlike K σs body body' →
    Agrees K ρ σs (Completion.Alike K) (executeAll n body m) (executeAll n body' m')
  iterate : ∀ {ρ σs m m' e e' s s' step step'}, G.holds ⟨n, .iterate e s step, m⟩ →
    m.Matches K ρ σs m' → e.Alike K σs e' → s.Alike K σs s' →
    Option.Rel (Expr.Alike K σs) step step' →
    Agrees K ρ σs (Completion.Alike K) (iterate n e s step m) (iterate n e' s' step' m')
  evaluate : ∀ {ρ σs m m' e e'}, G.holds ⟨n, .evaluate e, m⟩ → m.Matches K ρ σs m' →
    e.Alike K σs e' →
    Agrees K ρ σs (Value.Alike K) (evaluate n e m) (evaluate n e' m')
  evaluateAll : ∀ {ρ σs m m' es es'}, G.holds ⟨n, .evaluateAll es, m⟩ → m.Matches K ρ σs m' →
    Expr.AllAlike K σs es es' →
    Agrees K ρ σs (fun ρ' => List.Forall₂ (Value.Alike K ρ')) (evaluateAll n es m)
      (evaluateAll n es' m')
  call : ∀ {ρ σs m m' f f' line line' arguments arguments'},
    G.holds ⟨n, .call f line arguments, m⟩ → m.Matches K ρ σs m' → f.Alike K ρ f' →
    K.lines line line' → List.Forall₂ (Value.Alike K ρ) arguments arguments' →
    Agrees K ρ σs (Value.Alike K) (call n f line arguments m) (call n f' line' arguments' m')
  apply : ∀ {ρ σs m m' f f' arguments arguments'}, G.holds ⟨n, .apply f arguments, m⟩ →
    m.Matches K ρ σs m' → f.Alike K ρ f' → List.Forall₂ (Value.Alike K ρ) arguments arguments' →
    Agrees K ρ σs (Value.Alike K) (apply n f arguments m) (apply n f' arguments' m')

namespace Simulates

theorem zero : Simulates G 0 where
  execute _ h _ := .throw h .exhausted
  executeAll _ h _ := .throw h .exhausted
  iterate _ h _ _ _ := .throw h .exhausted
  evaluate _ h _ := .throw h .exhausted
  evaluateAll _ h _ := .throw h .exhausted
  call _ h _ _ _ := .throw h .exhausted
  apply _ h _ _ := .throw h .exhausted

section

variable {ρ : World} {σs : List Renaming} {m m' : Machine}

-- Statements.

theorem execute_succ (ih : Simulates G n) {s s' : Stmt} (guard : G.holds ⟨n + 1, .execute s, m⟩)
    (h : m.Matches K ρ σs m') (alike : s.Alike K σs s') :
    Agrees K ρ σs (Completion.Alike K) (Run.execute (n + 1) s m) (Run.execute (n + 1) s' m') := by
  cases alike with
  | expression e =>
    refine (ih.evaluate (G.begins guard .expression) h e).bind fun _ _ _ _ _ _ _ machines _ => ?_
    exact .pure machines .normal
  | print e =>
    refine (ih.evaluate (G.begins guard .print) h e).bind ?_
    intro ρ₁ value value' m₁ m₁' _ _ machines₁ related
    refine (agrees_printLine machines₁ related).bind fun _ _ _ _ _ _ _ machines₂ _ => ?_
    exact .pure machines₂ .normal
  | varDecl named initial =>
    have rest {ρ₁ : World} {m₁ m₁' : Machine} {value value' : Value}
        (machines : m₁.Matches K ρ₁ σs m₁') (related : value.Alike K ρ₁ value') :
        Agrees K ρ₁ σs (Completion.Alike K)
          ((do define _ value; return Completion.normal : Run Completion) m₁)
          ((do define _ value'; return Completion.normal : Run Completion) m₁') :=
      (agrees_define machines named.text related).bind fun _ _ _ _ _ _ _ machines₂ _ =>
        .pure machines₂ .normal
    cases initial with
    | none => exact rest h (.plain trivial)
    | some e =>
      exact (ih.evaluate (G.begins guard .initial) h e).bind
        fun _ _ _ _ _ _ _ machines related => rest machines related
  | block known body =>
    refine (agrees_newScope h (.inr known)).bind ?_
    rintro ρ₁ env _ m₁ m₁' entered - machines₁ ⟨rfl, follows⟩
    have inner := machines₁.within follows
    exact .within machines₁ (ih.executeAll (G.begins guard (.block entered)) inner body)
  | ifElse e s =>
    refine (ih.evaluate (G.begins guard .choice) h e).bind ?_
    intro ρ₁ value value' m₁ m₁' ran _ machines₁ related
    rw [related.resembles.isTruthy]
    by_cases holds : value.isTruthy = true
    · simp only [holds, if_true]
      exact ih.execute (G.begins guard (.consequent ran holds)) machines₁ s
    · simp only [holds]
      exact .pure machines₁ .normal
  | ifBoth e s t =>
    refine (ih.evaluate (G.begins guard .choice) h e).bind ?_
    intro ρ₁ value value' m₁ m₁' ran _ machines₁ related
    rw [related.resembles.isTruthy]
    by_cases holds : value.isTruthy = true
    · simp only [holds, if_true]
      exact ih.execute (G.begins guard (.consequent ran holds)) machines₁ s
    · have fails : value.isTruthy = false := by simpa using holds
      simp only [holds]
      exact ih.execute (G.begins guard (.alternative ran fails)) machines₁ t
  | loop e s step => exact ih.iterate (G.begins guard .loop) h e s step
  | funDecl fixed f =>
    refine (agrees_closure h f).bind fun ρ₁ closure closure' _ _ _ _ machines₁ related => ?_
    have renamed := f.name.trans fixed.symm
    refine (agrees_define machines₁ renamed (.function related)).bind
      fun _ _ _ _ _ _ _ machines₂ _ => ?_
    exact .pure machines₂ .normal
  | classDecl named fixed above methods =>
    refine (agrees_declareClass h named fixed above methods fun r mem => ?_).bind
      fun _ _ _ _ _ _ _ machines _ => .pure machines .normal
    obtain rfl := mem
    exact G.found guard .superclass
  | returning _ value =>
    cases value with
    | none => exact .pure h (.returned (.plain trivial))
    | some e =>
      exact (ih.evaluate (G.begins guard .returned) h e).bind
        fun _ _ _ _ _ _ _ machines related => .pure machines (.returned related)
  | jump => exact .pure h .jumped

theorem executeAll_succ (ih : Simulates G n) {body body' : List Stmt}
    (guard : G.holds ⟨n + 1, .executeAll body, m⟩) (h : m.Matches K ρ σs m')
    (alike : Stmt.AllAlike K σs body body') :
    Agrees K ρ σs (Completion.Alike K) (Run.executeAll (n + 1) body m)
      (Run.executeAll (n + 1) body' m') := by
  cases alike with
  | nil => exact .pure h .normal
  | cons s rest =>
    refine (ih.execute (G.begins guard .head) h s).bind ?_
    intro ρ₁ completion completion' m₁ m₁' ran _ machines₁ ends
    cases ends with
    | normal => exact ih.executeAll (G.begins guard (.tail ran)) machines₁ rest
    | returned related => exact .pure machines₁ (.returned related)
    | jumped => exact .pure machines₁ .jumped

theorem iterate_succ (ih : Simulates G n) {e e' : Expr} {s s' : Stmt} {step step' : Option Expr}
    (guard : G.holds ⟨n + 1, .iterate e s step, m⟩) (h : m.Matches K ρ σs m')
    (condition : e.Alike K σs e') (body : s.Alike K σs s')
    (stepped : Option.Rel (Expr.Alike K σs) step step') :
    Agrees K ρ σs (Completion.Alike K) (Run.iterate (n + 1) e s step m)
      (Run.iterate (n + 1) e' s' step' m') := by
  refine (ih.evaluate (G.begins guard .test) h condition).bind ?_
  intro ρ₁ value value' m₁ m₁' ran _ machines₁ related
  rw [related.resembles.isTruthy]
  by_cases holds : value.isTruthy = true
  · simp only [holds, if_true]
    refine (ih.execute (G.begins guard (.body ran holds)) machines₁ body).bind ?_
    intro ρ₂ completion completion' m₂ m₂' ran₂ _ machines₂ ends
    have again (on : completion = .normal ∨ completion = .jumped .next) :
        Agrees K ρ₂ σs (Completion.Alike K)
          (nextIteration n e s step m₂) (nextIteration n e' s' step' m₂') := by
      cases stepped with
      | none =>
        exact ih.iterate (G.begins guard (.again ran holds ran₂ on)) machines₂ condition body .none
      | some next =>
        refine (ih.evaluate (G.begins guard (.step ran holds ran₂ on)) machines₂ next).bind ?_
        intro ρ₃ _ _ m₃ m₃' ran₃ _ machines₃ _
        exact ih.iterate (G.begins guard (.againStepped ran holds ran₂ on ran₃)) machines₃ condition
          body (.some next)
    cases ends with
    | normal => cases stepped <;> exact again (.inl rfl)
    | returned related => exact .pure machines₂ (.returned related)
    | @jumped kind =>
      cases kind with
      | leave => exact .pure machines₂ .normal
      | next => cases stepped <;> exact again (.inr rfl)
  · simp only [holds]
    exact .pure machines₁ .normal

-- Expressions.

theorem evaluate_succ (ih : Simulates G n) {e e' : Expr}
    (guard : G.holds ⟨n + 1, .evaluate e, m⟩) (h : m.Matches K ρ σs m') (alike : e.Alike K σs e') :
    Agrees K ρ σs (Value.Alike K) (Run.evaluate (n + 1) e m) (Run.evaluate (n + 1) e' m') := by
  cases alike with
  | @literal value => exact agrees_plain h (by cases value <;> trivial)
  | grouping e => exact ih.evaluate (G.begins guard .grouping) h e
  | unary line e =>
    refine (ih.evaluate (G.begins guard .operand) h e).bind ?_
    intro ρ₁ value value' m₁ m₁' _ _ machines₁ related
    rw [related.resembles.unary]
    exact .ofOperation machines₁ line fun _ result => .plain (Value.plain_unary result)
  | binary line left right =>
    refine (ih.evaluate (G.begins guard .left) h left).bind ?_
    intro ρ₁ a a' m₁ m₁' ran _ machines₁ first
    refine (ih.evaluate (G.begins guard (.right ran)) machines₁ right).bind ?_
    intro ρ₂ b b' m₂ m₂' _ grows machines₂ second
    rw [(first.mono (.refl K) grows).resembles.binary _ second.resembles]
    exact .ofOperation machines₂ line fun _ result => .plain (Value.plain_binary result)
  | @logical _ _ _ _ op left right =>
    refine (ih.evaluate (G.begins guard .decision) h left).bind ?_
    intro ρ₁ a a' m₁ m₁' ran _ machines₁ first
    rw [first.resembles.isTruthy]
    have other (undecided : a.isTruthy = (op == .and)) :=
      ih.evaluate (G.begins guard (.undecided ran undecided)) machines₁ right
    cases op with
    | or =>
      cases decided : a.isTruthy with
      | true => exact .pure machines₁ first
      | false => exact other decided
    | and =>
      cases decided : a.isTruthy with
      | true => exact other decided
      | false => exact .pure machines₁ first
  | var r => exact agrees_lookUp h r (G.found guard .read)
  | assign r e =>
    refine (ih.evaluate (G.begins guard .assigned) h e).bind ?_
    intro ρ₁ value value' m₁ m₁' _ _ machines₁ related
    refine (agrees_assign machines₁ r related).bind fun ρ₂ _ _ _ _ _ grows machines₂ _ => ?_
    exact .pure machines₂ (related.mono (.refl K) grows)
  | call line e es =>
    refine (ih.evaluate (G.begins guard .callee) h e).bind ?_
    intro ρ₁ f f' m₁ m₁' ran _ machines₁ callee
    refine (ih.evaluateAll (G.begins guard (.arguments ran)) machines₁ es).bind ?_
    intro ρ₂ values values' m₂ m₂' ran₂ grows machines₂ arguments
    exact ih.call (G.begins guard (.called ran ran₂)) machines₂ (callee.mono (.refl K) grows) line
      arguments
  | get named e =>
    refine (ih.evaluate (G.begins guard .owner) h e).bind ?_
    intro ρ₁ value value' m₁ m₁' _ _ machines₁ related
    cases related with
    | «instance» i => exact agrees_property machines₁ i named
    | @plain value plain =>
      cases value with
      | «instance» => exact plain.elim
      | _ => exact .stop machines₁ named.line
    | _ => exact .stop machines₁ named.line
  | set named object e =>
    refine (ih.evaluate (G.begins guard .target) h object).bind ?_
    intro ρ₁ value value' m₁ m₁' ran _ machines₁ related
    cases related with
    | @«instance» i i' receiver =>
      refine (ih.evaluate (G.begins guard (.content ran)) machines₁ e).bind ?_
      intro ρ₂ value value' m₂ m₂' _ _ machines₂ content
      refine .ok List.prefix_rfl (machines₂.withStore ?_ List.prefix_rfl) content
      rw [named.text]
      exact machines₂.store.setField receiver.address _ content
    | @plain value plain =>
      cases value with
      | «instance» => exact plain.elim
      | _ => exact .stop machines₁ named.line
    | _ => exact .stop machines₁ named.line
  | self r => exact agrees_lookUp h r (G.found guard .self)
  | super r named => exact agrees_inherited h r named

theorem evaluateAll_succ (ih : Simulates G n) {es es' : List Expr}
    (guard : G.holds ⟨n + 1, .evaluateAll es, m⟩) (h : m.Matches K ρ σs m')
    (alike : Expr.AllAlike K σs es es') :
    Agrees K ρ σs (fun ρ' => List.Forall₂ (Value.Alike K ρ')) (Run.evaluateAll (n + 1) es m)
      (Run.evaluateAll (n + 1) es' m') := by
  cases alike with
  | nil => exact .pure h .nil
  | cons e es =>
    refine (ih.evaluate (G.begins guard .first) h e).bind ?_
    intro ρ₁ value value' m₁ m₁' ran _ machines₁ first
    refine (ih.evaluateAll (G.begins guard (.others ran)) machines₁ es).bind ?_
    intro ρ₂ values values' m₂ m₂' _ grows machines₂ others
    exact .pure machines₂ (.cons (first.mono (.refl K) grows) others)

-- Calls.

theorem call_succ (ih : Simulates G n) {f f' : Value} {line line' : Nat}
    {arguments arguments' : List Value} (guard : G.holds ⟨n + 1, .call f line arguments, m⟩)
    (h : m.Matches K ρ σs m') (callee : f.Alike K ρ f') (lines : K.lines line line')
    (values : List.Forall₂ (Value.Alike K ρ) arguments arguments') :
    Agrees K ρ σs (Value.Alike K) (Run.call (n + 1) f line arguments m)
      (Run.call (n + 1) f' line' arguments' m') := by
  have check {expected expected' : Nat} (same : expected' = expected) :
      Agrees K ρ σs Same (checkArity expected arguments.length line m)
        (checkArity expected' arguments'.length line' m') := by
    rw [same, ← values.length_eq]
    exact agrees_checkArity h lines _ _
  cases callee with
  | function related =>
    refine (check related.arity).bind ?_
    intro ρ₁ _ _ m₁ m₁' checked grows machines₁ _
    obtain ⟨same, rfl⟩ := checkArity_eq_ok checked
    exact ih.apply (G.begins guard (.function same)) machines₁ (related.mono (.refl K) grows)
      (values.imp fun _ _ value => value.mono (.refl K) grows)
  | @«class» c c' related =>
    refine (check related.arity).bind ?_
    intro ρ₁ _ _ m₁ m₁' checked grows machines₁ _
    obtain ⟨same, rfl⟩ := checkArity_eq_ok checked
    have related₁ := related.mono (.refl K) grows
    have made : Agrees K ρ₁ σs (Instance.Alike K) (onStore (fun s => s.newInstance c) m₁)
        (onStore (fun s => s.newInstance c') m₁') :=
      .ok List.prefix_rfl
        (machines₁.withStore (machines₁.store.newInstance related₁).2 List.prefix_rfl)
        (machines₁.store.newInstance related₁).1
    refine made.bind ?_
    intro ρ₂ i i' m₂ m₂' ran grows₂ machines₂ receiver
    have init := (related₁.mono (.refl K) grows₂).method? "init"
    cases found : c.method? "init" with
    | none =>
      rw [found] at init
      cases found' : c'.method? "init" with
      | none => exact .pure machines₂ (.instance receiver)
      | some method' => rw [found'] at init; cases init
    | some method =>
      rw [found] at init
      cases found' : c'.method? "init" with
      | none => rw [found'] at init; cases init
      | some method' =>
        rw [found'] at init
        cases init with
        | some bound =>
          refine (agrees_bind machines₂ bound receiver).bind ?_
          intro ρ₃ f f' m₃ m₃' ran₃ grows₃ machines₃ closure
          have grown := grows.trans (grows₂.trans grows₃)
          refine (ih.apply (G.begins guard (.initializer same found ran ran₃)) machines₃ closure
            (values.imp fun _ _ value => value.mono (.refl K) grown)).bind ?_
          intro ρ₄ _ _ m₄ m₄' _ grows₄ machines₄ _
          exact .pure machines₄ (.instance (receiver.mono (.refl K) (grows₃.trans grows₄)))
  | plain plain =>
    cases f with
    | native f =>
      refine (check rfl).bind ?_
      intro ρ₁ _ _ m₁ m₁' _ grows machines₁ _
      exact agrees_callNative machines₁ (values.imp fun _ _ value => value.mono (.refl K) grows)
        f.body lines
    | function | «class» | «instance» => exact plain.elim
    | _ => exact .stop h lines
  | «instance» => exact .stop h lines

theorem apply_succ (ih : Simulates G n) {f f' : Closure} {arguments arguments' : List Value}
    (guard : G.holds ⟨n + 1, .apply f arguments, m⟩) (h : m.Matches K ρ σs m')
    (alike : f.Alike K ρ f') (values : List.Forall₂ (Value.Alike K ρ) arguments arguments') :
    Agrees K ρ σs (Value.Alike K) (Run.apply (n + 1) f arguments m)
      (Run.apply (n + 1) f' arguments' m') := by
  refine (agrees_activation h alike values).bind ?_
  rintro ρ₁ env _ m₁ m₁' entered grows machines₁ ⟨rfl, τs, follows, inside⟩
  have inner := ih.executeAll (G.begins guard (.applied entered)) (machines₁.within follows) inside
  refine (Agrees.within machines₁ inner).bind ?_
  intro ρ₂ completion completion' m₂ m₂' _ grows₂ machines₂ ends
  exact agrees_callResult machines₂ (alike.mono (.refl K) (grows.trans grows₂)) ends

end

end Simulates

theorem simulates (G : Guard K) (n : Nat) : Simulates G n := by
  induction n with
  | zero => exact .zero
  | succ n ih =>
    exact {
      execute := ih.execute_succ
      executeAll := ih.executeAll_succ
      iterate := ih.iterate_succ
      evaluate := ih.evaluate_succ
      evaluateAll := ih.evaluateAll_succ
      call := ih.call_succ
      apply := ih.apply_succ }

-- Whole programs.

section

variable {ρ : World} {σs : List Renaming} {m m' : Machine} {body body' : List Stmt}

theorem agrees_executeProgram (G : Guard K) (guard : G.holds ⟨n, .program body, m⟩)
    (h : m.Matches K ρ σs m') (alike : Stmt.AllAlike K σs body body') :
    Agrees K ρ σs Same (executeProgram n body m) (executeProgram n body' m') := by
  induction body generalizing ρ m m' body' with
  | nil =>
    cases alike
    exact .pure h rfl
  | cons s rest ih =>
    cases alike with
    | cons first others =>
      refine ((simulates G n).execute (G.begins guard .programHead) h first).bind ?_
      intro ρ₁ _ _ m₁ m₁' ran _ machines₁ _
      exact ih (G.begins guard (.programTail ran)) machines₁ others

theorem agrees_flush (h : m.Matches K ρ σs m') : Agrees K ρ σs Same (flush m) (flush m') := by
  refine Agrees.get_bind ?_
  rw [h.output]
  by_cases fails : m.output.flushFails = true
  · simp only [fails, if_true]
    exact .throw h .output
  · simp only [fails]
    exact .pure h rfl

theorem agrees_program (G : Guard K) (guard : G.holds ⟨n, .program body, m⟩)
    (h : m.Matches K ρ [] m') (alike : Stmt.AllAlike K [] body body') :
    Agrees K ρ [] Same (program n body m) (program n body' m') := by
  have ran := agrees_executeProgram G guard h alike
  unfold program
  generalize executeProgram n body m = result at ran ⊢
  generalize executeProgram n body' m' = result' at ran ⊢
  cases ran with
  | ok grows machines => exact (agrees_flush (machines.within .root)).grow grows
  | @error ρ₁ _ _ m₁ m₁' grows machines ends =>
    have idle := machines.within Follows.root
    cases ends with
    | runtime | output =>
      have flushed := agrees_flush idle
      dsimp only
      generalize flush { m₁ with environment := .root } = last at flushed ⊢
      generalize flush { m₁' with environment := .root } = last' at flushed ⊢
      cases flushed with
      | ok further machines₂ =>
        exact .error (grows.trans further) machines₂ (by first | exact .runtime ‹_› | exact .output)
      | error further machines₂ alike => exact .error (grows.trans further) machines₂ alike
    | exhausted => exact .error grows idle .exhausted
    | awaitingInput => exact .error grows idle .awaitingInput

end

end ScopeScript
