import ScopeScript.Proofs.Execution.Footprint

set_option autoImplicit false

/-!
What the depth of a run has to do with its outcome: nothing, as soon as there is enough of it.

`Ends` is the outcome with the depth left out. Its rules, one for each way to put computations
together, are those of a semantics without any depth. `Amounts` relates two computations that end in
the same ways, and those rules keep it.
-/

namespace ScopeScript

namespace Run

variable {α β : Type}

abbrev Outcome (α : Type) := EStateM.Result Halt Machine α

def Deepens (p q : Run α) : Prop := ∀ m, q m = p m ∨ ∃ m', p m = .error .exhausted m'

namespace Deepens

theorem refl (p : Run α) : Deepens p p := fun _ => .inl rfl

theorem exhausted (q : Run α) : Deepens (throw .exhausted) q := fun m => .inr ⟨m, rfl⟩

theorem trans {p q q' : Run α} (first : Deepens p q) (second : Deepens q q') : Deepens p q' := by
  intro m
  rcases first m with same | out
  · rcases second m with same' | ⟨m', out⟩
    · exact .inl (same'.trans same)
    · exact .inr ⟨m', same ▸ out⟩
  · exact .inr out

theorem bind {p q : Run α} {f g : α → Run β} (first : Deepens p q)
    (second : ∀ a, Deepens (f a) (g a)) : Deepens (p >>= f) (q >>= g) := by
  intro m
  rcases first m with same | ⟨m', out⟩
  · cases ran : p m with
    | ok a m₁ =>
      rw [bind_of_ok ran, bind_of_ok (same.trans ran)]
      exact second a m₁
    | error halt m₁ =>
      rw [bind_of_error ran, bind_of_error (same.trans ran)]
      exact .inl rfl
  · exact .inr ⟨m', bind_of_error out⟩

theorem within {p q : Run α} {env : Environment} (h : Deepens p q) :
    Deepens (within env p) (within env q) := by
  intro m
  unfold Run.within
  rcases h { m with environment := env } with same | ⟨m', out⟩
  · rw [same]
    exact .inl rfl
  · rw [out]
    exact .inr ⟨_, rfl⟩

theorem ite {b : Bool} {p p' q q' : Run α} (first : Deepens p q) (second : Deepens p' q') :
    Deepens (if b then p else p') (if b then q else q') := by
  cases b
  · exact second
  · exact first

end Deepens

mutual

theorem deepens_execute : ∀ (n : Nat) (s : Stmt), Deepens (execute n s) (execute (n + 1) s)
  | 0, _ => .exhausted _
  | n + 1, .expression e => (deepens_evaluate n e).bind fun _ => .refl _
  | n + 1, .print e => (deepens_evaluate n e).bind fun _ => .refl _
  | _ + 1, .varDecl _ none => .refl _
  | n + 1, .varDecl _ (some e) => (deepens_evaluate n e).bind fun _ => .refl _
  | n + 1, .block body => (Deepens.refl newScope).bind fun _ => (deepens_executeAll n body).within
  | n + 1, .ifElse condition consequent none =>
    (deepens_evaluate n condition).bind fun _ => (deepens_execute n consequent).ite (.refl _)
  | n + 1, .ifElse condition consequent (some alternative) =>
    (deepens_evaluate n condition).bind fun _ =>
      (deepens_execute n consequent).ite (deepens_execute n alternative)
  | n + 1, .loop condition body step => deepens_iterate n condition body step
  | _ + 1, .funDecl _ => .refl _
  | _ + 1, .classDecl .. => .refl _
  | _ + 1, .returning _ none => .refl _
  | n + 1, .returning _ (some e) => (deepens_evaluate n e).bind fun _ => .refl _
  | _ + 1, .jump _ => .refl _

theorem deepens_executeAll : ∀ (n : Nat) (body : List Stmt),
    Deepens (executeAll n body) (executeAll (n + 1) body)
  | 0, _ => .exhausted _
  | _ + 1, [] => .refl _
  | n + 1, s :: rest => by
    refine (deepens_execute n s).bind fun completion => ?_
    cases completion with
    | normal => exact deepens_executeAll n rest
    | returned value => exact .refl _
    | jumped kind => exact .refl _

theorem deepens_iterate : ∀ (n : Nat) (condition : Expr) (body : Stmt) (step : Option Expr),
    Deepens (iterate n condition body step) (iterate (n + 1) condition body step)
  | 0, _, _, _ => .exhausted _
  | n + 1, condition, body, step => by
    have again : Deepens
        (do
          match step with
          | none => pure ()
          | some e => let _ ← evaluate n e
          iterate n condition body step)
        (do
          match step with
          | none => pure ()
          | some e => let _ ← evaluate (n + 1) e
          iterate (n + 1) condition body step) := by
      cases step with
      | none => exact deepens_iterate n condition body none
      | some e => exact (deepens_evaluate n e).bind fun _ => deepens_iterate n condition body _
    refine (deepens_evaluate n condition).bind fun value => .ite ?_ (.refl _)
    refine (deepens_execute n body).bind fun completion => ?_
    cases completion with
    | normal => exact again
    | returned value => exact .refl _
    | jumped kind =>
      cases kind with
      | leave => exact .refl _
      | next => exact again

theorem deepens_evaluate : ∀ (n : Nat) (e : Expr), Deepens (evaluate n e) (evaluate (n + 1) e)
  | 0, _ => .exhausted _
  | _ + 1, .literal _ => .refl _
  | n + 1, .grouping inner => deepens_evaluate n inner
  | n + 1, .unary _ _ operand => (deepens_evaluate n operand).bind fun _ => .refl _
  | n + 1, .binary _ _ left right =>
    (deepens_evaluate n left).bind fun _ => (deepens_evaluate n right).bind fun _ => .refl _
  | n + 1, .logical _ left right =>
    (deepens_evaluate n left).bind fun _ => (Deepens.refl _).ite (deepens_evaluate n right)
  | _ + 1, .var _ => .refl _
  | n + 1, .assign _ e => (deepens_evaluate n e).bind fun _ => .refl _
  | n + 1, .call callee line arguments =>
    (deepens_evaluate n callee).bind fun f =>
      (deepens_evaluateAll n arguments).bind fun values => deepens_call n f line values
  | n + 1, .get object _ => (deepens_evaluate n object).bind fun _ => .refl _
  | n + 1, .set object _ e => by
    refine (deepens_evaluate n object).bind fun value => ?_
    match value with
    | .instance i => exact (deepens_evaluate n e).bind fun _ => .refl _
    | .nil | .bool _ | .number _ | .string _ | .function _ | .native _ | .class _ => exact .refl _
  | _ + 1, .self _ => .refl _
  | _ + 1, .super .. => .refl _

theorem deepens_evaluateAll : ∀ (n : Nat) (es : List Expr),
    Deepens (evaluateAll n es) (evaluateAll (n + 1) es)
  | 0, _ => .exhausted _
  | _ + 1, [] => .refl _
  | n + 1, e :: rest =>
    (deepens_evaluate n e).bind fun _ => (deepens_evaluateAll n rest).bind fun _ => .refl _

theorem deepens_call : ∀ (n : Nat) (callee : Value) (line : Nat) (arguments : List Value),
    Deepens (call n callee line arguments) (call (n + 1) callee line arguments)
  | 0, _, _, _ => .exhausted _
  | n + 1, .function f, line, arguments =>
    (Deepens.refl (checkArity f.arity arguments.length line)).bind fun _ =>
      deepens_apply n f arguments
  | n + 1, .class c, line, arguments => by
    refine (Deepens.refl (checkArity c.arity arguments.length line)).bind fun _ => ?_
    refine (Deepens.refl (onStore fun s => s.newInstance c)).bind fun i => ?_
    cases c.method? "init" with
    | none => exact .refl _
    | some init =>
      exact (Deepens.refl (bind init i)).bind fun f => (deepens_apply n f arguments).bind
        fun _ => .refl _
  | _ + 1, .native _, _, _ => .refl _
  | _ + 1, .nil, _, _ | _ + 1, .bool _, _, _ | _ + 1, .number _, _, _ | _ + 1, .string _, _, _
  | _ + 1, .instance _, _, _ => .refl _

theorem deepens_apply : ∀ (n : Nat) (f : Closure) (arguments : List Value),
    Deepens (apply n f arguments) (apply (n + 1) f arguments)
  | 0, _, _ => .exhausted _
  | n + 1, f, arguments =>
    (Deepens.refl (activation f arguments)).bind fun _ =>
      (deepens_executeAll n f.declaration.body).within.bind fun _ => .refl _

end

/-- More depth only ever changes an outcome that depth was missing for. -/
def Deepening (p : Nat → Run α) : Prop := ∀ n, Deepens (p n) (p (n + 1))

theorem Deepening.le {p : Nat → Run α} (deepening : Deepening p) {n n' : Nat} (deeper : n ≤ n') :
    Deepens (p n) (p n') := by
  induction deeper with
  | refl => exact .refl _
  | step _ ih => exact ih.trans (deepening _)

theorem deepening_execute (s : Stmt) : Deepening (execute · s) := fun n => deepens_execute n s

theorem deepening_executeAll (body : List Stmt) : Deepening (executeAll · body) :=
  fun n => deepens_executeAll n body

theorem deepening_iterate (condition : Expr) (body : Stmt) (step : Option Expr) :
    Deepening (iterate · condition body step) := fun n => deepens_iterate n condition body step

theorem deepening_evaluate (e : Expr) : Deepening (evaluate · e) := fun n => deepens_evaluate n e

/-- With enough depth the computation ends like this. -/
structure Ends (p : Nat → Run α) (m : Machine) (r : Outcome α) : Prop where
  reached : ∃ n, p n m = r
  decided : ∀ m', r ≠ .error .exhausted m'

namespace Ends

variable {p : Nat → Run α} {m m₁ : Machine} {r r' : Outcome α}

theorem eventually (deepening : Deepening p) (h : Ends p m r) : ∃ n, ∀ n', n ≤ n' → p n' m = r := by
  obtain ⟨n, ran⟩ := h.reached
  refine ⟨n, fun n' deeper => ?_⟩
  rcases deepening.le deeper m with same | ⟨m', out⟩
  · exact same.trans ran
  · exact absurd (ran.symm.trans out) (h.decided m')

theorem unique (deepening : Deepening p) (h : Ends p m r) (h' : Ends p m r') : r = r' := by
  obtain ⟨n, ran⟩ := h.eventually deepening
  obtain ⟨n', ran'⟩ := h'.eventually deepening
  exact (ran _ (Nat.le_max_left n n')).symm.trans (ran' _ (Nat.le_max_right n n'))

theorem of_ok {n : Nat} {a : α} (ran : p n m = .ok a m₁) : Ends p m (.ok a m₁) :=
  ⟨⟨n, ran⟩, nofun⟩

theorem of_error {n : Nat} {halt : Halt} (ran : p n m = .error halt m₁)
    (decided : halt ≠ .exhausted) : Ends p m (.error halt m₁) := by
  refine ⟨⟨n, ran⟩, ?_⟩
  rintro _ ⟨⟩
  exact decided rfl

theorem ne_exhausted {halt : Halt} (h : Ends p m (.error halt m₁)) : halt ≠ .exhausted := by
  rintro rfl
  exact h.decided m₁ rfl

theorem kept {a : α} (keeps : ∀ n, Keeps (p n)) (h : Ends p m (.ok a m₁)) : m.Kept m₁ := by
  obtain ⟨n, ran⟩ := h.reached
  exact (keeps n).of_ok ran

theorem of_succ (h : Ends (fun n => p (n + 1)) m r) : Ends p m r := by
  obtain ⟨n, ran⟩ := h.reached
  exact ⟨⟨n + 1, ran⟩, h.decided⟩

theorem succ (deepening : Deepening p) (h : Ends p m r) : Ends (fun n => p (n + 1)) m r := by
  obtain ⟨n, ran⟩ := h.eventually deepening
  exact ⟨⟨n, ran (n + 1) (Nat.le_succ n)⟩, h.decided⟩

variable {f : Nat → α → Run β} {out : Outcome β}

theorem bind (first : Deepening p) (second : ∀ a, Deepening (f · a)) {a : α}
    (h : Ends p m (.ok a m₁)) (h' : Ends (f · a) m₁ out) : Ends (fun n => p n >>= f n) m out := by
  obtain ⟨n, ran⟩ := h.eventually first
  obtain ⟨n', ran'⟩ := h'.eventually (second a)
  refine ⟨⟨max n n', ?_⟩, h'.decided⟩
  have before := ran _ (Nat.le_max_left n n')
  exact (bind_of_ok before).trans (ran' _ (Nat.le_max_right n n'))

theorem bind_error {halt : Halt} (h : Ends p m (.error halt m₁)) :
    Ends (fun n => p n >>= f n) m (.error halt m₁) := by
  obtain ⟨n, ran⟩ := h.reached
  exact .of_error (bind_of_error (ran : p n m = _)) h.ne_exhausted

theorem of_bind (h : Ends (fun n => p n >>= f n) m out) :
    (∃ a m₁, Ends p m (.ok a m₁) ∧ Ends (f · a) m₁ out) ∨
      ∃ halt m₁, Ends p m (.error halt m₁) ∧ out = .error halt m₁ := by
  obtain ⟨n, ran⟩ := h.reached
  cases first : p n m with
  | ok a m₁ => exact .inl ⟨a, m₁, .of_ok first, ⟨n, (bind_of_ok first).symm.trans ran⟩, h.decided⟩
  | error halt m₁ =>
    have failed : out = .error halt m₁ := ran.symm.trans (bind_of_error first)
    subst failed
    exact .inr ⟨halt, m₁, .of_error first h.ne_exhausted, rfl⟩

end Ends

-- Computations that differ in their depth alone.

structure Amounts (p q : Nat → Run α) : Prop where
  deepening : Deepening p
  deepening' : Deepening q
  ends : ∀ m r, Ends p m r ↔ Ends q m r

namespace Amounts

variable {p q q' : Nat → Run α} {f h : Nat → α → Run β}

theorem refl (deepening : Deepening p) : Amounts p p := ⟨deepening, deepening, fun _ _ => .rfl⟩

theorem const (p : Run α) : Amounts (fun _ => p) fun _ => p := refl fun _ => .refl p

theorem trans (first : Amounts p q) (second : Amounts q q') : Amounts p q' :=
  ⟨first.deepening, second.deepening', fun m r => (first.ends m r).trans (second.ends m r)⟩

theorem symm (same : Amounts p q) : Amounts q p :=
  ⟨same.deepening', same.deepening, fun m r => (same.ends m r).symm⟩

theorem succ (deepening : Deepening p) : Amounts p fun n => p (n + 1) :=
  ⟨deepening, fun n => deepening (n + 1), fun _ _ => ⟨Ends.succ deepening, Ends.of_succ⟩⟩

theorem ends_bind (first : Amounts p q) (second : ∀ a, Amounts (f · a) (h · a)) {m : Machine}
    {r : Outcome β} (ends : Ends (fun n => p n >>= f n) m r) : Ends (fun n => q n >>= h n) m r := by
  rcases ends.of_bind with ⟨a, m₁, done, rest⟩ | ⟨halt, m₁, failed, rfl⟩
  · exact ((first.ends _ _).mp done).bind first.deepening' (fun a => (second a).deepening')
      (((second a).ends _ _).mp rest)
  · exact ((first.ends _ _).mp failed).bind_error

theorem bind (first : Amounts p q) (second : ∀ a, Amounts (f · a) (h · a)) :
    Amounts (fun n => p n >>= f n) fun n => q n >>= h n where
  deepening n := (first.deepening n).bind fun a => (second a).deepening n
  deepening' n := (first.deepening' n).bind fun a => (second a).deepening' n
  ends _ _ := ⟨ends_bind first second, ends_bind first.symm fun a => (second a).symm⟩

end Amounts

theorem amounts_evaluate (e : Expr) : Amounts (evaluate · e) fun n => evaluate (n + 1) e :=
  .succ (deepening_evaluate e)

theorem amounts_grouping (e : Expr) : Amounts (evaluate · (.grouping e)) (evaluate · e) :=
  amounts_evaluate (.grouping e)

end Run

end ScopeScript
