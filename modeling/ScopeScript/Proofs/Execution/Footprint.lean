import ScopeScript.Proofs.Execution.Closed

set_option autoImplicit false

namespace ScopeScript

structure Machine.Kept (m m' : Machine) : Prop where
  environment : m'.environment = m.environment
  resolution : m'.resolution = m.resolution
  clock : m'.clock = m.clock
  hosts : m'.hosts = m.hosts
  store : m.store.Grows m'.store

namespace Machine.Kept

theorem refl (m : Machine) : m.Kept m := ⟨rfl, rfl, rfl, rfl, .refl _⟩

theorem trans {m m₁ m₂ : Machine} (first : m.Kept m₁) (second : m₁.Kept m₂) : m.Kept m₂ :=
  ⟨second.environment.trans first.environment, second.resolution.trans first.resolution,
    second.clock.trans first.clock, second.hosts.trans first.hosts,
    first.store.trans second.store⟩

end Machine.Kept

namespace Run

variable {α β : Type}

def ending : EStateM.Result Halt Machine α → Machine
  | .ok _ m | .error _ m => m

theorem bind_ok {p : Run α} {f : α → Run β} {m m' : Machine} {b : β}
    (h : (p >>= f) m = .ok b m') : ∃ a m₁, p m = .ok a m₁ ∧ f a m₁ = .ok b m' := by
  change EStateM.bind p f m = _ at h
  unfold EStateM.bind at h
  cases step : p m with
  | ok a m₁ => exact ⟨a, m₁, rfl, by simpa [step] using h⟩
  | error halt m₁ => simp [step] at h

theorem bind_of_ok {p : Run α} {f : α → Run β} {m m₁ : Machine} {a : α} (h : p m = .ok a m₁) :
    (p >>= f) m = f a m₁ := by
  change EStateM.bind p f m = _
  simp [EStateM.bind, h]

theorem bind_of_error {p : Run α} {f : α → Run β} {m m₁ : Machine} {halt : Halt}
    (h : p m = .error halt m₁) : (p >>= f) m = .error halt m₁ := by
  change EStateM.bind p f m = _
  simp [EStateM.bind, h]

theorem ending_bind_of_kept {γ : Type} {g : Machine → γ} {p : Run α} {f : α → Run β}
    (second : ∀ a m, g (ending (f a m)) = g m) (m : Machine) :
    g (ending ((p >>= f) m)) = g (ending (p m)) := by
  cases ran : p m with
  | ok a m₁ => rw [bind_of_ok ran, second a m₁, ending]
  | error halt m₁ => rw [bind_of_error ran, ending, ending]

theorem checkArity_of_eq {expected got line : Nat} (same : expected = got) (m : Machine) :
    checkArity expected got line m = .ok () m := by
  rw [checkArity, if_pos same]
  rfl

theorem checkArity_of_ne {expected got line : Nat} (other : expected ≠ got) (m : Machine) :
    checkArity expected got line m =
      .error (.fault (.runtime line (.wrongArity expected got))) m := by
  rw [checkArity, if_neg other]
  rfl

theorem checkArity_eq_ok {expected got line : Nat} {u : Unit} {m m' : Machine}
    (h : checkArity expected got line m = .ok u m') : expected = got ∧ m' = m := by
  unfold checkArity at h
  split at h
  next same =>
    cases h
    exact ⟨same, rfl⟩
  · cases h

def Keeps (p : Run α) : Prop := ∀ m : Machine, m.Kept (ending (p m))

namespace Keeps

variable {p : Run α} {f : α → Run β}

theorem of_ok (h : Keeps p) {m m' : Machine} {a : α} (ran : p m = .ok a m') : m.Kept m' := by
  simpa [ran, ending] using h m

theorem bind (first : Keeps p) (second : ∀ a, Keeps (f a)) : Keeps (p >>= f) := by
  intro m
  have before := first m
  cases ran : p m with
  | ok a m₁ =>
    rw [bind_of_ok ran]
    exact (first.of_ok ran).trans (second a m₁)
  | error halt m₁ =>
    rw [bind_of_error ran]
    simpa [ran, ending] using before

theorem pure {a : α} : Keeps (Pure.pure a : Run α) := fun m => .refl m

theorem throw {halt : Halt} : Keeps (throw halt : Run α) := fun m => .refl m

theorem get : Keeps (get : Run Machine) := fun m => .refl m

theorem stop {line : Nat} {fault : RuntimeFault} : Keeps (Run.stop line fault : Run α) :=
  fun m => .refl m

theorem onStore {f : Store → α × Store} (h : ∀ s : Store, s.Grows (f s).2) :
    Keeps (Run.onStore f) :=
  fun m => ⟨rfl, rfl, rfl, rfl, h m.store⟩

theorem within {env : Environment} (h : Keeps p) : Keeps (Run.within env p) := by
  intro m
  have inside := h { m with environment := env }
  unfold Run.within
  cases ran : p { m with environment := env } with
  | ok a m' =>
    simp only [ran, ending] at inside
    exact ⟨rfl, inside.resolution, inside.clock, inside.hosts, inside.store⟩
  | error halt m' =>
    simp only [ran, ending] at inside
    exact ⟨rfl, inside.resolution, inside.clock, inside.hosts, inside.store⟩

theorem write {text : String} : Keeps (Run.write text) := fun _ => ⟨rfl, rfl, rfl, rfl, .refl _⟩

theorem define {name : String} {value : Value} : Keeps (Run.define name value) :=
  fun m => ⟨rfl, rfl, rfl, rfl, m.store.grows_define _ _ _⟩

theorem ofExcept {result : Except Diagnostic α} : Keeps (Run.ofExcept result) := by
  cases result with
  | ok a => exact .pure
  | error d => exact .throw

theorem lookUp {r : Reference} : Keeps (Run.lookUp r) := fun m => ofExcept m

theorem assignFrom {env : Environment} {name : Name} {value : Value} :
    Keeps (Run.assignFrom env name value) := by
  intro m
  unfold Run.assignFrom
  cases m.store.binder? env name.text with
  | some address => exact ⟨rfl, rfl, rfl, rfl, m.store.grows_bindAt _ _ _⟩
  | none => exact .refl m

theorem assign {r : Reference} {value : Value} : Keeps (Run.assign r value) := by
  intro m
  unfold Run.assign
  cases m.resolution[r.id]? with
  | some distance => exact ⟨rfl, rfl, rfl, rfl, m.store.grows_bindAt _ _ _⟩
  | none => exact assignFrom m

theorem callHost {slot : Nat} {arguments : List Value} {line : Nat} :
    Keeps (Run.callHost slot arguments line) := by
  intro m
  unfold Run.callHost
  cases m.hosts[slot]? with
  | none => exact .refl m
  | some f =>
    simp only
    split <;> exact ⟨rfl, rfl, rfl, rfl, .refl _⟩

theorem clockReading : Keeps Run.clockReading := fun _ => ⟨rfl, rfl, rfl, rfl, .refl _⟩

theorem greet {name : Value} {line : Nat} : Keeps (Run.greet name line) := by
  refine write.bind fun fits => ?_
  split
  · exact .pure
  · exact .stop

theorem printLine {value : Value} : Keeps (Run.printLine value) := by
  refine write.bind fun fits => ?_
  split
  · exact .pure
  · exact .throw

theorem newScope : Keeps Run.newScope := fun m =>
  ⟨rfl, rfl, rfl, rfl, m.store.grows_enclose m.environment⟩

end Keeps

theorem closed_keeps : Closed @Keeps where
  pure _ := .pure
  bind := .bind
  observe parts _ := Keeps.get.bind parts
  stop _ _ := .stop
  clockReading := .clockReading
  onStore := .onStore
  newScope := .newScope
  define _ _ := .define
  lookUp _ := .lookUp
  assign _ _ := .assign
  assignFrom _ _ _ := .assignFrom

theorem Keeps.readLine (line : Nat) : Keeps (Run.readLine line) :=
  closed_keeps.readLine .throw (fun _ _ => ⟨rfl, rfl, rfl, rfl, .refl _⟩) line

theorem closedRuns_keeps : ClosedRuns @Keeps where
  toClosed := closed_keeps
  exhausted := .throw
  within _ := .within
  readLine := .readLine
  printLine _ := .printLine
  greet _ _ := .greet
  callHost _ _ _ := .callHost

theorem keeps_execute (n : Nat) (s : Stmt) : Keeps (execute n s) := closedRuns_keeps.execute n s

theorem keeps_executeAll (n : Nat) (body : List Stmt) : Keeps (executeAll n body) :=
  closedRuns_keeps.executeAll n body

theorem keeps_iterate (n : Nat) (condition : Expr) (body : Stmt) (step : Option Expr) :
    Keeps (iterate n condition body step) :=
  closedRuns_keeps.iterate n condition body step

theorem keeps_evaluate (n : Nat) (e : Expr) : Keeps (evaluate n e) := closedRuns_keeps.evaluate n e

theorem keeps_evaluateAll (n : Nat) (es : List Expr) : Keeps (evaluateAll n es) :=
  closedRuns_keeps.evaluateAll n es

theorem keeps_call (n : Nat) (callee : Value) (line : Nat) (arguments : List Value) :
    Keeps (call n callee line arguments) :=
  closedRuns_keeps.call n callee line arguments

theorem keeps_apply (n : Nat) (f : Closure) (arguments : List Value) :
    Keeps (apply n f arguments) :=
  closedRuns_keeps.apply n f arguments

theorem keeps_executeProgram (n : Nat) (body : List Stmt) : Keeps (executeProgram n body) :=
  closedRuns_keeps.executeProgram n body

theorem ending_flush (m : Machine) : ending (flush m) = m := by
  have checked (fails : Bool) : ending ((if fails then
      throw (.fault (.output Sink.flushReason)) else pure () : Run Unit) m) = m := by
    cases fails <;> rfl
  exact checked m.output.flushFails

theorem ending_program (depth : Nat) (body : List Stmt) (m : Machine) :
    ending (program depth body m) =
      { ending (executeProgram depth body m) with environment := .root } := by
  unfold program
  cases executeProgram depth body m with
  | ok _ m' => exact ending_flush _
  | error halt m' =>
    cases halt with
    | fault d =>
      have flushed := ending_flush { m' with environment := .root }
      simp only
      split
      next m'' ran => simpa [ran, ending] using flushed
      next halt m'' ran => simpa [ran, ending] using flushed
    | exhausted => rfl
    | awaitingInput => rfl

theorem program_eq_error {depth : Nat} {body : List Stmt} {halt : Halt} {m m' : Machine}
    (stopped : program depth body m = .error halt m') :
    (∃ m₁, executeProgram depth body m = .error halt m₁) ∨
      ∃ m₁, flush { ending (executeProgram depth body m) with environment := .root } =
        .error halt m₁ := by
  unfold program at stopped
  cases ran : executeProgram depth body m with
  | ok _ m₁ =>
    rw [ran] at stopped
    exact .inr ⟨m', stopped⟩
  | error halt₁ m₁ =>
    rw [ran] at stopped
    cases halt₁ with
    | fault d =>
      simp only at stopped
      split at stopped
      · cases stopped
        exact .inl ⟨m₁, rfl⟩
      next flushed =>
        cases stopped
        exact .inr ⟨_, flushed⟩
    | exhausted | awaitingInput =>
      cases stopped
      exact .inl ⟨m₁, rfl⟩

end Run

end ScopeScript
