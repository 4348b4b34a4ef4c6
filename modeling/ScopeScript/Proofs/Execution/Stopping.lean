import ScopeScript.Proofs.Execution.Footprint

set_option autoImplicit false

namespace ScopeScript

def Diagnostic.IsRunTime (d : Diagnostic) : Prop := d.isCompileTime = false

namespace Run

variable {α β : Type}

def StopsLate (p : Run α) : Prop := ∀ m d m', p m = .error (.fault d) m' → d.IsRunTime

namespace StopsLate

variable {p : Run α} {f : α → Run β}

theorem bind (first : StopsLate p) (second : ∀ a, StopsLate (f a)) : StopsLate (p >>= f) := by
  intro m d m' stopped
  cases ran : p m with
  | ok a m₁ =>
    rw [bind_of_ok ran] at stopped
    exact second a m₁ d m' stopped
  | error halt m₁ =>
    rw [bind_of_error ran] at stopped
    cases stopped
    exact first m d _ ran

theorem of_ok (h : ∀ m, ∃ a m', p m = .ok a m') : StopsLate p := by
  intro m d m' stopped
  obtain ⟨a, m₁, ran⟩ := h m
  cases ran.symm.trans stopped

theorem pure {a : α} : StopsLate (Pure.pure a : Run α) := of_ok fun m => ⟨a, m, rfl⟩

theorem throw {halt : Halt} (late : ∀ d, halt = .fault d → d.IsRunTime) :
    StopsLate (throw halt : Run α) := by
  rintro m d m' ⟨⟩
  exact late d rfl

theorem stop {line : Nat} {fault : RuntimeFault} : StopsLate (Run.stop line fault : Run α) :=
  throw fun _ same => Halt.fault.inj same ▸ rfl

theorem ofExcept {result : Except Diagnostic α} (late : ∀ d, result = .error d → d.IsRunTime) :
    StopsLate (Run.ofExcept result) := by
  cases result with
  | ok a => exact pure
  | error d => exact throw fun _ same => Halt.fault.inj same ▸ late d rfl

theorem lookUp {r : Reference} : StopsLate (Run.lookUp r) := by
  intro m
  refine ofExcept (fun d missing => ?_) m
  split at missing
  · unfold Store.readAt at missing
    split at missing <;> cases missing
    rfl
  · unfold Store.read at missing
    split at missing <;> cases missing
    rfl

theorem assignFrom {env : Environment} {name : Name} {value : Value} :
    StopsLate (Run.assignFrom env name value) := by
  intro m d m' stopped
  unfold Run.assignFrom at stopped
  split at stopped <;> cases stopped
  rfl

theorem assign {r : Reference} {value : Value} : StopsLate (Run.assign r value) := by
  intro m d m' stopped
  unfold Run.assign at stopped
  split at stopped
  · cases stopped
  · exact assignFrom m d m' stopped

theorem within {env : Environment} (h : StopsLate p) : StopsLate (Run.within env p) := by
  intro m d m' stopped
  unfold Run.within at stopped
  cases ran : p { m with environment := env } with
  | ok a m₁ => simp [ran] at stopped
  | error halt m₁ =>
    simp only [ran, EStateM.Result.error.injEq] at stopped
    obtain ⟨rfl, -⟩ := stopped
    exact h _ d m₁ ran

theorem write {text : String} : StopsLate (Run.write text) := of_ok fun _ => ⟨_, _, rfl⟩

theorem printLine {value : Value} : StopsLate (Run.printLine value) := by
  refine write.bind fun fits => ?_
  split
  · exact pure
  · exact throw fun _ same => Halt.fault.inj same ▸ rfl

theorem greet {name : Value} {line : Nat} : StopsLate (Run.greet name line) := by
  refine write.bind fun fits => ?_
  split
  · exact pure
  · exact stop

theorem callHost {slot : Nat} {arguments : List Value} {line : Nat} :
    StopsLate (Run.callHost slot arguments line) := by
  intro m d m' stopped
  unfold Run.callHost at stopped
  split at stopped
  · cases stopped
  · split at stopped
    · cases stopped
    · exact stop _ d m' stopped

end StopsLate

theorem closed_stopsLate : Closed @StopsLate where
  pure _ := .pure
  bind := .bind
  observe parts _ := StopsLate.bind (.of_ok fun m => ⟨m, m, rfl⟩) parts
  stop _ _ := .stop
  clockReading := .of_ok fun _ => ⟨_, _, rfl⟩
  onStore _ := .of_ok fun _ => ⟨_, _, rfl⟩
  newScope := .of_ok fun _ => ⟨_, _, rfl⟩
  define _ _ := .of_ok fun _ => ⟨_, _, rfl⟩
  lookUp _ := .lookUp
  assign _ _ := .assign
  assignFrom _ _ _ := .assignFrom

theorem closedRuns_stopsLate : ClosedRuns @StopsLate where
  toClosed := closed_stopsLate
  exhausted := .throw fun _ => nofun
  within _ := .within
  readLine := closed_stopsLate.readLine (.throw fun _ => nofun) fun _ => .of_ok fun _ => ⟨_, _, rfl⟩
  printLine _ := .printLine
  greet _ _ := .greet
  callHost _ _ _ := .callHost

theorem stopsLate_flush : StopsLate flush :=
  StopsLate.bind (.of_ok fun m => ⟨m, m, rfl⟩) fun m => by
    cases m.output.flushFails with
    | false => exact .pure
    | true => exact .throw fun _ same => Halt.fault.inj same ▸ rfl

theorem stopsLate_program (depth : Nat) (body : List Stmt) : StopsLate (program depth body) := by
  intro m d m' stopped
  rcases program_eq_error stopped with ⟨m₁, ran⟩ | ⟨m₁, flushed⟩
  · exact closedRuns_stopsLate.executeProgram depth body m d m₁ ran
  · exact stopsLate_flush _ d m₁ flushed

end Run

end ScopeScript
