import ScopeScript.Proofs.Execution.Footprint

set_option autoImplicit false

namespace ScopeScript

namespace Run

variable {α β : Type}

def writingTo (output : Sink) : EStateM.Result Halt Machine α → EStateM.Result Halt Machine α
  | .ok a m => .ok a (m.writingTo output)
  | .error halt m => .error halt (m.writingTo output)

structure Silent (p : Run α) : Prop where
  keeps : Keeps p
  kept : ∀ m, (ending (p m)).output = m.output
  elsewhere : ∀ m output, p (m.writingTo output) = writingTo output (p m)

namespace Silent

variable {p : Run α} {f : α → Run β}

theorem pure {a : α} : Silent (Pure.pure a : Run α) := ⟨.pure, fun _ => rfl, fun _ _ => rfl⟩

theorem throw {halt : Halt} : Silent (throw halt : Run α) := ⟨.throw, fun _ => rfl, fun _ _ => rfl⟩

theorem bind (first : Silent p) (second : ∀ a, Silent (f a)) : Silent (p >>= f) := by
  refine ⟨first.keeps.bind fun a => (second a).keeps, fun m => ?_, fun m output => ?_⟩
  · exact (ending_bind_of_kept (g := Machine.output) (fun a => (second a).kept) m).trans
      (first.kept m)
  · have other := first.elsewhere m output
    cases ran : p m with
    | ok a m₁ =>
      rw [ran] at other
      rw [bind_of_ok ran, bind_of_ok other]
      exact (second a).elsewhere m₁ output
    | error halt m₁ =>
      rw [ran] at other
      rw [bind_of_error ran, bind_of_error other]
      rfl

theorem observe {f : Machine → Run β} (silent : ∀ m, Silent (f m))
    (blind : ∀ m output, f (m.writingTo output) = f m) : Silent (get >>= f) := by
  refine ⟨Keeps.get.bind fun m => (silent m).keeps, fun m => (silent m).kept m, fun m output => ?_⟩
  change f (m.writingTo output) (m.writingTo output) = writingTo output (f m m)
  rw [blind]
  exact (silent m).elsewhere m output

theorem ofExcept {result : Except Diagnostic α} : Silent (Run.ofExcept result) := by
  cases result with
  | ok a => exact pure
  | error d => exact throw

theorem assignFrom {env : Environment} {name : Name} {value : Value} :
    Silent (Run.assignFrom env name value) := by
  refine ⟨.assignFrom, fun m => ?_, fun m output => ?_⟩
  · unfold Run.assignFrom
    cases m.store.binder? env name.text <;> rfl
  · unfold Run.assignFrom
    have same : (m.writingTo output).store = m.store := rfl
    rw [same]
    cases m.store.binder? env name.text <;> rfl

theorem assign {r : Reference} {value : Value} : Silent (Run.assign r value) := by
  refine ⟨.assign, fun m => ?_, fun m output => ?_⟩
  · unfold Run.assign
    cases m.resolution[r.id]? with
    | some distance => rfl
    | none => exact assignFrom.kept m
  · unfold Run.assign
    have same : (m.writingTo output).resolution = m.resolution := rfl
    rw [same]
    cases m.resolution[r.id]? with
    | some distance => rfl
    | none => exact assignFrom.elsewhere m output

end Silent

theorem closed_silent : Closed @Silent where
  pure _ := .pure
  bind := .bind
  observe := .observe
  stop _ _ := .throw
  clockReading := ⟨.clockReading, fun _ => rfl, fun _ _ => rfl⟩
  onStore grows := ⟨.onStore grows, fun _ => rfl, fun _ _ => rfl⟩
  newScope := ⟨.newScope, fun _ => rfl, fun _ _ => rfl⟩
  define _ _ := ⟨.define, fun _ => rfl, fun _ _ => rfl⟩
  lookUp _ := ⟨.lookUp, fun m => Silent.ofExcept.kept m, fun m output =>
    Silent.ofExcept.elsewhere m output⟩
  assign _ _ := .assign
  assignFrom _ _ _ := .assignFrom

theorem Silent.readLine (line : Nat) : Silent (Run.readLine line) :=
  closed_silent.readLine .throw
    (fun _ => ⟨fun _ => ⟨rfl, rfl, rfl, rfl, .refl _⟩, fun _ => rfl, fun _ _ => rfl⟩) line

end Run

end ScopeScript
