import ScopeScript.Proofs.Execution.Depth
import ScopeScript.Proofs.Likeness.Twins

set_option autoImplicit false

namespace ScopeScript

namespace Run

variable {α β : Type} {g : Nat → Nat} {R : Resolution}

def relined (g : Nat → Nat) : Outcome α → Outcome α
  | .ok a m => .ok a m
  | .error (.fault d) m => .error (.fault (d.mapLine g)) m
  | .error halt m => .error halt m

theorem relined_id (r : Outcome α) : relined id r = r := by
  rcases r with _ | ⟨_ | _ | _, _⟩
  · rfl
  · rw [relined, Diagnostic.mapLine_id]
  · rfl
  · rfl

theorem relined_eq_ok {r : Outcome α} {a : α} {m : Machine} :
    relined g r = .ok a m ↔ r = .ok a m := by
  rcases r with _ | ⟨_ | _ | _, _⟩ <;> simp [relined]

theorem relined_eq_exhausted {r : Outcome α} {m : Machine} :
    relined g r = .error .exhausted m ↔ r = .error .exhausted m := by
  rcases r with _ | ⟨_ | _ | _, _⟩ <;> simp [relined]

theorem relined_error_congr {halt halt' : Halt} {m m' : Machine}
    (same : relined g (.error halt m : Outcome α) = relined g (.error halt' m')) :
    relined g (.error halt m : Outcome β) = relined g (.error halt' m') := by
  cases halt <;> cases halt' <;> simp_all [relined]

def Parallel (g : Nat → Nat) (R : Resolution) (p p' : Run α) : Prop :=
  ∀ m : Machine, m.resolution = R → relined g (p m) = relined g (p' m)

namespace Parallel

variable {p p' : Run α} {f f' : α → Run β} {line line' : Nat}

theorem refl (p : Run α) : Parallel g R p p := fun _ _ => rfl

theorem bind (keeps : Keeps p) (first : Parallel g R p p')
    (second : ∀ a, Parallel g R (f a) (f' a)) : Parallel g R (p >>= f) (p' >>= f') := by
  intro m known
  have same := first m known
  cases ran : p m with
  | ok a m₁ =>
    rw [ran] at same
    have known₁ : m₁.resolution = R := (keeps.of_ok ran).resolution.trans known
    rw [bind_of_ok ran, bind_of_ok (relined_eq_ok.mp same.symm)]
    exact second a m₁ known₁
  | error halt m₁ =>
    cases ran' : p' m with
    | ok a m₁' =>
      rw [ran, ran'] at same
      cases relined_eq_ok.mp same
    | error halt' m₁' =>
      rw [bind_of_error ran, bind_of_error ran']
      rw [ran, ran'] at same
      exact relined_error_congr same

theorem ite {b : Bool} {q q' : Run α} (first : Parallel g R p p') (second : Parallel g R q q') :
    Parallel g R (if b then p else q) (if b then p' else q') := by
  cases b
  · exact second
  · exact first

theorem stop (level : g line = g line') (fault : RuntimeFault) :
    Parallel g R (Run.stop line fault : Run α) (Run.stop line' fault) :=
  fun m _ => congrArg (fun l => (.error (.fault (.runtime l fault)) m : Outcome α)) level

theorem ofOperation (level : g line = g line') (result : Except RuntimeFault α) :
    Parallel g R (Run.ofOperation line result) (Run.ofOperation line' result) := by
  cases result with
  | ok a => exact .refl _
  | error fault => exact .stop level fault

-- References that are equally far from their variables, and properties.

variable {r r' : Reference} {name name' : Name}

theorem lookUp (alike : r.Alike (.twins g fun i j => R[i]? = R[j]?) [] r') :
    Parallel g R (Run.lookUp r) (Run.lookUp r') := by
  rintro m rfl
  obtain ⟨_, same, -⟩ := alike.linked
  have text := ScopeState.Level.text alike
  have line : g r.name.line = g r'.name.line := alike.line
  have missing : relined g (.error (.fault (Store.undefined r.name)) m : Outcome Value) =
      relined g (.error (.fault (Store.undefined r'.name)) m) := by
    simp [relined, Store.undefined, Diagnostic.mapLine, line, text]
  unfold Run.lookUp
  rw [← show m.resolution[r.id]? = m.resolution[r'.id]? from same]
  cases m.resolution[r.id]? with
  | none =>
    simp only [Store.read, text]
    cases m.store.get? .root r.name.text with
    | none => exact missing
    | some value => rfl
  | some distance =>
    simp only [Store.readAt, text]
    cases m.store.getAt? m.environment distance r.name.text with
    | none => exact missing
    | some value => rfl

theorem assign (alike : r.Alike (.twins g fun i j => R[i]? = R[j]?) [] r') (value : Value) :
    Parallel g R (Run.assign r value) (Run.assign r' value) := by
  rintro m rfl
  obtain ⟨_, same, -⟩ := alike.linked
  have text := ScopeState.Level.text alike
  have line : g r.name.line = g r'.name.line := alike.line
  unfold Run.assign
  rw [← show m.resolution[r.id]? = m.resolution[r'.id]? from same]
  cases m.resolution[r.id]? with
  | none =>
    simp only [Run.assignFrom, text]
    cases m.store.binder? .root r.name.text with
    | none => simp [relined, Store.undefined, Diagnostic.mapLine, line, text]
    | some address => rfl
  | some distance => simp only [text]

theorem property (i : Instance) (alike : name.Alike (.twins g fun i j => R[i]? = R[j]?) name') :
    Parallel g R (Run.property i name) (Run.property i name') := by
  unfold Run.property
  rw [alike.text]
  refine bind .get (.refl _) fun m => ?_
  cases m.store.field? i name.text with
  | some value => exact .refl _
  | none =>
    cases i.ofClass.method? name.text with
    | some method => exact .refl _
    | none => exact .stop alike.line _

theorem inherited (alike : r.Alike (.twins g fun i j => R[i]? = R[j]?) [] r')
    (named : name.Alike (.twins g fun i j => R[i]? = R[j]?) name') :
    Parallel g R (Run.inherited r name) (Run.inherited r' name') := by
  intro m known
  obtain ⟨_, same, -⟩ := alike.linked
  have got : (get : Run Machine) m = .ok m m := rfl
  unfold Run.inherited
  rw [bind_of_ok got, bind_of_ok got, known, ← show R[r.id]? = R[r'.id]? from same]
  suffices h : Parallel g R _ _ from h m known
  cases R[r.id]? with
  | none =>
    rw [ScopeState.Level.text alike]
    exact .stop alike.line _
  | some distance =>
    simp only [named.text]
    split
    · split
      · exact .refl _
      · exact .stop named.line _
    · exact .stop alike.line _

-- Calls on other lines.

theorem checkArity (level : g line = g line') (expected got : Nat) :
    Parallel g R (Run.checkArity expected got line) (Run.checkArity expected got line') := by
  unfold Run.checkArity
  split
  · exact .refl _
  · exact .stop level _

theorem callNative (level : g line = g line') (body : NativeBody) (arguments : List Value) :
    Parallel g R (Run.callNative body arguments line) (Run.callNative body arguments line') := by
  cases body with
  | clock | tick | typeOf => exact .refl _
  | read =>
    refine bind .get (.refl _) fun m => ?_
    split
    · exact .refl _
    · exact .refl _
    · refine bind (fun m => ⟨rfl, rfl, rfl, rfl, .refl _⟩) (.refl _) fun _ => ?_
      split
      · exact .refl _
      · exact .stop level _
  | greet =>
    refine bind .write (.refl _) fun fits => ?_
    split
    · exact .refl _
    · exact .stop level _
  | host slot =>
    intro m known
    change relined g (Run.callHost slot arguments line m) =
      relined g (Run.callHost slot arguments line' m)
    unfold Run.callHost
    rcases m.hosts[slot]? with _ | f
    · rfl
    · simp only
      rcases f arguments m.output with ⟨message | value, output⟩
      · exact Parallel.stop level _ _ known
      · rfl

theorem call (level : g line = g line') (n : Nat) (callee : Value) (arguments : List Value) :
    Parallel g R (Run.call n callee line arguments) (Run.call n callee line' arguments) := by
  cases n with
  | zero => exact .refl _
  | succ n =>
    have checks (arity : Nat) {after after' : Unit → Run Value}
        (rest : ∀ u, Parallel g R (after u) (after' u)) :
        Parallel g R (Run.checkArity arity arguments.length line >>= after)
          (Run.checkArity arity arguments.length line' >>= after') :=
      bind (closedRuns_keeps.checkArity _ _ _) (checkArity level _ _) rest
    cases callee with
    | function f => exact checks _ fun _ => .refl _
    | «class» c => exact checks _ fun _ => .refl _
    | native f => exact checks _ fun _ => callNative level _ _
    | nil | bool | number | string | «instance» => exact .stop level _

end Parallel

mutual

theorem parallel_evaluate : ∀ (n : Nat) {e e' : Expr}, e.Twins g R R e' →
    Parallel g R (evaluate n e) (evaluate n e')
  | 0, _, _, _ => .refl _
  | _ + 1, _, _, .literal => .refl _
  | n + 1, _, _, .grouping inner => parallel_evaluate n inner
  | n + 1, .unary _ _ e, _, .unary line inner =>
    (parallel_evaluate n inner).bind (keeps_evaluate n e) fun _ => .ofOperation line _
  | n + 1, .binary _ _ e f, _, .binary line left right =>
    (parallel_evaluate n left).bind (keeps_evaluate n e) fun _ =>
      (parallel_evaluate n right).bind (keeps_evaluate n f) fun _ => .ofOperation line _
  | n + 1, .logical op e f, _, .logical left right => by
    refine (parallel_evaluate n left).bind (keeps_evaluate n e) fun value => ?_
    cases op <;> exact (Parallel.refl _).ite (parallel_evaluate n right)
  | _ + 1, _, _, .var r => .lookUp r
  | n + 1, .assign _ e, _, .assign r inner =>
    (parallel_evaluate n inner).bind (keeps_evaluate n e) fun value =>
      (Parallel.assign r value).bind .assign fun _ => .refl _
  | n + 1, .call e _ es, _, .call line callee arguments =>
    (parallel_evaluate n callee).bind (keeps_evaluate n e) fun f =>
      (parallel_evaluateAll n arguments).bind (keeps_evaluateAll n es) fun values =>
        .call line n f values
  | n + 1, .get e _, _, .get name inner => by
    refine (parallel_evaluate n inner).bind (keeps_evaluate n e) fun value => ?_
    cases value with
    | «instance» i => exact .property i name
    | nil | bool | number | string | function | native | «class» => exact .stop name.line _
  | n + 1, .set o key e, .set o' key' e', .set name object inner => by
    refine (parallel_evaluate n object).bind (keeps_evaluate n o) fun value => ?_
    cases value with
    | «instance» i =>
      rw [name.text]
      exact (parallel_evaluate n inner).bind (keeps_evaluate n e) fun _ => .refl _
    | nil | bool | number | string | function | native | «class» => exact .stop name.line _
  | _ + 1, _, _, .self r => .lookUp r
  | _ + 1, _, _, .super r name => .inherited r name

theorem parallel_evaluateAll : ∀ (n : Nat) {es es' : List Expr},
    Expr.AllAlike (.twins g fun i j => R[i]? = R[j]?) [] es es' →
      Parallel g R (evaluateAll n es) (evaluateAll n es')
  | 0, _, _, _ => .refl _
  | _ + 1, _, _, .nil => .refl _
  | n + 1, e :: es, _, .cons first rest =>
    (parallel_evaluate n first).bind (keeps_evaluate n e) fun _ =>
      (parallel_evaluateAll n rest).bind (keeps_evaluateAll n es) fun _ => .refl _

end

end Run

end ScopeScript
