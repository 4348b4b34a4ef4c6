import ScopeScript.Proofs.Execution.Footprint
import ScopeScript.Proofs.Scope.Lexical
import ScopeScript.Proofs.Sessions.Compilation

set_option autoImplicit false

namespace ScopeScript

inductive Step where
  | parse (source : String)
  | compile (source : String)
  | run (depth : Nat) (source : String)
  -- The values of the expressions that stand as statements in a text.
  | evaluate (depth : Nat) (source : String)
  | global (name : String)

inductive Answer where
  | tree (result : Except (List Diagnostic) (List Stmt))
  | outcome (outcome : Outcome)
  | values (results : Except (List Diagnostic) (List (Option (Except Halt Value))))
  | global (value : Option Value)

namespace Session

def evaluateAll (depth : Nat) (s : Session) :
    List Stmt → List (Option (Except Halt Value)) × Session
  | [] => ([], s)
  | .expression e :: rest =>
    let (result, s) := s.evaluate depth e
    let (results, s) := evaluateAll depth s rest
    (some result :: results, s)
  | _ :: rest =>
    let (results, s) := evaluateAll depth s rest
    (none :: results, s)

def answer (s : Session) : Step → Answer × Session
  | .parse source =>
    let (result, s) := s.parse source
    (.tree result, s)
  | .compile source =>
    let (result, s) := s.compile source
    (.tree result, s)
  | .run depth source =>
    let (outcome, s) := s.run depth source
    (.outcome outcome, s)
  | .evaluate depth source =>
    match s.compile source with
    | (.error errors, s) => (.values (.error errors), s)
    | (.ok body, s) =>
      let (results, s) := s.evaluateAll depth body
      (.values (.ok results), s)
  | .global name => (.global (s.global? name), s)

def after (s : Session) (steps : List Step) : Session :=
  steps.foldl (fun s step => (s.answer step).2) s

def tree? (s : Session) : Step → Option (List Stmt)
  | .parse source => (s.parse source).1.toOption
  | .compile source | .run _ source | .evaluate _ source => (s.compile source).1.toOption
  | .global _ => none

def Tidy (s : Session) : Prop :=
  ∀ i ∈ s.machine.resolution, i < s.nextId

structure Continues (s s' : Session) : Prop where
  later : s.nextId ≤ s'.nextId
  kept : ∀ i, i < s.nextId → s'.machine.resolution[i]? = s.machine.resolution[i]?
  tidy : s.Tidy → s'.Tidy

namespace Continues

variable {s s₁ s₂ : Session}

theorem refl (s : Session) : s.Continues s := ⟨Nat.le_refl _, fun _ _ => rfl, id⟩

theorem trans (first : s.Continues s₁) (second : s₁.Continues s₂) : s.Continues s₂ where
  later := Nat.le_trans first.later second.later
  kept i given :=
    (second.kept i (Nat.lt_of_lt_of_le given first.later)).trans (first.kept i given)
  tidy := second.tidy ∘ first.tidy

theorem skip {next : Nat} (later : s.nextId ≤ next) : s.Continues { s with nextId := next } :=
  ⟨later, fun _ _ => rfl, fun tidy i entered => Nat.lt_of_lt_of_le (tidy i entered) later⟩

theorem ran {m : Machine} (same : m.resolution = s.machine.resolution) :
    s.Continues { s with machine := m } :=
  ⟨Nat.le_refl _, fun _ _ => by rw [same], fun tidy i entered => tidy i (same ▸ entered)⟩

end Continues

variable {s s' : Session} {source : String} {body : List Stmt}

theorem continues_parse (s : Session) (source : String) : s.Continues (s.parse source).2 := by
  obtain ⟨same, later⟩ := s.parse_snd source
  rw [same]
  exact .skip later

theorem continues_compile (s : Session) (source : String) : s.Continues (s.compile source).2 := by
  cases step : s.compile source with
  | mk result s' =>
    cases result with
    | error errors =>
      obtain ⟨same, later⟩ := compile_eq_error step
      rw [same]
      exact .skip later
    | ok body =>
      obtain ⟨resolution, accepted, -, same, later⟩ := compile_eq_ok step
      have absent (i : Nat) (outside : i < s.nextId ∨ s'.nextId ≤ i) : resolution[i]? = none := by
        refine accepted.others i fun mem => ?_
        have bounds := accepted.fresh.inside i mem
        omega
      rw [same]
      refine ⟨later, fun i given => ?_, fun tidy i entered => ?_⟩
      · simp [getElem?_register, absent i (.inl given)]
      · by_contra free
        have unknown : i ∉ s.machine.resolution := fun old => by
          have given := tidy i old
          simp only at free
          omega
        rw [Std.TreeMap.mem_iff_isSome_getElem?, getElem?_register,
          absent i (.inr (Nat.le_of_not_lt free)), Option.none_or,
          ← Std.TreeMap.mem_iff_isSome_getElem?] at entered
        exact unknown entered

theorem Tidy.unrecorded (tidy : s.Tidy) {i : Nat} (free : s.nextId ≤ i) :
    s.machine.resolution[i]? = none :=
  Std.TreeMap.getElem?_eq_none fun entered => Nat.not_lt_of_le free (tidy i entered)

theorem Tidy.recorded (tidy : s.Tidy) (accepted : s.compile source = (.ok body, s'))
    {table : Resolution} (resolved : resolve body = .ok table) :
    ∀ i ∈ Stmt.idsAll body, s'.machine.resolution[i]? = table[i]? := by
  intro i mem
  obtain ⟨found, known, resolved', entered, -⟩ := compile_eq_ok accepted
  obtain rfl : table = found := Except.ok.inj (resolved.symm.trans resolved')
  have unknown := tidy.unrecorded (known.fresh.inside i mem).1
  rw [entered, getElem?_register, unknown, Option.or_none]

theorem run_snd (s : Session) (depth : Nat) (source : String) :
    (s.run depth source).2 = match s.compile source with
      | (.error _, s) => s
      | (.ok body, s) =>
        { s with machine := Run.ending (Run.program depth body s.machine) } := by
  unfold run
  cases s.compile source with
  | mk result s =>
    cases result with
    | error errors => rfl
    | ok body =>
      simp only
      cases Run.program depth body s.machine with
      | ok _ m => rfl
      | error halt m => cases halt <;> rfl

theorem continues_run (s : Session) (depth : Nat) (source : String) :
    (s.compile source).2.Continues (s.run depth source).2 := by
  rw [run_snd]
  cases s.compile source with
  | mk result s =>
    cases result with
    | error errors => exact .refl s
    | ok body =>
      refine .ran ?_
      rw [Run.ending_program]
      exact (Run.keeps_executeProgram depth body s.machine).resolution

theorem continues_evaluate (s : Session) (depth : Nat) (e : Expr) :
    s.Continues (s.evaluate depth e).2 := by
  have kept := (Run.keeps_evaluate depth e s.machine).resolution
  unfold evaluate
  cases ran : Run.evaluate depth e s.machine with
  | ok _ m | error _ m =>
    rw [ran] at kept
    exact .ran kept

theorem continues_evaluateAll (depth : Nat) (body : List Stmt) (s : Session) :
    s.Continues (s.evaluateAll depth body).2 := by
  induction body generalizing s with
  | nil => exact .refl s
  | cons first rest ih =>
    cases first with
    | expression e => exact (s.continues_evaluate depth e).trans (ih _)
    | _ => exact ih s

theorem continues_values (s : Session) (depth : Nat) (source : String) :
    (s.compile source).2.Continues (s.answer (.evaluate depth source)).2 := by
  have same : (s.answer (.evaluate depth source)).2 = match s.compile source with
      | (.error _, s) => s
      | (.ok body, s) => (s.evaluateAll depth body).2 := by
    unfold answer
    simp only
    cases s.compile source with
    | mk result s => cases result <;> rfl
  rw [same]
  cases s.compile source with
  | mk result s =>
    cases result with
    | error errors => exact .refl s
    | ok body => exact s.continues_evaluateAll depth body

theorem continues_answer (s : Session) (step : Step) : s.Continues (s.answer step).2 := by
  cases step with
  | parse source => exact s.continues_parse source
  | compile source => exact s.continues_compile source
  | run depth source => exact (s.continues_compile source).trans (s.continues_run depth source)
  | evaluate depth source =>
    exact (s.continues_compile source).trans (s.continues_values depth source)
  | global name => exact .refl s

theorem continues_after (s : Session) (steps : List Step) : s.Continues (s.after steps) := by
  induction steps generalizing s with
  | nil => exact .refl s
  | cons step rest ih => exact (s.continues_answer step).trans (ih _)

theorem fresh_compile (read : (s.compile source).1.toOption = some body) :
    Fresh s.nextId (s.compile source).2.nextId (Stmt.idsAll body) := by
  cases step : s.compile source with
  | mk result s' =>
    rw [step] at read
    cases result with
    | error errors => cases read
    | ok statements =>
      obtain rfl := Option.some.inj read
      obtain ⟨resolution, accepted, -⟩ := compile_eq_ok step
      exact accepted.fresh

theorem fresh_tree {step : Step} (read : s.tree? step = some body) :
    Fresh s.nextId (s.answer step).2.nextId (Stmt.idsAll body) := by
  cases step with
  | parse source =>
    cases result : (s.parse source).1 with
    | error errors => simp [tree?, result, Except.toOption] at read
    | ok statements =>
      obtain rfl : statements = body := by simpa [tree?, result, Except.toOption] using read
      exact (of_parse_eq_ok result).1
  | compile source => exact fresh_compile read
  | run depth source => exact (fresh_compile read).mono (s.continues_run depth source).later
  | evaluate depth source => exact (fresh_compile read).mono (s.continues_values depth source).later
  | global name => cases read

theorem tidy_start (output : Sink) (input : Input) (clock : Clock) (library : Library) :
    (start (.initial output input clock) library).Tidy := by
  intro i entered
  exact absurd entered (by simp [start, Machine.initial, Machine.natives, Machine.defineNative])

/--
In a session that starts anew, the references of the tree of any step have different numbers, given
out in that step and to no other tree, for which nothing is recorded before. What is recorded stays,
and where nothing is, nothing will be.
-/
theorem numbers_apart (output : Sink) (input : Input) (clock : Clock) (library : Library)
    (earlier : List Step) (step : Step) (later : List Step) :
    let s := (start (.initial output input clock) library).after earlier
    let s' := (s.answer step).2
    s.nextId ≤ s'.nextId ∧
    (∀ i ∈ s.machine.resolution,
      (s'.after later).machine.resolution[i]? = s.machine.resolution[i]?) ∧
    ∀ body, s.tree? step = some body →
      (Stmt.idsAll body).Nodup ∧
      ∀ i ∈ Stmt.idsAll body,
        s.nextId ≤ i ∧ i < s'.nextId ∧ i ∉ s.machine.resolution ∧
        (s'.after later).machine.resolution[i]? = s'.machine.resolution[i]? ∧
        ∀ step' body', (s'.after later).tree? step' = some body' → i ∉ Stmt.idsAll body' := by
  intro s s'
  have tidy : s.Tidy := (continues_after _ earlier).tidy (tidy_start output input clock library)
  have here := s.continues_answer step
  have after := s'.continues_after later
  refine ⟨here.later, fun i entered => (here.trans after).kept i (tidy i entered),
    fun body read => ?_⟩
  have fresh := fresh_tree read
  refine ⟨fresh.distinct, fun i mem => ?_⟩
  obtain ⟨above, below⟩ := fresh.inside i mem
  have unentered : i ∉ s.machine.resolution := fun entered => by
    have given := tidy i entered
    omega
  refine ⟨above, below, unentered, after.kept i below, fun step' body' read' mem' => ?_⟩
  have bounds := (fresh_tree read').inside i mem'
  have given : i < (s'.after later).nextId := Nat.lt_of_lt_of_le below after.later
  omega

def updates : Step := .compile "{var a;a.b+=a;}"

theorem numbers_apart_updates : ∃ (s : Session) (first second : List Stmt),
    s.tree? updates = some first ∧ (s.after [updates]).tree? updates = some second ∧
      (Stmt.idsAll first).length = 3 ∧ (Stmt.idsAll first).Nodup ∧
      ∀ i ∈ Stmt.idsAll first, i ∉ Stmt.idsAll second := by
  let s : Session := start (.initial .unlimited ⟨[], true⟩ ⟨fun _ => "", fun _ => 0⟩)
    (.ofFiles [] "")
  have counted : (s.tree? updates).map (fun body => (Stmt.idsAll body).length) = some 3 := by
    decide +kernel
  have again : ((s.after [updates]).tree? updates).isSome = true := by decide +kernel
  obtain ⟨first, read, three⟩ := Option.map_eq_some_iff.mp counted
  obtain ⟨second, read'⟩ := Option.isSome_iff_exists.mp again
  have apart := (numbers_apart .unlimited ⟨[], true⟩ ⟨fun _ => "", fun _ => 0⟩ (.ofFiles [] "")
    [] updates []).2.2 first read
  exact ⟨s, first, second, read, read', three, apart.1, fun i mem =>
    (apart.2 i mem).2.2.2.2 updates second read'⟩

end Session

end ScopeScript
