import ScopeScript.Proofs.Sessions.Trails

set_option autoImplicit false

namespace ScopeScript

def Answer.rejects : Answer → Bool
  | .tree (.error _) | .outcome (.compileErrors _) | .values (.error _) => true
  | _ => false

/-- An answer without the numbers of references. -/
def Answer.bare : Answer → Answer
  | .tree result => .tree (result.map Stmt.anonymousAll)
  | .outcome ending => .outcome ending
  | .values results => .values (results.map Session.bareValues)
  | .global value => .global (value.map (Value.bare id))

namespace Session

def answers (s : Session) : List Step → List Answer
  | [] => []
  | step :: rest => (s.answer step).1 :: (s.answer step).2.answers rest

variable {low k : Nat} {s s' : Session}

theorem Trails.values (t : Trails low k s s') (depth : Nat) (source : String) :
    (s'.answer (.evaluate depth source)).1.bare = (s.answer (.evaluate depth source)).1.bare ∧
      Trails low k (s.answer (.evaluate depth source)).2
        (s'.answer (.evaluate depth source)).2 := by
  obtain ⟨same, trails⟩ := t.compile source
  have fresh := fun body => @fresh_compile s source body
  simp only [Session.answer]
  generalize s.compile source = step at same trails fresh ⊢
  generalize s'.compile source = step' at same trails ⊢
  obtain ⟨result, s₁⟩ := step
  obtain ⟨result', s₁'⟩ := step'
  obtain rfl := same
  cases result with
  | error errors => exact ⟨rfl, trails⟩
  | ok body =>
    have given := (fresh body rfl).inside
    have alike := allAlike_counterpart (s := s₁) low k fun i mem => (given i mem).2
    obtain ⟨values, last⟩ := trails.evaluateAll depth alike
    exact ⟨congrArg (fun results => Answer.values (.ok results)) values, last⟩

theorem anonymousAll_eq {f : Nat → Nat} {result result' : Except (List Diagnostic) (List Stmt)}
    (same : result' = result.map (Stmt.mapIdsAll f)) :
    result'.map Stmt.anonymousAll = result.map Stmt.anonymousAll := by
  subst same
  cases result with
  | error errors => rfl
  | ok body => exact congrArg Except.ok (Stmt.mapIdsAll_mapIdsAll _ _ body)

theorem Trails.answer (t : Trails low k s s') (step : Step) :
    (s'.answer step).1.bare = (s.answer step).1.bare ∧
      Trails low k (s.answer step).2 (s'.answer step).2 := by
  cases step with
  | parse source =>
    obtain ⟨same, trails⟩ := t.parse source
    exact ⟨congrArg Answer.tree (anonymousAll_eq same), trails⟩
  | compile source =>
    obtain ⟨same, trails⟩ := t.compile source
    exact ⟨congrArg Answer.tree (anonymousAll_eq same), trails⟩
  | run depth source =>
    obtain ⟨same, trails⟩ := t.run depth source
    exact ⟨congrArg Answer.outcome same, trails⟩
  | evaluate depth source => exact t.values depth source
  | global name => exact ⟨congrArg Answer.global (t.global? name), t⟩

theorem Trails.answers (t : Trails low k s s') (steps : List Step) :
    (s'.answers steps).map Answer.bare = (s.answers steps).map Answer.bare ∧
      Trails low k (s.after steps) (s'.after steps) := by
  induction steps generalizing s s' with
  | nil => exact ⟨rfl, t⟩
  | cons step rest ih =>
    obtain ⟨first, trails⟩ := t.answer step
    obtain ⟨others, last⟩ := ih trails
    exact ⟨congrArg₂ List.cons first others, last⟩

theorem rejects_of (result : EStateM.Result Halt Machine Unit) :
    (Answer.outcome (.of result)).rejects = false := by
  cases result with
  | ok => rfl
  | error halt => cases halt <;> rfl

theorem answer_of_rejects {step : Step} (rejected : (s.answer step).1.rejects = true) :
    (s.answer step).2 = { s with nextId := (s.answer step).2.nextId } ∧
      s.nextId ≤ (s.answer step).2.nextId := by
  cases step with
  | parse source => exact s.parse_snd source
  | compile source =>
    unfold Session.answer at rejected ⊢
    cases step : s.compile source with
    | mk result s₁ =>
      simp only [step] at rejected ⊢
      cases result with
      | error errors => exact compile_eq_error step
      | ok body => cases rejected
  | run depth source =>
    have ended := s.run_fst depth source
    have after := s.run_snd depth source
    unfold Session.answer at rejected ⊢
    cases step : s.compile source with
    | mk result s₁ =>
      simp only [step] at ended after
      cases result with
      | error errors => exact after ▸ compile_eq_error step
      | ok body =>
        have ran : (Answer.outcome (s.run depth source).1).rejects = true := rejected
        rw [ended, rejects_of] at ran
        cases ran
  | evaluate depth source =>
    unfold Session.answer at rejected ⊢
    cases step : s.compile source with
    | mk result s₁ =>
      simp only [step] at rejected ⊢
      cases result with
      | error errors => exact compile_eq_error step
      | ok body => cases rejected
  | global name => cases rejected

end Session

/--
A text that is rejected changes nothing that a program or its surroundings could notice: the machine
is as before, with all that it has written, bound and recorded, and whatever is asked of the session
later is answered and done as if the text had never been there. Host functions are taken to tell
apart only what a program can tell apart.
-/
theorem History.Arises.rejected_untraced {h : History} (arises : h.Arises)
    (oblivious : ∀ f ∈ h.session.machine.hosts, HostFunction.Oblivious f) (step : Step)
    (rejected : (h.session.answer step).1.rejects = true) :
    let s := h.session
    let s' := (s.answer step).2
    s'.machine = s.machine ∧ s'.library = s.library ∧ ∀ later : List Step,
      (s'.answers later).map Answer.bare = (s.answers later).map Answer.bare ∧
      (s'.after later).machine.output = (s.after later).machine.output ∧
      (∀ address name,
        ((s'.after later).machine.store.lookup address name).map (Value.bare id) =
          ((s.after later).machine.store.lookup address name).map (Value.bare id)) ∧
      ∀ i name,
        ((s'.after later).machine.store.field? i name).map (Value.bare id) =
          ((s.after later).machine.store.field? i name).map (Value.bare id) := by
  intro s s'
  obtain ⟨same, later⟩ := Session.answer_of_rejects rejected
  obtain ⟨k, given⟩ := Nat.exists_eq_add_of_le later
  have skipped : s' = { s with nextId := s.nextId + k } := same.trans (by rw [given])
  rw [skipped]
  refine ⟨rfl, rfl, fun later => ?_⟩
  obtain ⟨answers, t⟩ := ((arises.trails oblivious).1.gap k).answers later
  obtain ⟨ρ, machines⟩ := t.machine
  exact ⟨answers, machines.output,
    machines.store.bare_lookup (Session.levels_link id) Session.plain_link,
    machines.store.bare_field? (Session.levels_link id) Session.plain_link⟩

def echo : HostFunction := fun arguments output => (.ok (arguments.headD .nil), output)

def echoing : History :=
  let s := Session.start (.initial .unlimited ⟨[], true⟩ ⟨fun _ => "", fun _ => 0⟩) (.ofFiles [] "")
  ⟨s.defineHost "echo" 1 echo, [], []⟩

theorem oblivious_echo : HostFunction.Oblivious echo := by
  intro arguments arguments' output alike
  cases alike with
  | nil => exact .inl ⟨.nil, output, trivial, rfl, rfl⟩
  | cons => exact .inr (.inl ⟨0, _, _, output, rfl, rfl, rfl, rfl⟩)

theorem History.Arises.rejected_untraced_initializer : ∃ (h : History) (step : Step),
    h.Arises ∧ h.session.machine.hosts = [echo] ∧ (h.session.answer step).1.rejects = true ∧
      h.session.nextId < (h.session.answer step).2.nextId ∧
      ((h.session.answer step).2.answers [.run 9 "print echo(a);"]).map Answer.bare =
        (h.session.answers [.run 9 "print echo(a);"]).map Answer.bare := by
  have arises : echoing.Arises := by
    refine .host "echo" 1 (.start _ _ _ _) fun arguments output value output' given => ?_
    cases arguments with
    | nil => cases given; exact .inl trivial
    | cons => cases given; exact .inr List.mem_cons_self
  have hosts : echoing.session.machine.hosts = [echo] := rfl
  have rejected : (echoing.session.answer (.compile "{var a = a;}")).1.rejects = true := by
    decide +kernel
  have given : echoing.session.nextId <
      (echoing.session.answer (.compile "{var a = a;}")).2.nextId := by decide +kernel
  have untraced := arises.rejected_untraced
    (fun f mem => List.mem_singleton.mp (hosts ▸ mem) ▸ oblivious_echo) _ rejected
  exact ⟨echoing, _, arises, hosts, rejected, given, (untraced.2.2 _).1⟩

end ScopeScript
