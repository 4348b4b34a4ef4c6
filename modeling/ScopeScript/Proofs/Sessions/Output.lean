import ScopeScript.Proofs.Execution.Overflow
import ScopeScript.Proofs.Sessions.Trails

set_option autoImplicit false

namespace ScopeScript

namespace Session

def writingTo (s : Session) (output : Sink) : Session :=
  { s with machine := s.machine.writingTo output }

theorem compile_writingTo (s : Session) (output : Sink) (source : String) :
    (s.writingTo output).compile source =
      ((s.compile source).1, (s.compile source).2.writingTo output) := by
  have parsed : (s.writingTo output).parse source =
      ((s.parse source).1, (s.parse source).2.writingTo output) := by
    unfold Session.parse
    have same : (s.writingTo output).library = s.library := rfl
    rw [same]
    cases (s.library.process [] source).result <;> rfl
  unfold Session.compile
  rw [parsed]
  generalize s.parse source = step
  obtain ⟨result, s₁⟩ := step
  cases result with
  | error errors => rfl
  | ok body =>
    simp only
    cases resolve body <;> rfl

section Writing

variable {s s₁ : Session} {source : String} {output : Sink}

theorem run_writingTo_of_refused {errors : List Diagnostic}
    (refused : s.compile source = (.error errors, s₁)) (depth : Nat) :
    (s.writingTo output).run depth source = (.compileErrors errors, s₁.writingTo output) := by
  unfold run
  rw [compile_writingTo, refused]

theorem compile_writingTo_of_accepted {body : List Stmt}
    (accepted : s.compile source = (.ok body, s₁)) :
    (s.writingTo output).compile source = (.ok body, s₁.writingTo output) := by
  rw [compile_writingTo, accepted]

theorem run_writingTo_of_accepted {body : List Stmt} (accepted : s.compile source = (.ok body, s₁))
    (depth : Nat) :
    (s.writingTo output).run depth source =
      (.of (Run.program depth body (s₁.machine.writingTo output)),
        { s₁ with machine := Run.ending (Run.program depth body (s₁.machine.writingTo output)) }) :=
  run_of_compile (compile_writingTo_of_accepted accepted) depth

theorem free_of_accepted {body : List Stmt} (accepted : s.compile source = (.ok body, s₁))
    (hosts : ∀ f ∈ s.machine.hosts, HostFunction.FailStop f) (written : ByteArray) :
    (s₁.machine.writingTo ⟨written, none, false⟩).Free := by
  obtain ⟨_, -, -, same, -⟩ := compile_eq_ok accepted
  refine ⟨rfl, rfl, ?_⟩
  change ∀ f ∈ s₁.machine.hosts, HostFunction.FailStop f
  rw [show s₁.machine.hosts = s.machine.hosts from congrArg (·.machine.hosts) same]
  exact hosts

end Writing

def unlimited (s : Session) : Session := s.writingTo ⟨s.machine.output.written, none, false⟩

def limitedTo (room : Nat) (s : Session) : Session :=
  s.writingTo ⟨s.machine.output.written, some (s.machine.output.written.size + room), false⟩

/--
A text is run on an output that takes everything and on one that takes `room` more bytes, in any
state whose host functions stop at what they cannot write. The second run writes the first `room`
bytes of what the first one writes. If these are all, both come to the same. If not, the second run
ends with a fault at a point that the first run reaches and at which a text does not fit any more.
Apart from what fits of the text, its state is the one in which the text was to be written.
-/
theorem limited_run (s : Session) (hosts : ∀ f ∈ s.machine.hosts, HostFunction.FailStop f)
    (depth : Nat) (source : String) (room : Nat) :
    let before := s.machine.output.written
    let whole := s.unlimited.run depth source
    let part := (s.limitedTo room).run depth source
    ∃ bytes : ByteArray,
      whole.2.machine.output = ⟨before ++ bytes, none, false⟩ ∧
      part.2.machine.output =
        ⟨before ++ bytes.extract 0 room, some (before.size + room), false⟩ ∧
      (bytes.size ≤ room → part.1 = whole.1 ∧ part.2 = whole.2.writingTo part.2.machine.output) ∧
      (room < bytes.size → ∃ body compiled q m text d,
        s.unlimited.compile source = (.ok body, compiled) ∧
        Reaches ⟨depth, .program body, compiled.machine⟩ q ∧ Emits q m text d ∧
        m.output.written.size ≤ before.size + room ∧
        before.size + room < m.output.written.size + text.utf8ByteSize ∧
        part.1 = .runtimeError d ∧
        part.2 = { compiled with
          machine := (m.inside .root).writingTo part.2.machine.output }) := by
  intro before whole part
  cases step : s.compile source with
  | mk result s₁ =>
    cases result with
    | error errors =>
      have ended : whole = (.compileErrors errors, s₁.writingTo ⟨before, none, false⟩) :=
        run_writingTo_of_refused step depth
      have ended' : part =
          (.compileErrors errors, s₁.writingTo ⟨before, some (before.size + room), false⟩) :=
        run_writingTo_of_refused step depth
      rw [ended, ended']
      refine ⟨.empty, ?_, ?_, fun _ => ⟨rfl, rfl⟩, fun more => absurd more (Nat.not_lt_zero _)⟩
      · rw [ByteArray.append_empty]
        rfl
      · rw [Sink.extract_within (Nat.zero_le _), ByteArray.append_empty]
        rfl
    | ok body =>
      let m := s₁.machine.writingTo ⟨before, none, false⟩
      have cutMachine : s₁.machine.writingTo ⟨before, some (before.size + room), false⟩ =
          m.cut (before.size + room) :=
        congrArg m.writingTo (Sink.cut_within (s := m.output) (Nat.le_add_right _ _)).symm
      have ran : whole = (.of (Run.program depth body m),
          { s₁ with machine := Run.ending (Run.program depth body m) }) :=
        run_writingTo_of_accepted step depth
      have ran' : part =
          (.of (Run.program depth body (m.cut (before.size + room))), { s₁ with
            machine := Run.ending (Run.program depth body (m.cut (before.size + room))) }) :=
        cutMachine ▸ run_writingTo_of_accepted step depth
      have compiled : s.unlimited.compile source =
          (.ok body, s₁.writingTo ⟨before, none, false⟩) :=
        compile_writingTo_of_accepted step
      have root := congrArg Machine.environment
        (Run.ending_program depth body (m.cut (before.size + room)))
      obtain ⟨bytes, whole, part, same, stopped⟩ :=
        (Run.limited_program (before.size + room) depth body m (free_of_accepted step hosts before)
          (Nat.le_add_right _ _)).compare rfl
      rw [ran, ran']
      refine ⟨bytes, whole, part, fun fit => ?_, fun past => ?_⟩
      · rw [same fit, Run.ending_cut]
        cases Run.program depth body m <;> exact ⟨rfl, rfl⟩
      · obtain ⟨q, m₁, text, d, env, later, emits, within, beyond, stop⟩ := stopped past
        rw [stop] at root ⊢
        obtain rfl : env = .root := root
        exact ⟨body, _, q, m₁, text, d, compiled, later, emits, within, beyond, rfl, rfl⟩

def noting : Session :=
  (start (.initial .unlimited ⟨[], true⟩ ⟨fun _ => "", fun _ => 0⟩) (.ofFiles [] "")).defineHost
    "note" 1 fun arguments output =>
      let text := String.join (arguments.map Value.text)
      (if output.accepts text then .ok .nil else .error "full", output.write text)

theorem limited_run_noting :
    let part := (noting.limitedTo 7).run 9 "note(\"a\");print 1;sayHi(\"b\");"
    (∀ f ∈ noting.machine.hosts, HostFunction.FailStop f) ∧
    part.2.machine.output.written.data = "a1\nHell".toUTF8.data ∧
    ∃ q m text d, Emits q m text d ∧ part.1 = .runtimeError d ∧
      m.output.written.size ≤ 7 ∧ 7 < m.output.written.size + text.utf8ByteSize := by
  intro part
  have hosts : ∀ f ∈ noting.machine.hosts, HostFunction.FailStop f := by
    intro f mem
    obtain rfl := List.mem_singleton.mp mem
    exact fun arguments =>
      ⟨String.join (arguments.map Value.text), "full", .ok .nil, fun _ _ => rfl⟩
  obtain ⟨bytes, whole, -, -, stopped⟩ :=
    limited_run noting hosts 9 "note(\"a\");print 1;sayHi(\"b\");" 7
  have all : (noting.unlimited.run 9
      "note(\"a\");print 1;sayHi(\"b\");").2.machine.output.written.size = 12 := by decide +kernel
  have past : 7 < bytes.size := by
    rw [whole, ByteArray.size_append, show noting.machine.output.written.size = 0 from rfl] at all
    omega
  obtain ⟨-, -, q, m, text, d, -, -, emits, within, beyond, outcome, -⟩ := stopped past
  exact ⟨hosts, by decide +kernel, q, m, text, d, emits, outcome, within, beyond⟩

end Session

end ScopeScript
