import ScopeScript.Proofs.Execution.Iterations
import ScopeScript.Proofs.Execution.Point
import ScopeScript.Proofs.Execution.Silence

set_option autoImplicit false

/-!
Runs whose output has a limit.

Such a run goes as it does without a limit until a text does not fit any more. What fits of that
text is written, and the run stops there with a fault. Main statement: `limited_program`.
-/

namespace ScopeScript

namespace Sink

def cut (limit : Nat) (s : Sink) : Sink := ⟨s.written.extract 0 limit, some limit, false⟩

def WithinLimit (s : Sink) : Prop := ∀ limit ∈ s.limit, s.written.size ≤ limit

variable {s : Sink} {limit : Nat} {text : String}

theorem extract_within {bytes : ByteArray} (within : bytes.size ≤ limit) :
    bytes.extract 0 limit = bytes :=
  ByteArray.ext (ByteArray.data_extract .. ▸ Array.extract_eq_self_of_le within)

theorem cut_within (within : s.written.size ≤ limit) :
    s.cut limit = ⟨s.written, some limit, false⟩ := by
  unfold cut
  rw [extract_within within]

theorem extract_append_add (first more : ByteArray) (room : Nat) :
    (first ++ more).extract 0 (first.size + room) = first ++ more.extract 0 room := by
  rw [ByteArray.extract_append, extract_within (Nat.le_add_right _ _), Nat.zero_sub,
    Nat.add_sub_cancel_left]

theorem withinLimit_cut : (s.cut limit).WithinLimit := by
  rintro _ ⟨⟩
  exact ByteArray.size_extract ▸ Nat.min_le_left _ _

theorem write_cut (unlimited : s.limit = none) :
    (s.cut limit).write text = (s.write text).cut limit := by
  have whole : s.fitting text = text.toUTF8 := by
    unfold fitting
    rw [unlimited]
  have part : (s.cut limit).fitting text = text.toUTF8.extract 0 (limit - s.written.size) := by
    unfold fitting cut
    simp only [ByteArray.size_extract]
    congr 1
    omega
  unfold write
  rw [whole, part]
  simp only [cut, ByteArray.extract_append, Nat.zero_sub]

theorem accepts_of_unlimited (unlimited : s.limit = none) : s.accepts text = true := by
  unfold accepts
  rw [unlimited]

theorem accepts_cut (within : s.written.size ≤ limit) :
    (s.cut limit).accepts text = decide (s.written.size + text.utf8ByteSize ≤ limit) := by
  simp only [accepts, cut, ByteArray.size_extract]
  congr 3
  omega

theorem written_write (unlimited : s.limit = none) :
    (s.write text).written = s.written ++ text.toUTF8 := by
  unfold write fitting
  rw [unlimited]

end Sink

def HostFunction.Sends (f : HostFunction) (arguments : List Value) (text message : String) : Prop :=
  ∃ result, ∀ output : Sink, output.WithinLimit →
    f arguments output =
      (if output.accepts text then result else .error message, output.write text)

/-- Whatever its arguments are, the function stops at what it cannot write. -/
def HostFunction.FailStop (f : HostFunction) : Prop :=
  ∀ arguments, ∃ text message, Sends f arguments text message

namespace Machine

def cut (limit : Nat) (m : Machine) : Machine := m.writingTo (m.output.cut limit)

structure Free (m : Machine) : Prop where
  unlimited : m.output.limit = none
  flushes : m.output.flushFails = false
  hosts : ∀ f ∈ m.hosts, HostFunction.FailStop f

theorem Free.environment {m : Machine} (h : m.Free) (env : Environment) : (m.inside env).Free :=
  ⟨h.unlimited, h.flushes, h.hosts⟩

theorem Free.write {m : Machine} (h : m.Free) (text : String) :
    (m.writingTo (m.output.write text)).Free :=
  ⟨h.unlimited, h.flushes, h.hosts⟩

end Machine

/-- The point writes this text, from this machine, and stops with this fault if the text does not
fit. -/
inductive Emits : Point → Machine → String → Diagnostic → Prop
  | print {n e m value m'} : Run.evaluate n e m = .ok value m' →
      Emits ⟨n + 1, .execute (.print e), m⟩ m' (value.text ++ "\n") (.output Sink.fullReason)
  | greet {n f line arguments m} : f.arity = arguments.length → f.body = .greet →
      Emits ⟨n + 1, .call (.native f) line arguments, m⟩ m
        ("Hello, " ++ (arguments.headD .nil).text ++ "\n")
        (.runtime line (.native ("Write error: " ++ Sink.fullReason)))
  | host {slot g arguments text message n f line m} :
      f.arity = arguments.length → f.body = .host slot → m.hosts[slot]? = some g →
      HostFunction.Sends g arguments text message →
      Emits ⟨n + 1, .call (.native f) line arguments, m⟩ m text (.runtime line (.native message))

namespace Run

variable {α β : Type}

def cut (limit : Nat) (r : Outcome α) : Outcome α :=
  writingTo ((ending r).output.cut limit) r

/-- What a run comes to with a limit on its output, which started from this point and comes to `r`
without a limit. Either all of its output fits, or it is stopped at the first text that does not. -/
inductive CutsTo (limit : Nat) (p : Point) (r : Outcome α) : Outcome α → Prop
  | fits : (ending r).output.written.size ≤ limit → CutsTo limit p r (cut limit r)
  | stops {q : Point} {m : Machine} {text : String} {d : Diagnostic} {env : Environment}
      {more : ByteArray} :
    Reaches p q → Emits q m text d → m.Free → m.output.written.size ≤ limit →
      limit < m.output.written.size + text.utf8ByteSize →
        (ending r).output.written = (m.output.write text).written ++ more →
          CutsTo limit p r
            (.error (.fault d) ((m.writingTo ((m.output.write text).cut limit)).inside env))

theorem ending_backIn (env : Environment) (r : Outcome α) :
    ending (backIn env r) = (ending r).inside env := by
  cases r <;> rfl

theorem cut_backIn (limit : Nat) (env : Environment) (r : Outcome α) :
    cut limit (backIn env r) = backIn env (cut limit r) := by
  cases r <;> rfl

theorem ending_cut (limit : Nat) (r : Outcome α) :
    ending (cut limit r) = (ending r).writingTo ((ending r).output.cut limit) := by
  cases r <;> rfl

structure Limited (limit : Nat) (p : Point) (act : Run α) (m : Machine) : Prop where
  free : (ending (act m)).Free
  grows : ∃ more, (ending (act m)).output.written = m.output.written ++ more
  cuts : m.output.written.size ≤ limit → CutsTo limit p (act m) (act (m.cut limit))

variable {limit : Nat} {p q : Point} {act : Run α} {f : α → Run β} {m : Machine}

theorem CutsTo.output {r r' : Outcome α} (h : CutsTo limit p r r') :
    (ending r').output = (ending r).output.cut limit := by
  cases h with
  | fits => cases r <;> rfl
  | @stops _ m text _ _ more _ _ free _ beyond written =>
    have size : limit ≤ (m.output.write text).written.size := by
      rw [Sink.written_write free.unlimited, ByteArray.size_append]
      exact Nat.le_of_lt beyond
    change (m.output.write text).cut limit = _
    unfold Sink.cut
    rw [written, ByteArray.extract_append, Nat.sub_eq_zero_of_le size]
    simp

theorem CutsTo.of_fits {r r' : Outcome α} (h : CutsTo limit p r r')
    (fit : (ending r).output.written.size ≤ limit) : r' = cut limit r := by
  cases h with
  | fits => rfl
  | stops _ _ free _ beyond written =>
    rw [written, Sink.written_write free.unlimited, ByteArray.size_append,
      ByteArray.size_append] at fit
    exact absurd (Nat.lt_of_lt_of_le beyond (Nat.le_trans (Nat.le_add_right _ _) fit))
      (Nat.lt_irrefl _)

theorem CutsTo.begun {r r' : Outcome α} (h : CutsTo limit q r r') (begins : Begins p q) :
    CutsTo limit p r r' := by
  cases h with
  | fits fit => exact .fits fit
  | stops later emits free₁ before beyond written =>
    exact .stops (.of_begins begins later) emits free₁ before beyond written

namespace Limited

theorem begun (h : Limited limit q act m) (begins : Begins p q) : Limited limit p act m :=
  ⟨h.free, h.grows, fun within => (h.cuts within).begun begins⟩

theorem silent (silent : Silent act) (free : m.Free) :
    Limited limit p act m := by
  have output := silent.kept m
  refine ⟨⟨?_, ?_, ?_⟩, ⟨.empty, ?_⟩, fun within => ?_⟩
  · rw [output, free.unlimited]
  · rw [output, free.flushes]
  · rw [(silent.keeps m).hosts]
    exact free.hosts
  · rw [output, ByteArray.append_empty]
  · rw [Machine.cut, silent.elsewhere, ← output]
    exact .fits (output ▸ within)

theorem bind (first : Limited limit p act m)
    (second : ∀ a m', act m = .ok a m' → m'.Free → Limited limit p (f a) m') :
    Limited limit p (act >>= f) m := by
  obtain ⟨free, ⟨more, written⟩, cuts⟩ := first
  generalize cutRun : act (m.cut limit) = r' at cuts
  cases ran : act m with
  | error halt m₁ =>
    rw [ran] at free written cuts
    have failed : (act >>= f) m = .error halt m₁ := bind_of_error ran
    refine ⟨by rw [failed]; exact free, ⟨more, by rw [failed]; exact written⟩, fun within => ?_⟩
    rw [failed]
    cases cuts within with
    | fits fit =>
      rw [bind_of_error cutRun]
      exact .fits fit
    | stops later emits free₁ before beyond written =>
      rw [bind_of_error cutRun]
      exact .stops later emits free₁ before beyond written
  | ok a m₁ =>
    rw [ran] at free written cuts
    obtain ⟨free', ⟨more', written'⟩, cuts'⟩ := second a m₁ ran free
    have grown : (ending (f a m₁)).output.written = m.output.written ++ (more ++ more') := by
      rw [written', ← ByteArray.append_assoc]
      exact congrArg (· ++ more') written
    have done : (act >>= f) m = f a m₁ := bind_of_ok ran
    refine ⟨done ▸ free', ⟨_, done ▸ grown⟩, fun within => ?_⟩
    rw [done]
    cases cuts within with
    | fits fit =>
      rw [bind_of_ok cutRun]
      exact cuts' fit
    | @stops _ m₂ text _ _ rest later emits free₁ before beyond written₁ =>
      have behind : (ending (f a m₁)).output.written =
          (m₂.output.write text).written ++ (rest ++ more') := by
        rw [written', ← ByteArray.append_assoc]
        exact congrArg (· ++ more') written₁
      rw [bind_of_error cutRun]
      exact .stops later emits free₁ before beyond behind

theorem inside {env : Environment} {act' : Run α} {m' : Machine} (h : Limited limit p act' m')
    (output : m'.output = m.output) (same : act m = backIn env (act' m'))
    (same' : act (m.cut limit) = backIn env (act' (m'.cut limit))) : Limited limit p act m := by
  obtain ⟨free, ⟨more, written⟩, cuts⟩ := h
  have ends := ending_backIn env (act' m')
  rw [← same] at ends
  rw [output] at written cuts
  refine ⟨by rw [ends]; exact free.environment _, ⟨more, by rw [ends]; exact written⟩,
    fun small => ?_⟩
  rw [same', same]
  generalize act' (m'.cut limit) = r' at cuts
  cases cuts small with
  | fits fit =>
    rw [← cut_backIn]
    exact .fits (by rw [ending_backIn]; exact fit)
  | @stops _ m₁ text _ _ rest later emits free₁ before beyond written =>
    have whole : (ending (backIn env (act' m'))).output.written =
        (m₁.output.write text).written ++ rest := by
      rw [ending_backIn]
      exact written
    change CutsTo limit p _ (.error _ ((m₁.writingTo _).inside env))
    exact .stops later emits free₁ before beyond whole

theorem within {env : Environment} (h : Limited limit p act (m.inside env)) :
    Limited limit p (within env act) m :=
  h.inside rfl (within_eq env act m) (within_eq env act (m.cut limit))

theorem write {text : String} {d : Diagnostic} {rest : Bool → Run α} (emits : Emits p m text d)
    (free : m.Free) (silent : Silent (rest true)) (failed : rest false = throw (.fault d)) :
    Limited limit p (Run.write text >>= rest) m := by
  have accepted : Run.write text m = .ok true (m.writingTo (m.output.write text)) := by
    unfold Run.write
    rw [Sink.accepts_of_unlimited free.unlimited]
    rfl
  have written : (m.output.write text).written = m.output.written ++ text.toUTF8 :=
    Sink.written_write free.unlimited
  have after : Limited limit p (rest true) (m.writingTo (m.output.write text)) :=
    .silent silent (free.write text)
  have output := silent.kept (m.writingTo (m.output.write text))
  have grown : (ending (rest true (m.writingTo (m.output.write text)))).output.written =
      m.output.written ++ text.toUTF8 := by
    rw [output]
    exact written
  have whole : (Run.write text >>= rest) m = rest true (m.writingTo (m.output.write text)) :=
    bind_of_ok accepted
  refine ⟨whole ▸ after.free, ⟨_, whole ▸ grown⟩, fun small => ?_⟩
  have cutRun : Run.write text (m.cut limit) =
      .ok (decide (m.output.written.size + text.utf8ByteSize ≤ limit))
        (m.writingTo ((m.output.write text).cut limit)) := by
    rw [← Sink.accepts_cut small, ← Sink.write_cut free.unlimited]
    rfl
  rw [bind_of_ok cutRun, whole]
  by_cases fit : m.output.written.size + text.utf8ByteSize ≤ limit
  · rw [decide_eq_true fit]
    refine after.cuts ?_
    change (m.output.write text).written.size ≤ limit
    rw [written, ByteArray.size_append]
    exact fit
  · rw [decide_eq_false fit, failed]
    have behind : (ending (rest true (m.writingTo (m.output.write text)))).output.written =
        (m.output.write text).written ++ .empty := by
      rw [ByteArray.append_empty, output]
      rfl
    change CutsTo limit p _
      (.error (.fault d) ((m.writingTo ((m.output.write text).cut limit)).inside m.environment))
    exact .stops .refl emits free small (by omega) behind

theorem congr {act' : Run α} (h : Limited limit p act' m) (same : act m = act' m)
    (same' : act (m.cut limit) = act' (m.cut limit)) : Limited limit p act m := by
  refine ⟨same ▸ h.free, same ▸ h.grows, fun within => ?_⟩
  rw [same, same']
  exact h.cuts within

variable {n line : Nat} {arguments : List Value}

theorem printLine {e : Expr} {value : Value} {m' : Machine} (ran : evaluate n e m = .ok value m')
    (free : m'.Free) :
    Limited limit ⟨n + 1, .execute (.print e), m⟩ (Run.printLine value) m' :=
  write (.print ran) free .pure rfl

theorem callHost {f : Native} {slot : Nat} (arity : f.arity = arguments.length)
    (body : f.body = .host slot) (free : m.Free) :
    Limited limit ⟨n + 1, .call (.native f) line arguments, m⟩
      (Run.callHost slot arguments line) m := by
  cases found : m.hosts[slot]? with
  | none =>
    have nothing (m' : Machine) (same : m'.hosts = m.hosts) :
        Run.callHost slot arguments line m' = (pure Value.nil : Run Value) m' := by
      unfold Run.callHost
      rw [same, found]
      rfl
    exact (silent .pure free).congr (nothing m rfl) (nothing _ rfl)
  | some g =>
    obtain ⟨text, message, result, sends⟩ := free.hosts g (List.mem_of_getElem? found) arguments
    let answer : Except String Value → Run Value
      | .ok value => pure value
      | .error message => stop line (.native message)
    let rest (fits : Bool) : Run Value :=
      answer (if fits then result else .error message)
    have calls (m' : Machine) (same : m'.hosts = m.hosts) (within : m'.output.WithinLimit) :
        Run.callHost slot arguments line m' = (Run.write text >>= rest) m' := by
      have wrote : Run.write text m' =
          .ok (m'.output.accepts text) (m'.writingTo (m'.output.write text)) := rfl
      have found' : m'.hosts[slot]? = some g := same ▸ found
      rw [bind_of_ok wrote]
      unfold Run.callHost
      rw [found']
      simp only [sends _ within, rest]
      cases (if m'.output.accepts text then result else .error message) <;> rfl
    have unlimited : m.output.WithinLimit := by
      intro bound some
      rw [free.unlimited] at some
      cases some
    have passes : Silent (rest true) := by
      change Silent (answer result)
      cases result with
      | ok value => exact .pure
      | error message => exact closed_silent.stop ..
    have sent : Limited limit ⟨n + 1, .call (.native f) line arguments, m⟩
        (Run.write text >>= rest) m :=
      write (.host arity body found ⟨result, sends⟩) free passes rfl
    exact sent.congr (calls m rfl unlimited) (calls _ rfl Sink.withinLimit_cut)

theorem callNative {f : Native} (arity : f.arity = arguments.length) (free : m.Free) :
    Limited limit ⟨n + 1, .call (.native f) line arguments, m⟩
      (Run.callNative f.body arguments line) m := by
  cases body : f.body with
  | clock | tick =>
    exact silent (.observe (fun _ => closed_silent.clockReading.bind fun _ => .pure) fun _ _ => rfl)
      free
  | read => exact silent (.readLine line) free
  | typeOf => exact silent .pure free
  | greet => exact write (.greet arity body) free .pure rfl
  | host slot => exact callHost arity body free

theorem compare {before : ByteArray} {room : Nat} (h : Limited (before.size + room) p act m)
    (output : m.output.written = before) :
    ∃ bytes : ByteArray,
      (ending (act m)).output = ⟨before ++ bytes, none, false⟩ ∧
      (ending (act (m.cut (before.size + room)))).output =
        ⟨before ++ bytes.extract 0 room, some (before.size + room), false⟩ ∧
      (bytes.size ≤ room →
        act (m.cut (before.size + room)) = cut (before.size + room) (act m)) ∧
      (room < bytes.size → ∃ q m₁ text d env,
        Reaches p q ∧ Emits q m₁ text d ∧
        m₁.output.written.size ≤ before.size + room ∧
        before.size + room < m₁.output.written.size + text.utf8ByteSize ∧
        act (m.cut (before.size + room)) = .error (.fault d)
          ((m₁.inside env).writingTo (ending (act (m.cut (before.size + room)))).output)) := by
  obtain ⟨free, ⟨bytes, written⟩, cuts⟩ := h
  rw [output] at written cuts
  have whole : (ending (act m)).output = ⟨before ++ bytes, none, false⟩ := by
    rw [← written, ← free.unlimited, ← free.flushes]
  have size : (ending (act m)).output.written.size = before.size + bytes.size := by
    rw [written, ByteArray.size_append]
  have cuts := cuts (Nat.le_add_right _ _)
  refine ⟨bytes, whole, ?_, fun fit => cuts.of_fits (by omega), fun past => ?_⟩
  · rw [cuts.output, whole, Sink.cut, Sink.extract_append_add]
  · generalize act (m.cut (before.size + room)) = r' at cuts
    cases cuts with
    | fits fit => omega
    | stops later emits _ within beyond _ =>
      exact ⟨_, _, _, _, _, later, emits, within, beyond, rfl⟩

end Limited

variable (limit : Nat)

mutual

theorem limited_execute : ∀ (n : Nat) (s : Stmt) (m : Machine), m.Free →
    Limited limit ⟨n, .execute s, m⟩ (execute n s) m
  | 0, _, _, free => .silent .throw free
  | n + 1, .expression e, m, free =>
    ((limited_evaluate n e m free).begun .expression).bind fun _ _ _ free =>
      .silent .pure free
  | n + 1, .print e, m, free =>
    ((limited_evaluate n e m free).begun .print).bind fun _ _ ran free =>
      (Limited.printLine ran free).bind fun _ _ _ free => .silent .pure free
  | _ + 1, .varDecl _ none, _, free =>
    .silent ((closed_silent.define ..).bind fun _ => .pure) free
  | n + 1, .varDecl _ (some e), m, free =>
    ((limited_evaluate n e m free).begun .initial).bind fun _ _ _ free =>
      .silent ((closed_silent.define ..).bind fun _ => .pure) free
  | n + 1, .block body, m, free =>
    (Limited.silent closed_silent.newScope free).bind fun env m' ran free =>
      ((limited_executeAll n body (m'.inside env) (free.environment env)).begun (.block ran)).within
  | n + 1, .ifElse condition consequent alternative, m, free => by
    unfold execute
    refine ((limited_evaluate n condition m free).begun .choice).bind fun value m' ran free => ?_
    split
    next holds => exact (limited_execute n consequent m' free).begun (.consequent ran holds)
    next fails =>
      cases alternative with
      | none => exact .silent .pure free
      | some alternative =>
        exact (limited_execute n alternative m' free).begun
          (.alternative ran (by simpa using fails))
  | n + 1, .loop condition body step, m, free =>
    (limited_iterate n condition body step m free).begun .loop
  | _ + 1, .funDecl _, _, free =>
    .silent ((closed_silent.closure _).bind fun _ => (closed_silent.define ..).bind fun _ => .pure)
      free
  | _ + 1, .classDecl .., _, free =>
    .silent ((closed_silent.declareClass ..).bind fun _ => .pure) free
  | _ + 1, .returning _ none, _, free => .silent .pure free
  | n + 1, .returning _ (some e), m, free =>
    ((limited_evaluate n e m free).begun .returned).bind fun _ _ _ free =>
      .silent .pure free
  | _ + 1, .jump _, _, free => .silent .pure free

theorem limited_executeAll : ∀ (n : Nat) (body : List Stmt) (m : Machine), m.Free →
    Limited limit ⟨n, .executeAll body, m⟩ (executeAll n body) m
  | 0, _, _, free => .silent .throw free
  | _ + 1, [], _, free => .silent .pure free
  | n + 1, s :: rest, m, free => by
    unfold executeAll
    refine ((limited_execute n s m free).begun .head).bind fun completion m' ran free => ?_
    split
    · exact (limited_executeAll n rest m' free).begun (.tail ran)
    · exact .silent .pure free

theorem limited_iterate : ∀ (n : Nat) (condition : Expr) (body : Stmt) (step : Option Expr)
    (m : Machine), m.Free →
    Limited limit ⟨n, .iterate condition body step, m⟩ (iterate n condition body step) m
  | 0, _, _, _, _, free => .silent .throw free
  | n + 1, condition, body, step, m, free => by
    unfold iterate
    refine ((limited_evaluate n condition m free).begun .test).bind fun value m₁ tested free => ?_
    split
    next holds =>
      refine ((limited_execute n body m₁ free).begun (.body tested holds)).bind ?_
      intro completion m₂ ran free
      have onward (repeats : completion = .normal ∨ completion = .jumped .next) :
          Limited limit ⟨n + 1, .iterate condition body step, m⟩
            (do
              match step with
              | none => pure ()
              | some e => let _ ← evaluate n e
              iterate n condition body step) m₂ := by
        cases step with
        | none =>
          exact (limited_iterate n condition body none m₂ free).begun
            (.again tested holds ran repeats)
        | some e =>
          refine ((limited_evaluate n e m₂ free).begun (.step tested holds ran repeats)).bind ?_
          intro _ m₃ stepped free
          exact (limited_iterate n condition body (some e) m₃ free).begun
            (.againStepped tested holds ran repeats stepped)
      cases completion with
      | normal => exact onward (.inl rfl)
      | returned value => exact .silent .pure free
      | jumped kind =>
        cases kind with
        | leave => exact .silent .pure free
        | next => exact onward (.inr rfl)
    · exact .silent .pure free

theorem limited_evaluate : ∀ (n : Nat) (e : Expr) (m : Machine), m.Free →
    Limited limit ⟨n, .evaluate e, m⟩ (evaluate n e) m
  | 0, _, _, free => .silent .throw free
  | _ + 1, .literal _, _, free => .silent .pure free
  | n + 1, .grouping inner, m, free => (limited_evaluate n inner m free).begun .grouping
  | n + 1, .unary _ _ operand, m, free =>
    ((limited_evaluate n operand m free).begun .operand).bind fun _ _ _ free =>
      .silent (closed_silent.ofOperation ..) free
  | n + 1, .binary _ _ left right, m, free =>
    ((limited_evaluate n left m free).begun .left).bind fun _ m' ran free =>
      ((limited_evaluate n right m' free).begun (.right ran)).bind fun _ _ _ free =>
        .silent (closed_silent.ofOperation ..) free
  | n + 1, .logical op left right, m, free => by
    unfold evaluate
    refine ((limited_evaluate n left m free).begun .decision).bind fun value m' ran free => ?_
    have rest (decided : Bool) (open' : decided = false → value.isTruthy = (op == .and)) :
        Limited limit ⟨n + 1, .evaluate (.logical op left right), m⟩
          (if decided then pure value else evaluate n right) m' := by
      cases decided with
      | true => exact .silent .pure free
      | false => exact (limited_evaluate n right m' free).begun (.undecided ran (open' rfl))
    refine rest _ fun undecided => ?_
    cases op with
    | and => exact (by simpa using undecided : value.isTruthy = true)
    | or => exact undecided
  | _ + 1, .var _, _, free => .silent (closed_silent.lookUp ..) free
  | n + 1, .assign _ e, m, free =>
    ((limited_evaluate n e m free).begun .assigned).bind fun _ _ _ free =>
      .silent ((closed_silent.assign ..).bind fun _ => .pure) free
  | n + 1, .call callee line arguments, m, free =>
    ((limited_evaluate n callee m free).begun .callee).bind fun f m₁ ran free =>
      ((limited_evaluateAll n arguments m₁ free).begun (.arguments ran)).bind
        fun values m₂ ran' free => (limited_call n f line values m₂ free).begun (.called ran ran')
  | n + 1, .get object _, m, free => by
    unfold evaluate
    refine ((limited_evaluate n object m free).begun .owner).bind fun value m' ran free => ?_
    split
    · exact .silent (closed_silent.property ..) free
    · exact .silent (closed_silent.stop ..) free
  | n + 1, .set object _ e, m, free => by
    unfold evaluate
    refine ((limited_evaluate n object m free).begun .target).bind fun value m' ran free => ?_
    split
    · exact ((limited_evaluate n e m' free).begun (.content ran)).bind fun _ _ _ free =>
        .silent ((closed_silent.modifyStore fun s => s.grows_setField _ _ _).bind fun _ =>
          .pure) free
    · exact .silent (closed_silent.stop ..) free
  | _ + 1, .self _, _, free => .silent (closed_silent.lookUp ..) free
  | _ + 1, .super .., _, free => .silent (closed_silent.inherited ..) free

theorem limited_evaluateAll : ∀ (n : Nat) (es : List Expr) (m : Machine), m.Free →
    Limited limit ⟨n, .evaluateAll es, m⟩ (evaluateAll n es) m
  | 0, _, _, free => .silent .throw free
  | _ + 1, [], _, free => .silent .pure free
  | n + 1, e :: rest, m, free =>
    ((limited_evaluate n e m free).begun .first).bind fun _ m' ran free =>
      ((limited_evaluateAll n rest m' free).begun (.others ran)).bind fun _ _ _ free =>
        .silent .pure free

theorem limited_call : ∀ (n : Nat) (callee : Value) (line : Nat) (arguments : List Value)
    (m : Machine), m.Free →
    Limited limit ⟨n, .call callee line arguments, m⟩ (call n callee line arguments) m
  | 0, _, _, _, _, free => .silent .throw free
  | n + 1, .function f, line, arguments, m, free => by
    refine (Limited.silent (closed_silent.checkArity ..) free).bind fun _ m' checked free => ?_
    obtain ⟨arity, rfl⟩ := checkArity_eq_ok checked
    exact (limited_apply n f arguments m' free).begun (.function arity)
  | n + 1, .class c, line, arguments, m, free => by
    unfold call
    refine (Limited.silent (closed_silent.checkArity ..) free).bind fun _ m' checked free => ?_
    obtain ⟨arity, rfl⟩ := checkArity_eq_ok checked
    refine (Limited.silent (closed_silent.onStore fun s => s.grows_newInstance c) free).bind
      fun i m₁ made free => ?_
    cases init : c.method? "init" with
    | none => exact .silent .pure free
    | some method =>
      refine (Limited.silent (closed_silent.bindMethod ..) free).bind fun f m₂ bound free => ?_
      exact ((limited_apply n f arguments m₂ free).begun (.initializer arity init made bound)).bind
        fun _ _ _ free => .silent .pure free
  | n + 1, .native f, line, arguments, m, free => by
    refine (Limited.silent (closed_silent.checkArity ..) free).bind fun _ m' checked free => ?_
    obtain ⟨arity, rfl⟩ := checkArity_eq_ok checked
    exact .callNative arity free
  | _ + 1, .nil, _, _, _, free | _ + 1, .bool _, _, _, _, free | _ + 1, .number _, _, _, _, free
  | _ + 1, .string _, _, _, _, free | _ + 1, .instance _, _, _, _, free =>
    .silent (closed_silent.stop ..) free

theorem limited_apply : ∀ (n : Nat) (f : Closure) (arguments : List Value) (m : Machine), m.Free →
    Limited limit ⟨n, .apply f arguments, m⟩ (apply n f arguments) m
  | 0, _, _, _, free => .silent .throw free
  | n + 1, f, _, _, free =>
    (Limited.silent (closed_silent.activation ..) free).bind fun env m' ran free =>
      ((limited_executeAll n f.declaration.body (m'.inside env) (free.environment env)).begun
        (.applied ran)).within.bind fun _ _ _ free => .silent (closed_silent.callResult ..) free

end

theorem limited_executeProgram (n : Nat) : ∀ (body : List Stmt) (m : Machine), m.Free →
    Limited limit ⟨n, .program body, m⟩ (executeProgram n body) m
  | [], _, free => .silent .pure free
  | s :: rest, m, free =>
    ((limited_execute limit n s m free).begun .programHead).bind fun _ m' ran free =>
      (limited_executeProgram n rest m' free).begun (.programTail ran)

theorem flush_eq_ok (flushes : m.output.flushFails = false) : flush m = .ok () m := by
  change (if m.output.flushFails then throw (.fault (.output Sink.flushReason))
    else pure () : Run Unit) m = .ok () m
  rw [flushes]
  rfl

theorem program_eq_backIn {depth : Nat} {body : List Stmt}
    (flushes : (ending (executeProgram depth body m)).output.flushFails = false) :
    program depth body m = backIn .root (executeProgram depth body m) := by
  unfold program
  cases ran : executeProgram depth body m with
  | ok _ m' =>
    rw [ran] at flushes
    exact flush_eq_ok flushes
  | error halt m' =>
    rw [ran] at flushes
    have flushed := flush_eq_ok (m := m'.inside .root) flushes
    cases halt with
    | fault d =>
      unfold Machine.inside at flushed
      simp only [flushed]
      rfl
    | exhausted | awaitingInput => rfl

theorem limited_program (n : Nat) (body : List Stmt) (m : Machine) (free : m.Free)
    (within : m.output.written.size ≤ limit) :
    Limited limit ⟨n, .program body, m⟩ (program n body) m := by
  have executed := limited_executeProgram limit n body m free
  refine executed.inside rfl (program_eq_backIn executed.free.flushes) (program_eq_backIn ?_)
  have cuts := executed.cuts within
  generalize executeProgram n body (m.cut limit) = r' at cuts ⊢
  cases cuts with
  | fits =>
    cases executeProgram n body m <;> rfl
  | stops => rfl

end Run

end ScopeScript
