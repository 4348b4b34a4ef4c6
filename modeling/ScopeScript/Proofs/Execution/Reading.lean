import ScopeScript.Proofs.Channel.Lines
import ScopeScript.Proofs.Execution.Moments

set_option autoImplicit false

namespace ScopeScript

open Run

namespace Run

variable {α β : Type}

def Untouched (p : Run α) : Prop := ∀ m : Machine, (ending (p m)).input = m.input

namespace Untouched

variable {p : Run α} {f : α → Run β}

theorem behind (second : ∀ a, Untouched (f a)) (m : Machine) :
    (ending ((p >>= f) m)).input = (ending (p m)).input :=
  ending_bind_of_kept (g := Machine.input) second m

theorem bind (first : Untouched p) (second : ∀ a, Untouched (f a)) : Untouched (p >>= f) :=
  fun m => (behind second m).trans (first m)

theorem ofExcept {result : Except Diagnostic α} : Untouched (Run.ofExcept result) := by
  intro m
  cases result <;> rfl

theorem assignFrom {env : Environment} {name : Name} {value : Value} :
    Untouched (Run.assignFrom env name value) := by
  intro m
  unfold Run.assignFrom
  cases m.store.binder? env name.text <;> rfl

theorem assign {r : Reference} {value : Value} : Untouched (Run.assign r value) := by
  intro m
  unfold Run.assign
  cases m.resolution[r.id]? with
  | some distance => rfl
  | none => exact assignFrom m

end Untouched

theorem closed_untouched : Closed @Untouched where
  pure _ := fun _ => rfl
  bind := .bind
  observe parts _ := fun m => parts m m
  stop _ _ := fun _ => rfl
  clockReading := fun _ => rfl
  onStore _ := fun _ => rfl
  newScope := fun _ => rfl
  define _ _ := fun _ => rfl
  lookUp _ := fun m => Untouched.ofExcept m
  assign _ _ := .assign
  assignFrom _ _ _ := .assignFrom

namespace Untouched

theorem pure {a : α} : Untouched (Pure.pure a : Run α) := closed_untouched.pure a

theorem printLine {value : Value} : Untouched (Run.printLine value) := by
  refine bind (fun _ => rfl) fun fits => ?_
  split
  · exact pure
  · exact fun _ => rfl

theorem greet {name : Value} {line : Nat} : Untouched (Run.greet name line) := by
  refine bind (fun _ => rfl) fun fits => ?_
  split
  · exact pure
  · exact closed_untouched.stop _ _

theorem callHost {slot : Nat} {arguments : List Value} {line : Nat} :
    Untouched (Run.callHost slot arguments line) := by
  intro m
  unfold Run.callHost
  cases m.hosts[slot]? with
  | none => rfl
  | some f =>
    dsimp only
    split <;> rfl

end Untouched

section

variable {m : Machine} {line : Nat}

theorem readLine_awaiting (waits : m.input.line = .awaiting) :
    readLine line m = .error .awaitingInput m := by
  have got : (get : Run Machine) m = .ok m m := rfl
  rw [readLine, bind_of_ok got, waits]
  rfl

theorem readLine_atEnd (ends : m.input.line = .atEnd) : readLine line m = .ok .nil m := by
  have got : (get : Run Machine) m = .ok m m := rfl
  rw [readLine, bind_of_ok got, ends]
  rfl

theorem readLine_read {bytes : List UInt8} {rest : Input}
    (next : m.input.line = .read bytes rest) :
    readLine line m = match Input.decode? bytes with
      | some text => .ok (.ofInput (Input.chomp text)) { m with input := rest }
      | none =>
        .error (.fault (.runtime line (.native ("Read error: " ++ Input.undecodableReason))))
          { m with input := rest } := by
  have got : (get : Run Machine) m = .ok m m := rfl
  rw [readLine, bind_of_ok got, next]
  cases decoded : Input.decode? bytes <;> simp only [decoded] <;> rfl

end

theorem input_ending_within (env : Environment) (p : Run α) (m : Machine) :
    (ending (within env p m)).input = (ending (p { m with environment := env })).input := by
  unfold within
  cases p { m with environment := env } <;> rfl

end Run

namespace Point

def left : Point → Input
  | ⟨n, .program body, m⟩ => (ending (executeProgram n body m)).input
  | ⟨n, .execute s, m⟩ => (ending (execute n s m)).input
  | ⟨n, .executeAll body, m⟩ => (ending (executeAll n body m)).input
  | ⟨n, .iterate condition body step, m⟩ => (ending (iterate n condition body step m)).input
  | ⟨n, .evaluate e, m⟩ => (ending (evaluate n e m)).input
  | ⟨n, .evaluateAll es, m⟩ => (ending (evaluateAll n es m)).input
  | ⟨n, .call callee line arguments, m⟩ => (ending (call n callee line arguments m)).input
  | ⟨n, .apply f arguments, m⟩ => (ending (apply n f arguments m)).input

def IsRead : Point → Prop
  | ⟨_ + 1, .call (.native f) _ arguments, _⟩ => f.body = .read ∧ f.arity = arguments.length
  | _ => False

instance : DecidablePred IsRead := by
  intro p
  unfold IsRead
  split <;> infer_instance

def line? (p : Point) : Option (List UInt8) :=
  if p.IsRead then
    match p.machine.input.line with
    | .read line _ => some line
    | .atEnd | .awaiting => none
  else none

end Point

def Moment.line? : Moment → Option (List UInt8)
  | .enter p => p.line?
  | .leave _ => none

namespace Point

def taken (p : Point) : List (List UInt8) := p.moments.filterMap Moment.line?

theorem taken_eq (p : Point) : p.taken = p.line?.toList ++ p.parts.flatMap taken := by
  have first : (Moment.enter p).line? = p.line? := rfl
  have last : (Moment.leave p).line? = none := rfl
  unfold taken
  rw [moments_eq, List.filterMap_cons, List.filterMap_append, List.filterMap_flatMap, first]
  cases p.line? <;> simp [last]

def Passes (last : Input) : Input → List Point → Prop
  | input, [] => last = input
  | input, q :: rest => q.machine.input = input ∧ Passes last q.left rest

section

variable {α β : Type} {r : Run α} {f : α → Run β} {m : Machine}

theorem passes_bind {next : α → Machine → List Point}
    (further : ∀ a m', r m = .ok a m' → Passes (ending (f a m')).input m'.input (next a m')) :
    Passes (ending ((r >>= f) m)).input (ending (r m)).input (thereafter (r m) next) := by
  cases ran : r m with
  | ok a m' =>
    rw [bind_of_ok ran]
    exact further a m' ran
  | error halt m' =>
    rw [bind_of_error ran]
    exact rfl

theorem passes_last (untouched : ∀ a, Untouched (f a)) :
    Passes (ending ((r >>= f) m)).input (ending (r m)).input [] :=
  Untouched.behind untouched m

end

variable {n line : Nat} {m : Machine} {s : Stmt} {e : Expr} {body : List Stmt}

theorem passes_execute : Passes (left ⟨n + 1, .execute s, m⟩) m.input
    (parts ⟨n + 1, .execute s, m⟩) := by
  cases s with
  | expression e => exact ⟨rfl, passes_last fun _ => .pure⟩
  | print e => exact ⟨rfl, passes_last fun _ => Untouched.printLine.bind fun _ => .pure⟩
  | varDecl name initial =>
    cases initial with
    | none => exact rfl
    | some e => exact ⟨rfl, passes_last fun _ => Untouched.bind (fun _ => rfl) fun _ => .pure⟩
  | block body => exact ⟨rfl, input_ending_within _ (executeAll n body) _⟩
  | ifElse e s alternative =>
    refine ⟨rfl, passes_bind fun value m' _ => ?_⟩
    split
    · exact ⟨rfl, rfl⟩
    · cases alternative with
      | none => exact rfl
      | some other => exact ⟨rfl, rfl⟩
  | loop e s step => exact ⟨rfl, rfl⟩
  | funDecl f => exact rfl
  | classDecl name above methods =>
    exact (closed_untouched.declareClass name above methods).bind (fun _ => .pure) m
  | returning line value =>
    cases value with
    | none => exact rfl
    | some e => exact ⟨rfl, passes_last fun _ => .pure⟩
  | jump kind => exact rfl

theorem passes_executeAll : Passes (left ⟨n + 1, .executeAll body, m⟩) m.input
    (parts ⟨n + 1, .executeAll body, m⟩) := by
  cases body with
  | nil => exact rfl
  | cons s rest =>
    refine ⟨rfl, passes_bind fun completion m' _ => ?_⟩
    cases completion with
    | normal => exact ⟨rfl, rfl⟩
    | returned value => exact rfl
    | jumped kind => exact rfl

theorem passes_afterJump {step : Option Expr} :
    Passes (ending (afterJump n e s step .next m)).input m.input
      (repetition n e s step .normal m) := by
  cases step with
  | none => exact ⟨rfl, rfl⟩
  | some e' => exact ⟨rfl, passes_bind fun _ _ _ => ⟨rfl, rfl⟩⟩

theorem passes_iterate {step : Option Expr} : Passes (left ⟨n + 1, .iterate e s step, m⟩) m.input
    (parts ⟨n + 1, .iterate e s step, m⟩) := by
  refine ⟨rfl, passes_bind fun value m₁ _ => ?_⟩
  split
  case isFalse => exact rfl
  refine ⟨rfl, passes_bind fun completion m₂ _ => ?_⟩
  cases completion with
  | normal => exact passes_afterJump
  | returned value => exact rfl
  | jumped kind =>
    cases kind with
    | leave => exact rfl
    | next => exact passes_afterJump

theorem passes_evaluate : Passes (left ⟨n + 1, .evaluate e, m⟩) m.input
    (parts ⟨n + 1, .evaluate e, m⟩) := by
  cases e with
  | literal value => exact rfl
  | grouping e => exact ⟨rfl, rfl⟩
  | unary op line e => exact ⟨rfl, passes_last fun _ => closed_untouched.ofOperation _ _⟩
  | binary op line e right =>
    exact ⟨rfl, passes_bind fun _ _ _ =>
      ⟨rfl, passes_last fun _ => closed_untouched.ofOperation _ _⟩⟩
  | logical op e right =>
    refine ⟨rfl, passes_bind fun value m' _ => ?_⟩
    cases op <;> cases value.isTruthy
    · exact rfl
    · exact ⟨rfl, rfl⟩
    · exact ⟨rfl, rfl⟩
    · exact rfl
  | var r => exact closed_untouched.lookUp r m
  | self r => exact closed_untouched.lookUp r m
  | assign r e =>
    exact ⟨rfl, passes_last fun value => Untouched.assign.bind fun _ => .pure⟩
  | call e line es =>
    exact ⟨rfl, passes_bind fun _ _ _ => ⟨rfl, passes_bind fun _ _ _ => ⟨rfl, rfl⟩⟩⟩
  | get e name =>
    refine ⟨rfl, passes_last fun value => ?_⟩
    split
    · exact closed_untouched.property _ name
    · exact closed_untouched.stop _ _
  | set e name content =>
    refine ⟨rfl, passes_bind fun value m' _ => ?_⟩
    cases value with
    | «instance» i =>
      exact ⟨rfl, passes_last fun _ => Untouched.bind (fun _ => rfl) fun _ => .pure⟩
    | nil | bool _ | number _ | string _ | native _ | function _ | «class» _ => exact rfl
  | super r name => exact closed_untouched.inherited r name m

theorem passes_evaluateAll {es : List Expr} : Passes (left ⟨n + 1, .evaluateAll es, m⟩) m.input
    (parts ⟨n + 1, .evaluateAll es, m⟩) := by
  cases es with
  | nil => exact rfl
  | cons e rest => exact ⟨rfl, passes_bind fun _ _ _ => ⟨rfl, passes_last fun _ => .pure⟩⟩

theorem passes_apply {f : Closure} {arguments : List Value} :
    Passes (left ⟨n + 1, .apply f arguments, m⟩) m.input
      (parts ⟨n + 1, .apply f arguments, m⟩) := by
  refine ⟨rfl, ?_⟩
  exact (Untouched.behind (fun _ => closed_untouched.callResult f _) _).trans
    (input_ending_within _ (executeAll n f.declaration.body) _)

variable {callee : Value} {arguments : List Value} {f : Native}

theorem left_of_disagreed {expected : Nat} (wrong : expected ≠ arguments.length) {rest : Run Value}
    (ends : call (n + 1) callee line arguments =
      (checkArity expected arguments.length line >>= fun _ => rest)) :
    left ⟨n + 1, .call callee line arguments, m⟩ = m.input := by
  rw [left, ends, bind_of_error (checkArity_of_ne wrong m), ending]

theorem passes_call_class {c : Class} : Passes (left ⟨n + 1, .call (.class c) line arguments, m⟩)
    m.input (parts ⟨n + 1, .call (.class c) line arguments, m⟩) := by
  by_cases same : c.arity = arguments.length
  case neg =>
    rw [show parts ⟨n + 1, .call (.class c) line arguments, m⟩ = [] by simp [parts, same]]
    exact left_of_disagreed same rfl
  have made : onStore (fun s => s.newInstance c) m =
      .ok ⟨m.store.objects.size, c⟩ { m with store := (m.store.newInstance c).2 } := rfl
  cases found : c.method? "init" with
  | some init =>
    have bound := bind_eq init ⟨m.store.objects.size, c⟩
      { m with store := (m.store.newInstance c).2 }
    rw [left, call_of_initializer same found made bound]
    simp only [parts, same, found, made, bound, if_true, Option.toList_some, List.flatMap_singleton,
      thereafter_ok]
    exact ⟨rfl, Untouched.behind (fun _ => .pure) _⟩
  | none =>
    rw [show parts ⟨n + 1, .call (.class c) line arguments, m⟩ = [] by simp [parts, same, found]]
    have untouched : Untouched (call (n + 1) (.class c) line arguments) := by
      unfold call
      refine closed_untouched.bind (closed_untouched.checkArity _ _ _) fun _ =>
        Untouched.bind (fun _ => rfl) fun i => ?_
      rw [found]
      exact Untouched.pure.bind fun _ => .pure
    exact untouched m

theorem passes_call (other : ¬IsRead ⟨n + 1, .call callee line arguments, m⟩) :
    Passes (left ⟨n + 1, .call callee line arguments, m⟩) m.input
      (parts ⟨n + 1, .call callee line arguments, m⟩) := by
  cases callee with
  | function f =>
    by_cases same : f.arity = arguments.length
    case neg =>
      rw [show parts ⟨n + 1, .call (.function f) line arguments, m⟩ = [] by simp [parts, same]]
      exact left_of_disagreed same rfl
    rw [show parts ⟨n + 1, .call (.function f) line arguments, m⟩ = [⟨n, .apply f arguments, m⟩] by
      simp [parts, same]]
    refine ⟨rfl, ?_⟩
    change (ending ((checkArity f.arity arguments.length line >>= fun _ => apply n f arguments)
      m)).input = _
    rw [bind_of_ok (checkArity_of_eq same m)]
    rfl
  | «class» c => exact passes_call_class
  | native f =>
    by_cases same : f.arity = arguments.length
    case neg => exact left_of_disagreed same rfl
    change (ending ((checkArity f.arity arguments.length line >>= fun _ =>
      callNative f.body arguments line) m)).input = _
    rw [bind_of_ok (checkArity_of_eq same m)]
    cases body : f.body with
    | clock | tick => rfl
    | read => exact absurd ⟨body, same⟩ other
    | typeOf => rfl
    | greet => exact Untouched.greet m
    | host slot => exact Untouched.callHost m
  | nil | bool _ | number _ | string _ | «instance» _ => exact rfl

theorem passes (p : Point) (other : ¬p.IsRead) : Passes p.left p.machine.input p.parts := by
  obtain ⟨depth, task, m⟩ := p
  cases task with
  | program body =>
    cases body with
    | nil => cases depth <;> exact rfl
    | cons s rest =>
      have passes : Passes (left ⟨depth, .program (s :: rest), m⟩) m.input
          (⟨depth, .execute s, m⟩ :: thereafter (Run.execute depth s m)
            fun _ m' => [⟨depth, .program rest, m'⟩]) :=
        ⟨rfl, passes_bind fun _ _ _ => ⟨rfl, rfl⟩⟩
      cases depth <;> exact passes
  | _ =>
    cases depth with
    | zero => exact rfl
    | succ n => first
      | exact passes_execute
      | exact passes_executeAll
      | exact passes_iterate
      | exact passes_evaluate
      | exact passes_evaluateAll
      | exact passes_call other
      | exact passes_apply

-- Calls that read.

theorem call_of_isRead (reads : IsRead ⟨n + 1, .call (.native f) line arguments, m⟩) :
    call (n + 1) (.native f) line arguments m = readLine line m := by
  change (checkArity f.arity arguments.length line >>= fun _ =>
    callNative f.body arguments line) m = _
  rw [bind_of_ok (checkArity_of_eq reads.2 m), reads.1]
  rfl

theorem IsRead.cases {p : Point} (reads : p.IsRead) : ∃ n f line arguments,
    p = ⟨n + 1, .call (.native f) line arguments, p.machine⟩ := by
  unfold IsRead at reads
  split at reads
  next n f line arguments m => exact ⟨n, f, line, arguments, rfl⟩
  next => exact reads.elim

theorem IsRead.parts_eq {p : Point} (reads : p.IsRead) : p.parts = [] := by
  obtain ⟨n, f, line, arguments, same⟩ := reads.cases
  rw [same]
  rfl

theorem IsRead.gives {p : Point} (reads : p.IsRead) :
    p.machine.input.Gives p.line?.toList p.left := by
  rw [line?, if_pos reads]
  obtain ⟨n, f, line, arguments, same⟩ := reads.cases
  rw [same] at reads ⊢
  generalize p.machine = m at *
  rw [left, call_of_isRead reads]
  cases next : m.input.line with
  | awaiting => exact readLine_awaiting next ▸ .refl _
  | atEnd => exact readLine_atEnd next ▸ .refl _
  | read bytes rest =>
    have taken := Input.gives_of_read next
    rw [readLine_read next]
    cases Input.decode? bytes <;> exact taken

-- The whole run.

theorem Passes.gives {input last : Input} {parts : List Point} (passes : Passes last input parts)
    (each : ∀ q ∈ parts, q.machine.input.Gives q.taken q.left) :
    input.Gives (parts.flatMap taken) last := by
  induction parts generalizing input with
  | nil => exact passes ▸ .refl _
  | cons q rest ih =>
    obtain ⟨starts, passes⟩ := passes
    obtain ⟨first, others⟩ := List.forall_mem_cons.mp each
    exact (starts ▸ first).trans (ih passes others)

theorem gives : ∀ p : Point, p.machine.input.Gives p.taken p.left := by
  refine Begins.induction fun p parts => ?_
  rw [taken_eq]
  by_cases reads : p.IsRead
  · rw [reads.parts_eq, List.flatMap_nil, List.append_nil]
    exact reads.gives
  · rw [line?, if_neg reads]
    exact (passes p reads).gives fun q mem => parts q (mem_parts_iff.mp mem)

theorem Passes.gives_of_mem {input last : Input} {parts : List Point} {q : Point}
    (passes : Passes last input parts) (mem : q ∈ parts) :
    ∃ before, input.Gives before q.machine.input := by
  induction parts generalizing input with
  | nil => cases mem
  | cons r rest ih =>
    obtain ⟨starts, passes⟩ := passes
    rcases List.mem_cons.mp mem with rfl | mem
    · exact ⟨[], starts ▸ .refl _⟩
    · obtain ⟨before, between⟩ := ih passes mem
      have first := r.gives
      rw [starts] at first
      exact ⟨r.taken ++ before, first.trans between⟩

-- Lines are gone at a point only because the run took them before.
theorem gives_of_reaches {p q : Point} (reaches : Reaches p q) :
    ∃ before, p.machine.input.Gives before q.machine.input := by
  induction reaches with
  | refl => exact ⟨[], .refl _⟩
  | @next q q' _ begins ih =>
    obtain ⟨before, first⟩ := ih
    have part := mem_parts_iff.mpr begins
    have other : ¬q.IsRead := fun reads => by
      rw [reads.parts_eq] at part
      cases part
    obtain ⟨between, second⟩ := (passes q other).gives_of_mem part
    exact ⟨before ++ between, first.trans second⟩

/-- What a call that reads gives back: `nil` if no line is left, and else the next line without its
line break, as a value. -/
inductive Receives : Point → Option (List UInt8) → Prop
  | nothing {n line : Nat} {m : Machine} {f : Native} {arguments : List Value} :
      m.input.bytes = [] → call (n + 1) (.native f) line arguments m = .ok .nil m →
      Receives ⟨n + 1, .call (.native f) line arguments, m⟩ none
  | line {n line : Nat} {m : Machine} {f : Native} {arguments : List Value} {bytes : List UInt8}
      {rest : Input} {text : String} : m.input.line = .read bytes rest →
      Input.decode? bytes = some text →
      call (n + 1) (.native f) line arguments m =
        .ok (.ofInput (Input.chomp text)) { m with input := rest } →
      Receives ⟨n + 1, .call (.native f) line arguments, m⟩ (some bytes)

theorem IsRead.receives {p : Point} (reads : p.IsRead) (ended : p.machine.input.ended = true)
    (decodable : Input.Decodable p.machine.input.bytes) : p.Receives p.line? := by
  rw [line?, if_pos reads]
  obtain ⟨n, f, line, arguments, same⟩ := reads.cases
  generalize p.machine = m at same ended decodable
  subst same
  rcases Input.line_of_ended ended with ⟨empty, ends⟩ | ⟨bytes, rest, next⟩
  · rw [ends]
    exact .nothing empty ((call_of_isRead reads).trans (readLine_atEnd ends))
  · obtain ⟨text, decoded⟩ :=
      Option.isSome_iff_exists.mp (Input.decodable_of_read decodable next).1
    have given := (call_of_isRead reads).trans (readLine_read next)
    rw [decoded] at given
    rw [next]
    exact .line next decoded given

theorem receives_of_reaches {p q : Point} (reaches : Reaches p q) (reads : q.IsRead)
    (ended : p.machine.input.ended = true) (decodable : Input.Decodable p.machine.input.bytes) :
    q.Receives q.line? := by
  obtain ⟨before, gives⟩ := gives_of_reaches reaches
  exact reads.receives (gives.ended.trans ended) (gives.decodable decodable).2

end Point

namespace Run

variable {α β : Type}

def Ready (p : Run α) : Prop := ∀ m : Machine, m.input.ended = true →
  (ending (p m)).input.ended = true ∧ ∀ m', p m ≠ .error .awaitingInput m'

namespace Ready

variable {p : Run α} {f : α → Run β}

theorem bind (first : Ready p) (second : ∀ a, Ready (f a)) : Ready (p >>= f) := by
  intro m ended
  obtain ⟨ended', goesOn⟩ := first m ended
  cases ran : p m with
  | ok a m₁ =>
    rw [ran] at ended'
    rw [bind_of_ok ran]
    exact second a m₁ ended'
  | error halt m₁ =>
    rw [ran] at ended' goesOn
    rw [bind_of_error ran]
    refine ⟨ended', fun m' waits => goesOn m' ?_⟩
    obtain ⟨rfl, rfl⟩ := EStateM.Result.error.inj waits
    rfl

theorem of_untouched (untouched : Untouched p) (goesOn : ∀ m m', p m ≠ .error .awaitingInput m') :
    Ready p :=
  fun m ended => ⟨(congrArg Input.ended (untouched m)).trans ended, goesOn m⟩

theorem stop {line : Nat} {fault : RuntimeFault} : Ready (Run.stop line fault : Run α) :=
  of_untouched (closed_untouched.stop _ _) fun _ _ => nofun

theorem ofExcept {result : Except Diagnostic α} : Ready (Run.ofExcept result) := by
  refine of_untouched .ofExcept ?_
  cases result <;> exact fun _ _ => nofun

theorem assignFrom {env : Environment} {name : Name} {value : Value} :
    Ready (Run.assignFrom env name value) := by
  refine of_untouched .assignFrom fun m _ => ?_
  unfold Run.assignFrom
  cases m.store.binder? env name.text <;> nofun

theorem assign {r : Reference} {value : Value} : Ready (Run.assign r value) := by
  intro m
  unfold Run.assign
  cases m.resolution[r.id]? with
  | some distance => exact fun ended => ⟨ended, nofun⟩
  | none => exact assignFrom m

theorem within {env : Environment} (h : Ready p) : Ready (Run.within env p) := by
  intro m ended
  obtain ⟨ended', goesOn⟩ := h { m with environment := env } ended
  unfold Run.within
  cases ran : p { m with environment := env } with
  | ok a m₁ =>
    rw [ran] at ended'
    exact ⟨ended', nofun⟩
  | error halt m₁ =>
    rw [ran] at ended' goesOn
    refine ⟨ended', fun m' waits => goesOn m₁ ?_⟩
    rw [(EStateM.Result.error.inj waits).1]

theorem readLine {line : Nat} : Ready (Run.readLine line) := by
  intro m ended
  rcases Input.line_of_ended ended with ⟨-, ends⟩ | ⟨bytes, rest, read⟩
  · rw [readLine_atEnd ends]
    exact ⟨ended, nofun⟩
  · have ended' : rest.ended = true := (Input.gives_of_read read).ended.trans ended
    rw [readLine_read read]
    cases Input.decode? bytes <;> exact ⟨ended', nofun⟩

theorem write {text : String} : Ready (Run.write text) :=
  of_untouched (fun _ => rfl) fun _ _ => nofun

theorem printLine {value : Value} : Ready (Run.printLine value) := by
  refine write.bind fun fits => ?_
  split
  · exact of_untouched .pure fun _ _ => nofun
  · exact of_untouched (fun _ => rfl) fun _ _ => nofun

theorem greet {name : Value} {line : Nat} : Ready (Run.greet name line) := by
  refine write.bind fun fits => ?_
  split
  · exact of_untouched .pure fun _ _ => nofun
  · exact stop

theorem callHost {slot : Nat} {arguments : List Value} {line : Nat} :
    Ready (Run.callHost slot arguments line) := by
  refine of_untouched .callHost fun m _ => ?_
  unfold Run.callHost
  split
  · nofun
  · split <;> nofun

end Ready

theorem closed_ready : Closed @Ready where
  pure _ := .of_untouched .pure fun _ _ => nofun
  bind := .bind
  observe parts _ := fun m => parts m m
  stop _ _ := .stop
  clockReading := .of_untouched closed_untouched.clockReading fun _ _ => nofun
  onStore grows := .of_untouched (closed_untouched.onStore grows) fun _ _ => nofun
  newScope := .of_untouched closed_untouched.newScope fun _ _ => nofun
  define _ _ := .of_untouched (closed_untouched.define _ _) fun _ _ => nofun
  lookUp _ := fun m => Ready.ofExcept m
  assign _ _ := .assign
  assignFrom _ _ _ := .assignFrom

theorem closedRuns_ready : ClosedRuns @Ready where
  toClosed := closed_ready
  exhausted := .of_untouched (fun _ => rfl) fun _ _ => nofun
  within _ := .within
  readLine _ := .readLine
  printLine _ := .printLine
  greet _ _ := .greet
  callHost _ _ _ := .callHost

theorem ready_flush : Ready flush :=
  Ready.bind (fun _ ended => ⟨ended, nofun⟩) fun m => by
    cases m.output.flushFails with
    | false => exact .of_untouched .pure fun _ _ => nofun
    | true => exact .of_untouched (fun _ => rfl) fun _ _ => nofun

theorem ready_program (depth : Nat) (body : List Stmt) : Ready (program depth body) := by
  intro m ended
  obtain ⟨ended', goesOn⟩ := closedRuns_ready.executeProgram depth body m ended
  refine ⟨by rw [ending_program]; exact ended', fun m' waits => ?_⟩
  rcases program_eq_error waits with ⟨m₁, ran⟩ | ⟨m₁, flushed⟩
  · exact goesOn m₁ ran
  · exact (ready_flush { ending (executeProgram depth body m) with environment := .root }
      ended').2 m₁ flushed

end Run

end ScopeScript
