import ScopeScript.CommandLine.Report
import ScopeScript.Proofs.Execution.Reading
import ScopeScript.Proofs.Sessions.Steps

set_option autoImplicit false

namespace ScopeScript

open Run

namespace Session

variable (s : Session) (depth : Nat) (source : String)

def root : Point :=
  ⟨depth, .program ((s.compile source).1.toOption.getD []), (s.compile source).2.machine⟩

theorem input_root : (s.root depth source).machine.input = s.machine.input := by
  rw [root, machine_compile]

theorem left_root : (s.root depth source).left = (s.run depth source).2.machine.input := by
  rw [run_snd, root]
  cases s.compile source with
  | mk result s =>
    cases result with
    | error errors => rfl
    | ok body =>
      simp only [ending_program]
      rfl

theorem gives_run :
    s.machine.input.Gives (s.root depth source).taken (s.run depth source).2.machine.input := by
  have gives := (s.root depth source).gives
  rwa [input_root, left_root] at gives

theorem run_ne_awaitingInput (ended : s.machine.input.ended = true) :
    (s.run depth source).1 ≠ .awaitingInput := by
  have kept := congrArg (·.input.ended) (s.machine_compile source)
  unfold run
  generalize s.compile source = step at kept
  obtain ⟨result, s₁⟩ := step
  cases result with
  | error errors => exact nofun
  | ok body =>
    obtain ⟨-, goesOn⟩ := ready_program depth body s₁.machine (kept.trans ended)
    cases ran : program depth body s₁.machine with
    | ok _ m => simp [ran]
    | error halt m =>
      cases halt with
      | fault d => simp [ran]
      | exhausted => simp [ran]
      | awaitingInput => exact absurd ran (goesOn m)

end Session

namespace CommandLine.Repl

structure Exchange where
  line : List UInt8
  source : String
  session : Session

namespace Exchange

variable (depth : Nat) (x : Exchange)

def outcome : Outcome := (x.session.run depth x.source).1

def after : Session := (x.session.run depth x.source).2

def root : Point := x.session.root depth x.source

def reads : List (List UInt8) := (x.root depth).taken

structure Follows (s : Session) : Prop where
  decoded : Input.decode? x.line = some x.source
  taken : ∃ rest, s.machine.input.line = .read x.line rest ∧
    x.session = withInput (write s promptText) rest

end Exchange

/-- The session runs one line after another, whatever their outcomes are. -/
inductive Converses (depth : Nat) : Session → List Exchange → Session → Prop
  | done (s : Session) : Converses depth s [] s
  | line {s s' : Session} {x : Exchange} {xs : List Exchange} : x.Follows s →
      Converses depth (x.after depth) xs s' → Converses depth s (x :: xs) s'

/-- No program that comes up goes beyond the depth. -/
def Terminates (depth : Nat) (s : Session) : Prop :=
  ∀ xs s', Converses depth s xs s' → ∀ x ∈ xs, x.outcome depth ≠ .exhausted

/-- The session runs these lines, and its programs read all others. -/
structure Settled (depth : Nat) (s : Session) (xs : List Exchange) (s' : Session) : Prop where
  converses : Converses depth s xs s'
  lines : Input.lines s.machine.input.bytes = xs.flatMap fun x => x.line :: x.reads depth
  nothingLeft : s'.machine.input.bytes = []
  ended : ∀ x ∈ xs, x.outcome depth ≠ .exhausted ∧ x.outcome depth ≠ .awaitingInput
  received : ∀ x ∈ xs, ∀ p, Reaches (x.root depth) p → p.IsRead → p.Receives p.line?

def errorsOf (depth : Nat) (xs : List Exchange) : String :=
  String.join (xs.map fun x => errorLines (x.outcome depth).errors)

def interruption : Outcome → Option Ending
  | .exhausted => some .exhausted
  | .awaitingInput => some .awaitingInput
  | .ok | .compileErrors _ | .runtimeError _ => none

theorem interruption_eq_none {outcome : Outcome} :
    interruption outcome = none ↔ outcome ≠ .exhausted ∧ outcome ≠ .awaitingInput := by
  cases outcome <;> simp [interruption]

variable {depth : Nat} {s s' : Session} {x : Exchange} {xs : List Exchange}

theorem Exchange.Follows.gives (follows : x.Follows s) :
    s.machine.input.Gives [x.line] x.session.machine.input := by
  obtain ⟨-, rest, read, same⟩ := follows
  rw [same]
  exact Input.gives_of_read read

theorem Exchange.Follows.gives_after (follows : x.Follows s) (depth : Nat) :
    s.machine.input.Gives (x.line :: x.reads depth) (x.after depth).machine.input :=
  follows.gives.trans (x.session.gives_run depth x.source)

theorem Terminates.after (terminates : Terminates depth s) (follows : x.Follows s) :
    Terminates depth (x.after depth) := fun xs s' converses y mem =>
  terminates (x :: xs) s' (.line follows converses) y (List.mem_cons_of_mem x mem)

theorem Exchange.Follows.ended (follows : x.Follows s) (terminates : Terminates depth s)
    (ended : s.machine.input.ended = true) :
    x.outcome depth ≠ .exhausted ∧ x.outcome depth ≠ .awaitingInput :=
  ⟨terminates [x] _ (.line follows (.done _)) x List.mem_cons_self,
    x.session.run_ne_awaitingInput depth x.source (follows.gives.ended.trans ended)⟩

theorem Exchange.Follows.received (follows : x.Follows s) (ended : s.machine.input.ended = true)
    (decodable : Input.Decodable s.machine.input.bytes) (p : Point)
    (reaches : Reaches (x.root depth) p) (reads : p.IsRead) : p.Receives p.line? := by
  have input : (x.root depth).machine.input = x.session.machine.input :=
    x.session.input_root depth x.source
  refine Point.receives_of_reaches reaches reads ?_ ?_
  · rw [input]
    exact follows.gives.ended.trans ended
  · rw [input]
    exact (follows.gives.decodable decodable).2

theorem turn_atEnd (ends : s.machine.input.line = .atEnd) :
    turn depth s = ⟨write (write s promptText) "\n", "", some (.exited 0)⟩ := by
  have kept : (write s promptText).machine.input.line = .atEnd := ends
  unfold turn
  dsimp only
  rw [kept]

theorem Exchange.Follows.turn_eq (follows : x.Follows s) : turn depth s =
    ⟨x.after depth, errorLines (x.outcome depth).errors, interruption (x.outcome depth)⟩ := by
  obtain ⟨decoded, rest, read, same⟩ := follows
  have kept : (write s promptText).machine.input.line = .read x.line rest := read
  unfold turn
  dsimp only
  rw [kept]
  dsimp only
  rw [answer, decoded, ← same]
  rfl

theorem exists_follows {line : List UInt8} {rest : Input}
    (decodable : Input.Decodable s.machine.input.bytes)
    (read : s.machine.input.line = .read line rest) : ∃ x : Exchange, x.Follows s := by
  obtain ⟨source, decoded⟩ :=
    Option.isSome_iff_exists.mp (Input.decodable_of_read decodable read).1
  exact ⟨⟨line, source, withInput (write s promptText) rest⟩, decoded, rest, read, rfl⟩

theorem Settled.done (empty : s.machine.input.bytes = []) : Settled depth s [] s where
  converses := .done s
  lines := Input.lines_eq_nil.mpr empty
  nothingLeft := empty
  ended := nofun
  received := nofun

theorem Settled.line (settled : Settled depth (x.after depth) xs s') (follows : x.Follows s)
    (terminates : Terminates depth s) (ended : s.machine.input.ended = true)
    (decodable : Input.Decodable s.machine.input.bytes) : Settled depth s (x :: xs) s' where
  converses := .line follows settled.converses
  lines := by rw [(follows.gives_after depth).lines, settled.lines, List.flatMap_cons]
  nothingLeft := settled.nothingLeft
  ended := List.forall_mem_cons.mpr ⟨follows.ended terminates ended, settled.ended⟩
  received := List.forall_mem_cons.mpr ⟨follows.received ended decodable, settled.received⟩

theorem loop_settled (bound : Nat) : ∀ (s : Session) (errors : String),
    s.machine.input.ended = true → Input.Decodable s.machine.input.bytes → Terminates depth s →
    (Input.lines s.machine.input.bytes).length < bound →
    ∃ xs s', Settled depth s xs s' ∧ loop depth bound s errors =
      .ofSession (.exited 0) (write (write s' promptText) "\n") (errors ++ errorsOf depth xs) := by
  -- Not on the lines: a program may take any number of them.
  induction bound with
  | zero => exact fun _ _ _ _ _ few => absurd few (Nat.not_lt_zero _)
  | succ bound ih =>
    intro s errors ended decodable terminates few
    rcases Input.line_of_ended ended with ⟨empty, ends⟩ | ⟨line, rest, read⟩
    · refine ⟨[], s, .done empty, ?_⟩
      unfold loop
      rw [turn_atEnd ends]
      rfl
    · obtain ⟨x, follows⟩ := exists_follows decodable read
      have gives := follows.gives_after depth
      have fewer : (Input.lines (x.after depth).machine.input.bytes).length < bound := by
        rw [gives.lines, List.length_append, List.length_cons] at few
        omega
      obtain ⟨xs, s', settled, rest⟩ := ih (x.after depth) _ (gives.ended.trans ended)
        (gives.decodable decodable).2 (terminates.after follows) fewer
      refine ⟨x :: xs, s', settled.line follows terminates ended decodable, ?_⟩
      unfold loop
      rw [follows.turn_eq, interruption_eq_none.mpr (follows.ended terminates ended)]
      dsimp only
      rw [rest, String.append_assoc, errorsOf, errorsOf, List.map_cons, String.join_cons]

/-- Whatever is typed, each line of it is run once or read once, in its order, and the command
reports all that was found wrong and succeeds. -/
theorem lines_settled (s : Surroundings) (ended : s.input.ended = true)
    (decodable : Input.Decodable s.input.bytes) (terminates : Terminates s.depth s.session) :
    ∃ xs s', Settled s.depth s.session xs s' ∧ Command.report s .repl =
      .ofSession (.exited 0) (write (write s' promptText) "\n") (errorsOf s.depth xs) := by
  have few : (Input.lines s.input.bytes).length < s.input.bytes.length + 1 :=
    Nat.lt_succ_of_le (Input.length_lines_le _)
  obtain ⟨xs, s', settled, report⟩ :=
    loop_settled (s.input.bytes.length + 1) s.session "" ended decodable terminates few
  exact ⟨xs, s', settled, report.trans (by rw [String.empty_append])⟩

theorem terminates_of_loop (bound : Nat) : ∀ {s : Session} {errors : String},
    (loop depth bound s errors).status = .exited 0 → Terminates depth s := by
  induction bound with
  | zero => exact nofun
  | succ bound ih =>
    intro s errors succeeds xs s' converses
    cases converses with
    | done => exact nofun
    | @line _ _ x xs follows others =>
      unfold loop at succeeds
      rw [follows.turn_eq] at succeeds
      cases outcome : x.outcome depth with
      | exhausted =>
        rw [outcome] at succeeds
        cases succeeds
      | awaitingInput =>
        rw [outcome] at succeeds
        cases succeeds
      | ok | compileErrors | runtimeError =>
        rw [outcome] at succeeds
        exact List.forall_mem_cons.mpr ⟨by rw [outcome]; exact nofun, ih succeeds xs s' others⟩

def typed (text : String) : Surroundings :=
  ⟨⟨[], []⟩, .ofBytes text.toUTF8.toList, ⟨fun _ => "", fun _ => 0⟩, 20⟩

theorem lines_settled_typed :
    let s := typed "print read();\nhello\nprint a;\nprint (\nprint read();"
    ∃ xs s', Settled s.depth s.session xs s' ∧ Command.report s .repl =
      .ofSession (.exited 0) (write (write s' promptText) "\n") (errorsOf s.depth xs) ∧
      (runLines s).written = "> hello\n> > > nil\n> \n".toUTF8 := by
  intro s
  have ended : s.input.ended = true := rfl
  have decodable : Input.Decodable s.input.bytes := by
    unfold Input.Decodable
    decide +kernel
  have succeeds : (runLines s).status = .exited 0 := by decide +kernel
  obtain ⟨xs, s', settled, report⟩ :=
    lines_settled s ended decodable (terminates_of_loop _ succeeds)
  exact ⟨xs, s', settled, report, by decide +kernel⟩

end CommandLine.Repl

end ScopeScript
