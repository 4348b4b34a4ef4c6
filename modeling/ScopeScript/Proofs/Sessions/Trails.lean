import ScopeScript.Proofs.Likeness.Bare
import ScopeScript.Proofs.Likeness.Simulation
import ScopeScript.Proofs.Likeness.Walks
import ScopeScript.Proofs.Parsing.Uniformity
import ScopeScript.Proofs.Sessions.Lifetime
import ScopeScript.Proofs.Sessions.Steps

set_option autoImplicit false

/-!
Two sessions of which one has given out some more numbers than the other.

Whatever both are asked to do, they go on to differ in these numbers alone. A session is like that
with itself, which says of its machine that all that it holds was made by programs read before.
-/

namespace ScopeScript

def Outcome.ofHalt : Halt → Outcome
  | .fault error => .runtimeError error
  | .exhausted => .exhausted
  | .awaitingInput => .awaitingInput

def Outcome.of : EStateM.Result Halt Machine Unit → Outcome
  | .ok _ _ => .ok
  | .error halt _ => .ofHalt halt

theorem Run.Agrees.outcome {K : Link} {ρ : World} {σs : List Renaming}
    {result result' : EStateM.Result Halt Machine Unit} (h : Agrees K ρ σs Same result result')
    (level : ∀ {line line'}, K.lines line line' → line' = line) :
    Outcome.of result' = Outcome.of result := by
  cases h with
  | ok => rfl
  | error _ _ stops =>
    rw [stops.eq level]
    rfl

namespace Session

theorem run_fst (s : Session) (depth : Nat) (source : String) :
    (s.run depth source).1 = match s.compile source with
      | (.error errors, _) => .compileErrors errors
      | (.ok body, s) => .of (Run.program depth body s.machine) := by
  unfold run
  cases s.compile source with
  | mk result s =>
    cases result with
    | error errors => rfl
    | ok body =>
      simp only
      cases Run.program depth body s.machine with
      | ok _ m => rfl
      | error halt m => cases halt <;> rfl

theorem run_of_compile {s s' : Session} {source : String} {body : List Stmt}
    (accepted : s.compile source = (.ok body, s')) (depth : Nat) :
    s.run depth source = (.of (Run.program depth body s'.machine),
      { s' with machine := Run.ending (Run.program depth body s'.machine) }) := by
  refine Prod.ext ?_ ?_
  · rw [run_fst, accepted]
  · rw [run_snd, accepted]

def counterpart (low k i : Nat) : Nat := if i < low then i else i + k

theorem counterpart_of_lt {low k i : Nat} (below : i < low) : counterpart low k i = i :=
  if_pos below

theorem counterpart_of_le {low k i : Nat} (above : low ≤ i) : counterpart low k i = i + k :=
  if_neg (Nat.not_lt_of_le above)

def link (low k : Nat) (s : Session) : Link where
  lines line line' := line' = line
  renames σ := σ = .same
  linked i j d := i < s.nextId ∧ j = counterpart low k i ∧ s.machine.resolution[i]? = d
  names _ := True

section

variable {low k : Nat} {s s₁ : Session}

theorem plain_link : (s.link low k).Plain := fun _ => id

theorem levels_link (g : Nat → Nat) : (s.link low k).Levels g g := fun same => congrArg g same

theorem moves_link : (s.link low k).Moves id := ⟨fun _ => rfl, rfl⟩

theorem Continues.below (continues : s.Continues s₁) (low k : Nat) :
    (s.link low k).Below (s₁.link low k) where
  lines := id
  renames := id
  linked given := ⟨Nat.lt_of_lt_of_le given.1 continues.later, given.2.1,
    (continues.kept _ given.1).trans given.2.2⟩
  names := id

def numbering (low k : Nat) : Link where
  lines line line' := line' = line
  renames σ := σ = .same
  linked i j _ := j = counterpart low k i
  names _ := True

theorem plain_numbering : (numbering low k).Plain := fun _ => id

theorem moves_numbering : (numbering low k).Moves id := ⟨fun _ => rfl, rfl⟩

theorem counterpart_injective : Function.Injective (counterpart low k) := by
  intro i j same
  unfold counterpart at same
  split at same <;> split at same <;> omega

theorem resolves_numbering (table : Resolution) : (numbering low k).Resolves table := by
  refine plain_numbering.resolves table (fun linked linked' => ?_) ⟨trivial, trivial⟩
  rw [show _ = _ from linked, show _ = _ from linked']
  exact counterpart_injective.eq_iff.symm

theorem allAlike_counterpart (low k : Nat) {body : List Stmt}
    (given : ∀ i ∈ Stmt.idsAll body, i < s.nextId) :
    Stmt.AllAlike (s.link low k) [] body (Stmt.mapIdsAll (counterpart low k) body) := by
  have alike := Stmt.allAlike_moved (K := s.link low k) (f := counterpart low k) moves_link body
    Renaming.plain_nil ⟨fun i mem => ⟨given i mem, rfl, rfl⟩, fun _ _ => trivial⟩
  rwa [Stmt.mapLinesAll_id] at alike

end

def bareValues (results : List (Option (Except Halt Value))) : List (Option (Except Halt Value)) :=
  results.map (Option.map (Except.map (Value.bare id)))

/-- The second session has given out `k` more numbers since the first one was about to give out
`low`. Else they are in the same state. -/
structure Trails (low k : Nat) (s s' : Session) : Prop where
  library : s'.library = s.library
  nextId : s'.nextId = s.nextId + k
  later : low ≤ s.nextId
  tidy : s.Tidy
  tidy' : s'.Tidy
  machine : ∃ ρ, s.machine.Matches (s.link low k) ρ [] s'.machine

namespace Trails

variable {low k : Nat} {s s' : Session}

theorem recorded (t : Trails low k s s') {i : Nat} (given : i < s.nextId) :
    s'.machine.resolution[counterpart low k i]? = s.machine.resolution[i]? := by
  obtain ⟨ρ, h⟩ := t.machine
  exact (h.linked ⟨given, rfl, rfl⟩).2

theorem next (t : Trails low k s s') {s₁ s₁' : Session} (continues : s.Continues s₁)
    (continues' : s'.Continues s₁') (library : s₁'.library = s₁.library)
    (nextId : s₁'.nextId = s₁.nextId + k)
    (machine : ∃ ρ, s₁.machine.Matches (s₁.link low k) ρ [] s₁'.machine) :
    Trails low k s₁ s₁' :=
  ⟨library, nextId, Nat.le_trans t.later continues.later, continues.tidy t.tidy,
    continues'.tidy t.tidy', machine⟩

theorem skip (t : Trails low k s s') {n : Nat} (later : s.nextId ≤ n) :
    Trails low k { s with nextId := n } { s' with nextId := n + k } := by
  obtain ⟨ρ, h⟩ := t.machine
  have later' : s'.nextId ≤ n + k := by
    rw [t.nextId]
    omega
  have continues := Continues.skip later
  refine t.next continues (.skip later') t.library rfl ⟨ρ, ?_⟩
  refine h.record (continues.below low k) fun {i j d} linked => ?_
  obtain ⟨-, rfl, rfl⟩ := linked
  refine ⟨rfl, ?_⟩
  by_cases given : i < s.nextId
  · exact t.recorded given
  · have free : s.nextId ≤ i := by omega
    have free' : s'.nextId ≤ counterpart low k i := by
      rw [counterpart_of_le (Nat.le_trans t.later free), t.nextId]
      omega
    exact (t.tidy'.unrecorded free').trans (t.tidy.unrecorded free).symm

theorem parse_add (t : Trails low k s s') (source : String) :
    (s'.parse source).1 = (s.parse source).1.map (Stmt.mapIdsAll (· + k)) ∧
      Trails low k (s.parse source).2 (s'.parse source).2 := by
  unfold Session.parse
  rw [t.library]
  cases (s.library.process [] source).result with
  | error errors => exact ⟨rfl, t⟩
  | ok text =>
    have moved := parse_moved k (g := id) (scannedTokens (scan text)) s.nextId (.inl rfl)
    have kept : Token.mapLine id = id := rfl
    have kept' : Diagnostic.mapLine id = id := funext Diagnostic.mapLine_id
    rw [kept, kept', List.map_id, List.map_id_fun] at moved
    have trees (body : List Stmt) : body.map (Stmt.moved k id) = Stmt.mapIdsAll (· + k) body := by
      rw [← Parser.moved_all, Stmt.mapLinesAll_id]
    simp only [t.nextId, moved]
    constructor
    · cases (ScopeScript.parse (scannedTokens (scan text)) s.nextId).result with
      | error errors => rfl
      | ok body =>
        change (if _ then Except.ok (body.map (Stmt.moved k id)) else _) =
          Except.map _ (if _ then Except.ok body else _)
        rw [trees]
        split <;> rfl
    · have skipped := t.skip (le_nextId_parse (scannedTokens (scan text)) s.nextId)
      rwa [t.library] at skipped

theorem parse (t : Trails low k s s') (source : String) :
    (s'.parse source).1 = (s.parse source).1.map (Stmt.mapIdsAll (counterpart low k)) ∧
      Trails low k (s.parse source).2 (s'.parse source).2 := by
  obtain ⟨same, trails⟩ := t.parse_add source
  refine ⟨same.trans ?_, trails⟩
  cases result : (s.parse source).1 with
  | error errors => rfl
  | ok body =>
    have fresh := (of_parse_eq_ok result).1
    refine congrArg Except.ok (Stmt.mapIdsAll_congr body fun i mem => ?_)
    exact (counterpart_of_le (Nat.le_trans t.later (fresh.inside i mem).1)).symm

theorem register (t : Trails low k s s') {found found' : Resolution} {n : Nat}
    (later : s.nextId ≤ n) (same : ∀ i, found'[counterpart low k i]? = found[i]?)
    (continues : s.Continues
      { s with machine := Session.register s.machine found, nextId := n })
    (continues' : s'.Continues
      { s' with machine := Session.register s'.machine found', nextId := n + k }) :
    Trails low k { s with machine := Session.register s.machine found, nextId := n }
      { s' with machine := Session.register s'.machine found', nextId := n + k } := by
  obtain ⟨ρ, h⟩ := t.machine
  refine t.next continues continues' t.library rfl ⟨ρ, ?_⟩
  refine h.record (continues.below low k) fun {i j d} linked => ?_
  obtain ⟨given, rfl, rfl⟩ := linked
  have before := (t.skip later).recorded given
  refine ⟨rfl, (getElem?_register s'.machine found' _).trans ?_⟩
  refine Eq.trans ?_ (getElem?_register s.machine found i).symm
  rw [same, before]

theorem compile (t : Trails low k s s') (source : String) :
    (s'.compile source).1 = (s.compile source).1.map (Stmt.mapIdsAll (counterpart low k)) ∧
      Trails low k (s.compile source).2 (s'.compile source).2 := by
  obtain ⟨same, trails⟩ := t.parse source
  have known := s.parse_snd source
  have known' := s'.parse_snd source
  have continues := s.continues_compile source
  have continues' := s'.continues_compile source
  unfold Session.compile at continues continues' ⊢
  generalize s.parse source = step at same trails known continues ⊢
  generalize s'.parse source = step' at same trails known' continues' ⊢
  obtain ⟨result, m, library, n⟩ := step
  obtain ⟨result', m', library', n'⟩ := step'
  simp only [Session.mk.injEq, and_true] at same known known'
  obtain rfl := same
  obtain ⟨⟨rfl, rfl⟩, later⟩ := known
  obtain ⟨⟨rfl, rfl⟩, -⟩ := known'
  cases result with
  | error errors => exact ⟨rfl, trails⟩
  | ok body =>
    have alike : Stmt.AllAlike (numbering low k) [] body
        (Stmt.mapIdsAll (counterpart low k) body) := by
      have moved := Stmt.allAlike_moved (K := numbering low k) (f := counterpart low k)
        (d := fun _ => none) moves_numbering body Renaming.plain_nil
        ⟨fun _ _ => rfl, fun _ _ => trivial⟩
      rwa [Stmt.mapLinesAll_id] at moved
    rcases resolve_alike (resolves_numbering ∅) alike (.inl plain_numbering) with
      ⟨faults, faults', found, found', noted⟩ | ⟨table, table', found, found', entered⟩
    · have same : faults' = faults := eq_of_alike plain_numbering (fun same => same) noted
      subst same
      simp only [Except.map, found, found']
      exact ⟨trivial, trails⟩
    · simp only [Except.map, found, found'] at continues continues' ⊢
      obtain rfl : n' = n + k := trails.nextId
      exact ⟨trivial, t.register later (fun i => entered (d := none) rfl) continues continues'⟩

-- Runs.

theorem ran (t : Trails low k s s') {m m' : Machine} {ρ : World}
    (same : m.resolution = s.machine.resolution) (same' : m'.resolution = s'.machine.resolution)
    (h : m.Matches (s.link low k) ρ [] m') :
    Trails low k { s with machine := m } { s' with machine := m' } := by
  refine t.next (.ran same) (.ran same') t.library t.nextId ⟨ρ, ?_⟩
  have link : Session.link low k { s with machine := m } = s.link low k := by
    unfold Session.link
    rw [same]
  rwa [link]

theorem execute (t : Trails low k s s') (depth : Nat) {body body' : List Stmt}
    (alike : Stmt.AllAlike (s.link low k) [] body body') :
    Trails low k { s with machine := Run.ending (Run.program depth body s.machine) }
        { s' with machine := Run.ending (Run.program depth body' s'.machine) } ∧
      Outcome.of (Run.program depth body' s'.machine) =
        Outcome.of (Run.program depth body s.machine) := by
  obtain ⟨ρ, h⟩ := t.machine
  have ran := agrees_program (n := depth) (.plain plain_link) trivial h alike
  have kept (body : List Stmt) (m : Machine) :
      (Run.ending (Run.program depth body m)).resolution = m.resolution := by
    rw [Run.ending_program]
    exact (Run.keeps_executeProgram depth body m).resolution
  obtain ⟨ρ', -, machines⟩ := ran.ending
  exact ⟨t.ran (kept _ _) (kept _ _) machines, ran.outcome fun same => same⟩

theorem run (t : Trails low k s s') (depth : Nat) (source : String) :
    (s'.run depth source).1 = (s.run depth source).1 ∧
      Trails low k (s.run depth source).2 (s'.run depth source).2 := by
  obtain ⟨same, trails⟩ := t.compile source
  have fresh := fun body => @fresh_compile s source body
  rw [run_snd, run_snd, run_fst, run_fst]
  generalize s.compile source = step at same trails fresh ⊢
  generalize s'.compile source = step' at same trails ⊢
  obtain ⟨result, s₁⟩ := step
  obtain ⟨result', s₁'⟩ := step'
  obtain rfl := same
  cases result with
  | error errors => exact ⟨rfl, trails⟩
  | ok body =>
    have given := (fresh body rfl).inside
    have alike := allAlike_counterpart (s := s₁) low k fun i mem => (given i mem).2
    exact (trails.execute depth alike).symm

theorem evaluate (t : Trails low k s s') (depth : Nat) {e e' : Expr}
    (alike : e.Alike (s.link low k) [] e') :
    (s'.evaluate depth e').1.map (Value.bare id) = (s.evaluate depth e).1.map (Value.bare id) ∧
      Trails low k (s.evaluate depth e).2 (s'.evaluate depth e').2 := by
  obtain ⟨ρ, h⟩ := t.machine
  have ran := (simulates (.plain plain_link) depth).evaluate trivial h alike
  have kept := (Run.keeps_evaluate depth e s.machine).resolution
  have kept' := (Run.keeps_evaluate depth e' s'.machine).resolution
  unfold Session.evaluate
  generalize Run.evaluate depth e s.machine = result at ran kept ⊢
  generalize Run.evaluate depth e' s'.machine = result' at ran kept' ⊢
  cases ran with
  | ok _ machines value =>
    refine ⟨congrArg Except.ok ?_, t.ran kept kept' machines⟩
    exact value.bare (levels_link id) plain_link (machines.store.plain plain_link)
  | error _ machines stops =>
    refine ⟨?_, t.ran kept kept' machines⟩
    rw [stops.eq fun same => same]

theorem evaluateAll (t : Trails low k s s') (depth : Nat) {body body' : List Stmt}
    (alike : Stmt.AllAlike (s.link low k) [] body body') :
    bareValues (s'.evaluateAll depth body').1 = bareValues (s.evaluateAll depth body).1 ∧
      Trails low k (s.evaluateAll depth body).2 (s'.evaluateAll depth body').2 := by
  induction body generalizing s s' body' with
  | nil =>
    cases alike
    exact ⟨rfl, t⟩
  | cons first rest ih =>
    cases alike with
    | @cons _ _ first' _ rest' alike others =>
      cases alike with
      | @expression _ e e' alike =>
        obtain ⟨same, next⟩ := t.evaluate depth alike
        obtain ⟨same', last⟩ := ih next (others.mono ((s.continues_evaluate depth e).below low k))
        exact ⟨congrArg₂ (fun a b => some a :: b) same same', last⟩
      | _ =>
        obtain ⟨same, last⟩ := ih t others
        exact ⟨congrArg (none :: ·) same, last⟩

theorem global? (t : Trails low k s s') (name : String) :
    (s'.global? name).map (Value.bare id) = (s.global? name).map (Value.bare id) := by
  obtain ⟨ρ, h⟩ := t.machine
  exact h.store.bare_lookup (levels_link id) plain_link _ name

end Trails

theorem Trails.gap {s : Session} (t : Trails 0 0 s s) (k : Nat) :
    Trails s.nextId k s { s with nextId := s.nextId + k } := by
  obtain ⟨ρ, h⟩ := t.machine
  refine ⟨rfl, rfl, Nat.le_refl _, t.tidy, (Continues.skip (Nat.le_add_right _ k)).tidy t.tidy,
    ρ, ?_⟩
  have below : (s.link 0 0).Below (s.link s.nextId k) := by
    refine ⟨id, id, fun {i j d} linked => ?_, id⟩
    obtain ⟨given, rfl, rfl⟩ := linked
    exact ⟨given, (counterpart_of_lt given).symm, rfl⟩
  refine h.record below fun {i j d} linked => ?_
  obtain ⟨given, rfl, rfl⟩ := linked
  rw [counterpart_of_lt given]
  exact ⟨rfl, rfl⟩

end Session

-- The sessions of histories.

theorem Session.allAlike_self {s : Session} {body : List Stmt}
    (given : ∀ i ∈ Stmt.idsAll body, i < s.nextId) :
    Stmt.AllAlike (s.link 0 0) [] body body := by
  have alike := allAlike_counterpart 0 0 given
  have same : Session.counterpart 0 0 = id := by
    funext i
    exact counterpart_of_le (Nat.zero_le i)
  rwa [same, Stmt.mapIdsAll_id] at alike

theorem Stmt.AllAlike.expression {K : Link} {σs : List Renaming} {body : List Stmt} {e : Expr}
    (h : Stmt.AllAlike K σs body body) (mem : .expression e ∈ body) : e.Alike K σs e := by
  induction body with
  | nil => cases mem
  | cons first rest ih =>
    cases h with
    | cons alike others =>
      cases mem with
      | head =>
        cases alike with
        | expression alike => exact alike
      | tail _ mem => exact ih others mem

theorem Session.hosts_compile (s : Session) (source : String) :
    (s.compile source).2.machine.hosts = s.machine.hosts := by
  rw [s.machine_compile source]

namespace History

theorem Arises.tidy {h : History} (arises : h.Arises) : h.session.Tidy := by
  intro i entered
  obtain ⟨distance, found⟩ := Std.TreeMap.mem_iff_isSome_getElem?.trans
    Option.isSome_iff_exists |>.mp entered
  exact arises.consistent.entered i distance found

theorem trails_start (output : Sink) (input : Input) (clock : Clock) (library : Library) :
    Session.Trails 0 0 (.start (.initial output input clock) library)
      (.start (.initial output input clock) library) := by
  have tidy := Session.tidy_start output input clock library
  refine ⟨rfl, rfl, Nat.le_refl _, tidy, tidy, [.same], ?_⟩
  have unlinked {i j : Nat} {d : Option Nat} : ¬ (Session.link 0 0
      (.start (.initial output input clock) library)).linked i j d :=
    fun linked => Nat.not_lt_zero i linked.1
  generalize Session.link 0 0 (.start (.initial output input clock) library) = K at unlinked ⊢
  have empty : Store.Alike K [.same] .initial .initial := by
    refine ⟨rfl, by simp, rfl, rfl, fun address σ name _ => ?_, rfl, fun i i' name _ => .none, rfl⟩
    have missing (name : String) : Store.initial.lookup address name = none := by
      cases address <;> rfl
    rw [missing, missing]
    exact .none
  have fold (natives : List (String × Nat × NativeBody)) : ∀ m : Machine,
      m.Matches K [.same] [] m →
      let m' := natives.foldl (fun m native => m.defineNative native.1 native.2.1 native.2.2) m
      m'.Matches K [.same] [] m' := by
    induction natives with
    | nil => exact fun m h => h
    | cons native rest ih => exact fun m h => ih _ (h.defineNative _ _ _)
  exact fold Machine.natives _
    ⟨empty, rfl, .root, fun linked => absurd linked unlinked, fun f mem => by cases mem⟩

theorem Arises.trails {h : History} (arises : h.Arises)
    (oblivious : ∀ f ∈ h.session.machine.hosts, HostFunction.Oblivious f) :
    Session.Trails 0 0 h.session h.session ∧
      ∀ body ∈ h.accepted, ∀ i ∈ Stmt.idsAll body, i < h.session.nextId := by
  induction arises with
  | start output input clock library => exact ⟨trails_start output input clock library, by simp⟩
  | @parse h source _ ih =>
    have kept := (h.session.parse_snd source).1
    rw [kept] at oblivious
    obtain ⟨t, given⟩ := ih oblivious
    refine ⟨(t.parse source).2, fun body mem i inside => ?_⟩
    exact Nat.lt_of_lt_of_le (given body mem i inside) (h.session.continues_parse source).later
  | @compile h source _ ih =>
    obtain ⟨t, given⟩ := ih (h.session.hosts_compile source ▸ oblivious)
    refine ⟨(t.compile source).2, fun body mem i inside => ?_⟩
    rcases List.mem_append.mp mem with before | last
    · exact Nat.lt_of_lt_of_le (given body before i inside)
        (h.session.continues_compile source).later
    · have read := Option.mem_toList.mp last
      exact ((Session.fresh_compile read).inside i inside).2
  | @execute h body depth _ mem ih =>
    have kept : (Run.ending (Run.program depth body h.session.machine)).hosts =
        h.session.machine.hosts := by
      rw [Run.ending_program]
      exact (Run.keeps_executeProgram depth body h.session.machine).hosts
    obtain ⟨t, given⟩ := ih (kept ▸ oblivious)
    exact ⟨(t.execute depth (Session.allAlike_self (given body mem))).1, given⟩
  | @evaluate h body e depth _ mem inside ih =>
    have kept : (h.session.evaluate depth e).2.machine.hosts = h.session.machine.hosts ∧
        (h.session.evaluate depth e).2.nextId = h.session.nextId := by
      have kept := (Run.keeps_evaluate depth e h.session.machine).hosts
      unfold Session.evaluate
      generalize Run.evaluate depth e h.session.machine = result at kept ⊢
      cases result with
      | ok | error => exact ⟨kept, rfl⟩
    obtain ⟨t, given⟩ := ih (kept.1 ▸ oblivious)
    have alike := (Session.allAlike_self (given body mem)).expression inside
    exact ⟨(t.evaluate depth alike).2, fun body mem i inside => kept.2 ▸ given body mem i inside⟩
  | @host h name arity f _ _ ih =>
    obtain ⟨t, given⟩ := ih fun f mem => oblivious f (List.mem_append_left _ mem)
    obtain ⟨ρ, matched⟩ := t.machine
    have defined := matched.defineNative name arity (.host h.session.machine.hosts.length)
    exact ⟨⟨rfl, rfl, t.later, t.tidy, t.tidy', ρ,
      defined.store, rfl, defined.follows, defined.linked, oblivious⟩, given⟩
  | @moved h library output input clock _ ih =>
    obtain ⟨t, given⟩ := ih oblivious
    obtain ⟨ρ, matched⟩ := t.machine
    exact ⟨⟨rfl, rfl, t.later, t.tidy, t.tidy', ρ,
      matched.store, rfl, matched.follows, matched.linked, oblivious⟩, given⟩

end History

end ScopeScript
