import ScopeScript.Proofs.Sessions.Joined

set_option autoImplicit false

namespace ScopeScript

namespace Session

variable {s s' s₁ t t₁ : Session} {source more : String} {body body' : List Stmt}

theorem machine_of_compile (accepted : s.compile source = (.ok body, s')) :
    s'.machine = { s.machine with resolution := s'.machine.resolution } := by
  simpa [accepted] using s.machine_compile source

theorem exists_accepted {result : Except (List Diagnostic) (List Stmt)}
    (accepted : result.toOption.isSome) : ∃ body, result = .ok body := by
  cases result with
  | ok body => exact ⟨body, rfl⟩
  | error errors => cases accepted

theorem compile_congr (library : t.library = s.library) (nextId : t.nextId = s.nextId)
    (source : String) : (t.compile source).1 = (s.compile source).1 := by
  have same : (t.parse source).1 = (s.parse source).1 := by
    unfold parse
    rw [library, nextId]
    cases (s.library.process [] source).result <;> rfl
  unfold compile
  generalize t.parse source = step at same ⊢
  generalize s.parse source = step' at same ⊢
  obtain ⟨result, t₁⟩ := step
  obtain ⟨result', s₁⟩ := step'
  obtain rfl : result = result' := same
  cases result with
  | error errors => rfl
  | ok body =>
    simp only
    cases resolve body <;> rfl

theorem kept_compile (accepted : s.compile source = (.ok body, s'))
    {i : Nat} (given : i < s.nextId) :
    s'.machine.resolution[i]? = s.machine.resolution[i]? := by
  have kept := (s.continues_compile source).kept i given
  rwa [accepted] at kept

def pairs (s : Session) (body : List Stmt) (f : Nat → Nat) (i j : Nat) : Prop :=
  i < s.nextId ∧ j = i ∨ pairing body f i j

theorem pairs_lt (accepted : s.compile source = (.ok body, s₁)) {f : Nat → Nat} {i j : Nat}
    (pair : s.pairs body f i j) : i < s₁.nextId := by
  obtain ⟨table, known, -, -, later⟩ := compile_eq_ok accepted
  rcases pair with ⟨given, -⟩ | ⟨mem, -⟩
  · exact Nat.lt_of_lt_of_le given later
  · exact (known.fresh.inside i mem).2

end Session

/--
The second outcome is the first one, if a complaint may be about a line that much further down.
-/
inductive Outcome.Moved (k : Nat) : Outcome → Outcome → Prop
  | same {outcome : Outcome} : Moved k outcome outcome
  | down {line : Nat} {fault : RuntimeFault} :
      Moved k (.runtimeError (.runtime line fault)) (.runtimeError (.runtime (line + k) fault))

theorem Outcome.eq_ok {result : EStateM.Result Halt Machine Unit}
    (ended : Outcome.of result = .ok) :
    ∃ m, result = .ok () m := by
  cases result with
  | ok _ m => exact ⟨m, rfl⟩
  | error halt m => cases halt <;> cases ended

theorem Outcome.eq_ok_of_exitCode {outcome : Outcome} (ended : outcome.exitCode = 0) :
    outcome = .ok := by
  cases outcome with
  | ok => rfl
  | compileErrors | runtimeError | exhausted | awaitingInput => cases ended

theorem Run.Agrees.moved {k : Nat} {pairs : Nat → Nat → Prop} {resolution : Resolution} {ρ : World}
    {σs : List Renaming} {result result' : EStateM.Result Halt Machine Unit}
    (h : Agrees (.shifting k pairs resolution) ρ σs Same result result') :
    Outcome.Moved k (.of result) (.of result') := by
  cases h with
  | ok => exact .same
  | error _ _ stops =>
    cases stops with
    | runtime line =>
      rcases line with rfl | rfl
      · exact .same
      · exact .down
    | output | exhausted | awaitingInput => exact .same

namespace History

variable {h : History} {s₁ t₁ : Session} {source more : String} {body body' : List Stmt}

theorem Arises.matches_first (arises : h.Arises)
    (oblivious : ∀ f ∈ h.session.machine.hosts, HostFunction.Oblivious f)
    (accepted : h.session.compile source = (.ok body, s₁)) {whole : List Stmt} {s' : Session}
    {joined : String} (accepted' : h.session.compile joined = (.ok whole, s')) {f : Nat → Nat}
    (same : ∀ i ∈ Stmt.idsAll body,
      s'.machine.resolution[f i]? = s₁.machine.resolution[i]?) (k depth : Nat) {m : Machine}
    (ran : Run.executeProgram depth body s₁.machine = .ok () m) :
    ∃ ρ m', Run.executeProgram depth (Stmt.mapIdsAll f body) s'.machine = .ok () m' ∧
      m.Matches (.shifting k (h.session.pairs body f) s₁.machine.resolution) ρ [] m' := by
  let K := Link.shifting k (h.session.pairs body f) s₁.machine.resolution
  obtain ⟨ρ, before⟩ := (arises.trails oblivious).1.machine
  have below : (h.session.link 0 0).Below K := by
    refine ⟨.inl, id, fun linked => ⟨.inl ⟨linked.1, ?_⟩, ?_⟩, id⟩
    · exact linked.2.1.trans (Session.counterpart_of_le (Nat.zero_le _))
    · exact (Session.kept_compile accepted linked.1).trans linked.2.2
  have matched : Machine.Matches K ρ []
      { h.session.machine with resolution := s₁.machine.resolution }
      { h.session.machine with resolution := s'.machine.resolution } := before.record below
    fun {i j d} linked => by
      refine ⟨linked.2, Eq.trans ?_ linked.2⟩
      rcases linked.1 with ⟨given, rfl⟩ | ⟨mem, rfl⟩
      · rw [Session.kept_compile accepted given, Session.kept_compile accepted' given]
      · exact same i mem
  rw [← Session.machine_of_compile accepted, ← Session.machine_of_compile accepted'] at matched
  have alike : Stmt.AllAlike K [] body (Stmt.mapIdsAll f body) :=
    Stmt.allAlike_shifting_self fun i mem => .inr ⟨mem, rfl⟩
  have agrees :=
    agrees_executeProgram (n := depth) (.plain Link.plain_shifting) trivial matched alike
  rw [ran] at agrees
  generalize Run.executeProgram depth (Stmt.mapIdsAll f body) s'.machine = result at agrees ⊢
  cases agrees with
  | ok _ machines => exact ⟨_, _, rfl, machines⟩

theorem Arises.agrees_joined (arises : h.Arises)
    (oblivious : ∀ f ∈ h.session.machine.hosts, HostFunction.Oblivious f)
    (plain : ¬MentionsImport source) (plain' : ¬MentionsImport more)
    (closed : ¬EndsInComment source) (accepted : h.session.compile source = (.ok body, s₁))
    {depth : Nat} {m₁ : Machine} (ran : Run.program depth body s₁.machine = .ok () m₁)
    (accepted' : Session.compile { s₁ with machine := m₁ } more = (.ok body', t₁)) :
    let k := lineBreaks source.toList + 1
    ∃ whole s' pairs resolution ρ, h.session.compile (source ++ "\n" ++ more) = (.ok whole, s') ∧
      Run.Agrees (.shifting k pairs resolution) ρ [] Run.Same
        (Run.program depth body' t₁.machine) (Run.program depth whole s'.machine) := by
  intro k
  have tidy := arises.tidy
  have tidy₁ : Session.Tidy s₁ := by
    have tidy₁ := (h.session.continues_compile source).tidy tidy
    rwa [accepted] at tidy₁
  obtain ⟨m₀, executed, last⟩ := Run.executeProgram_of_program ran
  have keeps := Run.keeps_executeProgram depth body s₁.machine
  simp only [executed, Run.ending] at keeps
  have idle : m₀.environment = .root := by
    rw [keeps.environment, Session.machine_of_compile accepted]
    exact arises.consistent.idle
  obtain rfl : m₁ = m₀ := by
    rw [last, ← idle]
  have tidy' : Session.Tidy { s₁ with machine := m₁ } :=
    (Session.Continues.ran keeps.resolution).tidy tidy₁
  obtain ⟨whole, s', f, f', compiled, rfl, same, same'⟩ :=
    Session.compile_joined tidy tidy' plain plain' closed accepted accepted'
  obtain ⟨ρ, m', executed', matched⟩ :=
    arises.matches_first oblivious accepted compiled same k depth executed
  have keeps' := Run.keeps_executeProgram depth (Stmt.mapIdsAll f body) s'.machine
  simp only [executed', Run.ending] at keeps'
  -- What stands for each other from here on has the same address recorded.
  let pairs (i j : Nat) : Prop := h.session.pairs body f i j ∨ Session.pairing body' f' i j
  have kept {i j : Nat} (pair : h.session.pairs body f i j) :
      t₁.machine.resolution[i]? = s₁.machine.resolution[i]? := by
    rw [Session.kept_compile accepted' (Session.pairs_lt accepted pair)]
    exact congrArg (fun table : Resolution => table[i]?) keeps.resolution
  have below : (Link.shifting k (h.session.pairs body f) s₁.machine.resolution).Below
      (.shifting k pairs t₁.machine.resolution) :=
    ⟨id, id, fun linked => ⟨.inl linked.1, (kept linked.1).trans linked.2⟩, id⟩
  have matched' : Machine.Matches (.shifting k pairs t₁.machine.resolution) ρ []
      { m₁ with resolution := t₁.machine.resolution } m' := matched.record below
    fun {i j d} linked => by
      refine ⟨linked.2, Eq.trans ?_ linked.2⟩
      rcases linked.1 with pair | ⟨mem, rfl⟩
      · rw [kept pair]
        exact (matched.linked ⟨pair, rfl⟩).2
      · rw [keeps'.resolution]
        exact same' i mem
  rw [← Session.machine_of_compile accepted'] at matched'
  have alike : Stmt.AllAlike (.shifting k pairs t₁.machine.resolution) [] body'
      (Stmt.mapIdsAll f' (Stmt.mapLinesAll (· + k) body')) :=
    Stmt.allAlike_shifting (fun _ => .inr rfl) fun i mem => .inr ⟨mem, rfl⟩
  refine ⟨_, s', pairs, t₁.machine.resolution, ρ, compiled, ?_⟩
  rw [Run.program_append executed']
  exact agrees_program (.plain Link.plain_shifting) trivial matched' alike

theorem Arises.compile_after (arises : h.Arises)
    (oblivious : ∀ f ∈ h.session.machine.hosts, HostFunction.Oblivious f)
    (accepted : h.session.compile source = (.ok body, s₁))
    (accepted' : (h.session.compile more).1 = .ok body') (m : Machine) :
    ∃ body'' t₁, Session.compile { s₁ with machine := m } more = (.ok body'', t₁) := by
  obtain ⟨_, -, -, entered, later⟩ := Session.compile_eq_ok accepted
  obtain ⟨k, given⟩ := Nat.exists_eq_add_of_le later
  let skipped : Session := { h.session with nextId := h.session.nextId + k }
  have library : s₁.library = skipped.library := by
    rw [entered]
  have same : (Session.compile { s₁ with machine := m } more).1 = (skipped.compile more).1 :=
    Session.compile_congr (t := { s₁ with machine := m }) library given more
  rw [(((arises.trails oblivious).1.gap k).compile more).1, accepted'] at same
  exact ⟨_, _, Prod.ext same rfl⟩

end History

/--
A text that runs to its end and then another one do as much as the one text that has the second on
a line below the first. That text is accepted, and its program is that of the one and then that of
the other, but for the numbers of references. It ends and writes as the second run does, and leaves
the same in all scopes and objects, up to the lines, which are that much further down. Host
functions are taken to tell apart only what a program can tell apart.
-/
theorem History.Arises.run_joined {h : History} (arises : h.Arises)
    (oblivious : ∀ f ∈ h.session.machine.hosts, HostFunction.Oblivious f) {source more : String}
    (plain : ¬MentionsImport source) (plain' : ¬MentionsImport more)
    (closed : ¬EndsInComment source) {body body' : List Stmt}
    (accepted : (h.session.compile source).1 = .ok body)
    (accepted' : (h.session.compile more).1 = .ok body') {depth : Nat}
    (ended : (h.session.run depth source).1 = .ok) :
    let k := lineBreaks source.toList + 1
    let joined := source ++ "\n" ++ more
    let stepwise := (h.session.run depth source).2.run depth more
    let once := h.session.run depth joined
    (∃ whole, (h.session.compile joined).1 = .ok whole ∧
      Stmt.anonymousAll whole = Stmt.anonymousAll (body ++ Stmt.mapLinesAll (· + k) body')) ∧
    Outcome.Moved k stepwise.1 once.1 ∧ once.2.machine.output = stepwise.2.machine.output ∧
    (∀ name, (once.2.global? name).map (Value.bare (· % k)) =
      (stepwise.2.global? name).map (Value.bare (· % k))) ∧
    (∀ address name, (once.2.machine.store.lookup address name).map (Value.bare (· % k)) =
      (stepwise.2.machine.store.lookup address name).map (Value.bare (· % k))) ∧
    ∀ i name, (once.2.machine.store.field? i name).map (Value.bare (· % k)) =
      (stepwise.2.machine.store.field? i name).map (Value.bare (· % k)) := by
  intro k joined stepwise once
  have compiled : h.session.compile source = (.ok body, _) := Prod.ext accepted rfl
  have first := Session.run_of_compile compiled depth
  obtain ⟨m₁, ran⟩ := Outcome.eq_ok ((congrArg Prod.fst first).symm.trans ended)
  obtain ⟨body'', t₁, compiled'⟩ := arises.compile_after oblivious compiled accepted' m₁
  obtain ⟨whole, s', pairs, resolution, ρ, compiled'', agrees⟩ :=
    arises.agrees_joined oblivious plain plain' closed compiled ran compiled'
  let result := Run.program depth body'' t₁.machine
  let result' := Run.program depth whole s'.machine
  have second : stepwise = (.of result, { t₁ with machine := Run.ending result }) := by
    simp only [stepwise, first, ran, Run.ending]
    exact Session.run_of_compile compiled' depth
  have both : once = (.of result', { s' with machine := Run.ending result' }) :=
    Session.run_of_compile compiled'' depth
  obtain ⟨ρ', -, machines⟩ := agrees.ending
  have levels := @Link.levels_shifting k pairs resolution
  have scopes := machines.store.bare_lookup levels Link.plain_shifting
  have objects := machines.store.bare_field? levels Link.plain_shifting
  rw [second, both]
  refine ⟨?_, agrees.moved, machines.output, scopes _, scopes, objects⟩
  obtain ⟨whole', read, form⟩ := Session.parse_joined plain plain' closed
    (Session.parse_of_compile compiled) (Session.parse_of_compile (Prod.ext accepted' rfl))
  obtain rfl : whole' = whole :=
    Except.ok.inj (read.symm.trans (Session.parse_of_compile compiled''))
  exact ⟨whole', congrArg Prod.fst compiled'', form⟩

theorem History.Arises.run_joined_call : ∃ h : History, h.Arises ∧
    h.session.machine.hosts = [] ∧ ¬MentionsImport "var a;" ∧ ¬MentionsImport "a();" ∧
      ¬EndsInComment "var a;" ∧ (h.session.run 9 "var a;").1 = .ok ∧
      let stepwise := (h.session.run 9 "var a;").2.run 9 "a();"
      let once := h.session.run 9 ("var a;" ++ "\n" ++ "a();")
      Outcome.Moved 1 stepwise.1 once.1 ∧ stepwise.1.errors.map Diagnostic.line? = [some 1] ∧
        once.1.errors.map Diagnostic.line? = [some 2] := by
  let h : History := ⟨.start (.initial .unlimited ⟨[], true⟩ ⟨fun _ => "", fun _ => 0⟩)
    (.ofFiles [] ""), [], []⟩
  have arises : h.Arises := .start _ _ _ _
  have hosts : h.session.machine.hosts = [] := rfl
  have plain : ¬MentionsImport "var a;" := by decide +kernel
  have plain' : ¬MentionsImport "a();" := by decide +kernel
  have closed : ¬EndsInComment "var a;" := by decide +kernel
  obtain ⟨body, accepted⟩ := Session.exists_accepted
    (show (h.session.compile "var a;").1.toOption.isSome by decide +kernel)
  obtain ⟨body', accepted'⟩ := Session.exists_accepted
    (show (h.session.compile "a();").1.toOption.isSome by decide +kernel)
  have ended : (h.session.run 9 "var a;").1 = .ok :=
    Outcome.eq_ok_of_exitCode (by decide +kernel)
  have moved := (arises.run_joined (fun f mem => by cases hosts ▸ mem) plain plain' closed accepted
    accepted' ended).2.1
  exact ⟨h, arises, hosts, plain, plain', closed, ended, moved, by decide +kernel,
    by decide +kernel⟩

end ScopeScript
