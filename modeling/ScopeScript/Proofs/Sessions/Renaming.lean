import ScopeScript.Proofs.Likeness.Changed
import ScopeScript.Proofs.Sessions.Agreement
import ScopeScript.Proofs.Sessions.Trails

set_option autoImplicit false

namespace ScopeScript

def Renaming.link (σ : Renaming) (table : Resolution) (names : String → Prop) : Link where
  lines line line' := line' = line
  renames τ := τ = .same ∨ τ = σ
  linked i j d := j = i ∧ table[i]? = d
  names := names

namespace Change

variable {c : Change}

def swap (c : Change) (old : c.old ≠ "this" ∧ c.old ≠ "super")
    (new : c.new ≠ "this" ∧ c.new ≠ "super") : Renaming where
  perm := Equiv.swap c.old c.new
  this := Equiv.swap_apply_of_ne_of_ne old.1.symm new.1.symm
  super := Equiv.swap_apply_of_ne_of_ne old.2.symm new.2.symm

section

variable (old : c.old ≠ "this" ∧ c.old ≠ "super") (new : c.new ≠ "this" ∧ c.new ≠ "super")

theorem swap_apply {word : String} (other : word ≠ c.new) :
    c.swap old new word = if word = c.old then c.new else word := by
  change Equiv.swap c.old c.new word = _
  rw [Equiv.swap_apply_def, if_neg other]

theorem permits_link (table : Resolution) :
    ((c.swap old new).link table (· ≠ c.new)).Permits c (c.swap old new) where
  lines _ := rfl
  same := .inl rfl
  renamed := .inr rfl
  spelled _ known := c.swap_apply old new known

theorem resolves_link (table : Resolution) :
    ((c.swap old new).link table (· ≠ c.new)).Resolves table where
  apart {σ τ name name'} allowed allowed' known known' same := by
    have spelled {σ : Renaming}
        (allowed : ((c.swap old new).link table (· ≠ c.new)).Allows σ) {word : String}
        (other : word ≠ c.new) : σ word = word ∨ word = c.old ∧ σ word = c.new := by
      rcases allowed with rfl | rfl | rfl
      · exact .inl rfl
      · exact .inl rfl
      · rw [c.swap_apply old new other]
        split
        next old => exact .inr ⟨old, rfl⟩
        · exact .inl rfl
    rcases spelled allowed known with kept | ⟨here, changed⟩ <;>
      rcases spelled allowed' known' with kept' | ⟨here', changed'⟩
    · exact kept ▸ kept' ▸ same
    · exact absurd (kept.symm.trans (same.trans changed')) known
    · exact absurd (kept'.symm.trans (same.symm.trans changed)) known'
    · exact here.trans here'.symm
  oneToOne linked linked' := by
    rw [linked.1, linked'.1]
  keywords := ⟨new.1.symm, new.2.symm⟩
  settled := .inr fun linked => linked.2

end

end Change

section

variable {c : Change} {body body' : List Stmt}

theorem Stmt.AllChanges.alike_link (changes : Stmt.AllChanges c body body')
    (old : c.old ≠ "this" ∧ c.old ≠ "super") (new : c.new ≠ "this" ∧ c.new ≠ "super")
    (unused : c.new ∉ Stmt.wordsAll body)
    (settles : Settles c.table [] (.row body) .topLevel .initial) {table : Resolution}
    (recorded : ∀ i ∈ Stmt.idsAll body, table[i]? = c.table[i]?) :
    Stmt.AllAlike ((c.swap old new).link table (· ≠ c.new)) [] body body' :=
  changes.alike (c.permits_link old new table) Renaming.plain_nil settles
    ⟨fun i mem => ⟨rfl, recorded i mem⟩, fun _ mem same => unused (same ▸ mem)⟩

theorem Stmt.AllChanges.resolve (changes : Stmt.AllChanges c body body')
    (old : c.old ≠ "this" ∧ c.old ≠ "super") (new : c.new ≠ "this" ∧ c.new ≠ "super")
    (unused : c.new ∉ Stmt.wordsAll body) (distinct : (Stmt.idsAll body).Nodup)
    (resolved : ScopeScript.resolve body = .ok c.table) :
    ∃ table', ScopeScript.resolve body' = .ok table' ∧ ∀ i : Nat, table'[i]? = c.table[i]? := by
  have settles := (settles_of_resolve distinct resolved).1
  have alike := changes.alike_link old new unused settles fun _ _ => rfl
  rcases resolve_alike (c.resolves_link old new c.table) alike (.inr ⟨_, settles⟩) with
    ⟨faults, -, rejected, -⟩ | ⟨found, table', accepted, accepted', same⟩
  · cases resolved.symm.trans rejected
  · obtain rfl : c.table = found := Except.ok.inj (resolved.symm.trans accepted)
    exact ⟨table', accepted', fun i => same ⟨rfl, rfl⟩⟩

end

namespace History

def Arises.guard {h : History} (arises : h.Arises) (K : Link) : Guard K where
  holds := h.Visits
  begins := by
    rintro p q ⟨root, mem, reaches⟩ begins
    exact ⟨root, mem, reaches.next begins⟩
  found := by
    intro p r use visited reads distance resolved
    obtain ⟨S, v, -, -, fits, -⟩ := arises.consistent.fits visited
    obtain ⟨fresh, known, mirrors⟩ := reads.occurrence fits
    obtain ⟨recorded, ready⟩ := fits.1.recorded _ known
    have lexical : Frame.address? v.frames r.name.text = some distance := by
      rw [← resolved, recorded, ready.address?_eq reads.ne_assigned]
      rfl
    obtain ⟨address, frame, value, link, -, -, found⟩ := mirrors.bound_of_address? lexical
    rw [Store.getAt?, Environment.innermost_ancestor link, found]
    exact .inl rfl

variable {h : History} {source : String} {body body' : List Stmt} {s : Session}
  {table table' : Resolution}

theorem session_compile (accepted : h.session.compile source = (.ok body, s)) :
    (h.compile source).session = s := by
  simp [History.compile, accepted]

theorem mem_accepted (accepted : h.session.compile source = (.ok body, s)) :
    body ∈ (h.compile source).accepted := by
  simp [History.compile, accepted, Except.toOption]

theorem Arises.matches_register (arises : h.Arises)
    (oblivious : ∀ f ∈ h.session.machine.hosts, HostFunction.Oblivious f)
    (accepted : h.session.compile source = (.ok body, s)) (resolved : resolve body = .ok table)
    (same : ∀ i : Nat, table'[i]? = table[i]?) (σ : Renaming) :
    ∃ ρ, s.machine.Matches (σ.link s.machine.resolution fun _ => True) ρ []
      (Session.register h.session.machine table') := by
  have compiled := (arises.compile source).trails
  have kept := h.session.hosts_compile source
  rw [session_compile accepted] at compiled
  rw [accepted] at kept
  obtain ⟨ρ, matched⟩ := (compiled (kept ▸ oblivious)).1.machine
  obtain ⟨found, -, resolved', entered, -⟩ := Session.compile_eq_ok accepted
  obtain rfl : table = found := Except.ok.inj (resolved.symm.trans resolved')
  have machine : s.machine = Session.register h.session.machine table := by rw [entered]
  have below : (s.link 0 0).Below (σ.link s.machine.resolution fun _ => True) :=
    ⟨id, .inl, fun linked => ⟨linked.2.1.trans (Session.counterpart_of_le (Nat.zero_le _)),
      linked.2.2⟩, id⟩
  have entries (i : Nat) : (Session.register h.session.machine table').resolution[i]? =
      s.machine.resolution[i]? := by
    rw [machine, Session.getElem?_register, Session.getElem?_register, same]
  refine ⟨ρ, ?_⟩
  rw [machine] at matched below entries ⊢
  refine matched.record below fun {i j d} linked => ?_
  obtain ⟨rfl, rfl⟩ := linked
  exact ⟨rfl, entries j⟩

theorem Arises.agrees_changed (arises : h.Arises)
    (oblivious : ∀ f ∈ h.session.machine.hosts, HostFunction.Oblivious f)
    (accepted : h.session.compile source = (.ok body, s)) {c : Change}
    (resolved : resolve body = .ok c.table) (old : c.old ≠ "this" ∧ c.old ≠ "super")
    (new : c.new ≠ "this" ∧ c.new ≠ "super") (changes : Stmt.AllChanges c body body')
    (unused : c.new ∉ Stmt.wordsAll body) (same : ∀ i : Nat, table'[i]? = c.table[i]?)
    (depth : Nat) :
    ∃ ρ, Run.Agrees ((c.swap old new).link s.machine.resolution fun _ => True) ρ [] Run.Same
      (Run.program depth body s.machine)
      (Run.program depth body' (Session.register h.session.machine table')) := by
  obtain ⟨found, known, -⟩ := Session.compile_eq_ok accepted
  have settles := (settles_of_resolve known.fresh.distinct resolved).1
  obtain ⟨ρ, matched⟩ := arises.matches_register oblivious accepted resolved same
    (c.swap old new)
  have alike := changes.alike_link old new unused settles (arises.tidy.recorded accepted resolved)
  have executed := (arises.compile source).execute depth (mem_accepted accepted)
  have visited :
    ((h.compile source).execute depth body).Visits ⟨depth, .program body, s.machine⟩ := by
    rw [← session_compile accepted]
    exact visits_execute .refl
  have wider : ((c.swap old new).link s.machine.resolution (· ≠ c.new)).Below
      ((c.swap old new).link s.machine.resolution fun _ => True) :=
    ⟨id, id, id, fun _ => trivial⟩
  exact ⟨ρ, agrees_program (executed.guard _) visited matched (alike.mono wider)⟩

end History

/--
A local variable may have any name that the program does not use. With its declaration and the
references bound to it changed, a program is accepted as before, its references have the same
distances, and wherever it is run it writes the same and ends the same. Host functions are taken to
tell apart only what a program can tell apart.
-/
theorem History.Arises.local_renamed {h : History} (arises : h.Arises)
    (oblivious : ∀ f ∈ h.session.machine.hosts, HostFunction.Oblivious f) {source : String}
    {body body' : List Stmt} {s : Session} (accepted : h.session.compile source = (.ok body, s))
    {table : Resolution} (resolved : resolve body = .ok table) {old new : String}
    (changes : Stmt.AllChanges ⟨table, old, new⟩ body body') (unused : new ∉ Stmt.wordsAll body)
    (word : new ≠ "this" ∧ new ≠ "super") :
    ∃ table', resolve body' = .ok table' ∧ (∀ i : Nat, table'[i]? = table[i]?) ∧
      (∀ depth,
        let ran := Run.program depth body s.machine
        let ran' := Run.program depth body' (Session.register h.session.machine table')
        Outcome.of ran' = Outcome.of ran ∧ (Run.ending ran').output = (Run.ending ran).output) ∧
      ∀ source', (h.session.parse source').1 = .ok body' →
        (h.session.compile source').1 = .ok body' ∧ ∀ depth,
          (h.session.run depth source').1 = (h.session.run depth source).1 ∧
          (h.session.run depth source').2.machine.output =
            (h.session.run depth source).2.machine.output := by
  have formed := (Session.of_parse_eq_ok (Session.parse_of_compile accepted)).2.1
  have ordinary := changes.ordinary formed
  obtain ⟨found, known, -⟩ := Session.compile_eq_ok accepted
  obtain ⟨table', accepted', same⟩ :=
    changes.resolve ordinary word unused known.fresh.distinct resolved
  have runs (depth : Nat) :
      let ran := Run.program depth body s.machine
      let ran' := Run.program depth body' (Session.register h.session.machine table')
      Outcome.of ran' = Outcome.of ran ∧ (Run.ending ran').output = (Run.ending ran).output := by
    obtain ⟨ρ, agrees⟩ := arises.agrees_changed oblivious accepted resolved ordinary word changes
      unused same depth
    obtain ⟨ρ', -, machines⟩ := agrees.ending
    exact ⟨agrees.outcome fun same => same, machines.output⟩
  refine ⟨table', accepted', same, runs, fun source' read => ?_⟩
  have compiled := Session.compile_of_parse read accepted'
  refine ⟨congrArg Prod.fst compiled, fun depth => ?_⟩
  rw [Session.run_fst, Session.run_fst, Session.run_snd, Session.run_snd, accepted, compiled]
  exact runs depth

def twoBlocks.inside (word : String) : List Stmt :=
  [.varDecl ⟨word, 1⟩ none, .block [.varDecl ⟨"a", 1⟩ none, .expression (.var ⟨0, ⟨"a", 1⟩⟩)],
    .expression (.var ⟨1, ⟨word, 1⟩⟩)]

def twoBlocks (word : String) : List Stmt := [.block (twoBlocks.inside word)]

def isTwoBlocks (word : String) : Except (List Diagnostic) (List Stmt) → Bool
  | .ok [.block [.varDecl ⟨outer, 1⟩ none,
      .block [.varDecl ⟨inner, 1⟩ none, .expression (.var ⟨0, ⟨inner', 1⟩⟩)],
      .expression (.var ⟨1, ⟨outer', 1⟩⟩)]] =>
    decide (outer = word ∧ outer' = word ∧ inner = "a" ∧ inner' = "a")
  | _ => false

theorem eq_of_isTwoBlocks {word : String} {result : Except (List Diagnostic) (List Stmt)}
    (shape : isTwoBlocks word result = true) : result = .ok (twoBlocks word) := by
  unfold isTwoBlocks at shape
  split at shape
  · obtain ⟨rfl, rfl, rfl, rfl⟩ := of_decide_eq_true shape
    rfl
  · cases shape

theorem History.Arises.local_renamed_shadowed : ∃ (h : History) (table table' : Resolution),
    h.Arises ∧ h.session.machine.hosts = [] ∧ resolve (twoBlocks "a") = .ok table ∧
      Stmt.AllChanges ⟨table, "a", "b"⟩ (twoBlocks "a") (twoBlocks "b") ∧
      "b" ∉ Stmt.wordsAll (twoBlocks "a") ∧ resolve (twoBlocks "b") = .ok table' ∧
      table'[1]? = table[1]? ∧
      (h.session.run 9 "{var b;{var a;a;}b;}").1 = (h.session.run 9 "{var a;{var a;a;}a;}").1 := by
  let h : History := ⟨.start (.initial .unlimited ⟨[], true⟩ ⟨fun _ => "", fun _ => 0⟩)
    (.ofFiles [] ""), [], []⟩
  have arises : h.Arises := .start _ _ _ _
  have compiled : (h.session.compile "{var a;{var a;a;}a;}").1 = .ok (twoBlocks "a") :=
    eq_of_isTwoBlocks (by decide +kernel)
  have read : (h.session.parse "{var b;{var a;a;}b;}").1 = .ok (twoBlocks "b") :=
    eq_of_isTwoBlocks (by decide +kernel)
  obtain ⟨table, resolved, distances⟩ : ∃ table, resolve (twoBlocks "a") = .ok table ∧
      table[0]? = some 0 ∧ table[1]? = some 0 := ⟨_, rfl, rfl, rfl⟩
  have unused : "b" ∉ Stmt.wordsAll (twoBlocks "a") := by decide
  have changes : Stmt.AllChanges ⟨table, "a", "b"⟩ (twoBlocks "a") (twoBlocks "b") := by
    have block : Stmt.Changes ⟨table, "a", "b"⟩ (.block (twoBlocks.inside "a")) _ :=
      .declared List.mem_cons_self rfl
    have changed := @Stmt.AllChanges.statement _ _ _ [] [] block
    simpa [twoBlocks, twoBlocks.inside, Stmt.changedAll, Stmt.changed, Expr.changed,
      Change.declared, Change.name, Change.reference, distances] using changed
  have hosts : h.session.machine.hosts = [] := rfl
  obtain ⟨table', resolved', same, -, runs⟩ := arises.local_renamed
    (fun f mem => by cases hosts ▸ mem) (Prod.ext compiled rfl) resolved changes unused
    (by decide)
  exact ⟨h, table, table', arises, hosts, resolved, changes, unused, resolved', same 1,
    ((runs _ read).2 9).1⟩

end ScopeScript
