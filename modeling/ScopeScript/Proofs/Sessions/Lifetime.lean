import ScopeScript.Proofs.Execution.Soundness
import ScopeScript.Proofs.Sessions.Compilation

set_option autoImplicit false

/-!
The histories of sessions, and what holds throughout each of them.

A history keeps the programs that were accepted and the points at which runs of them began. It is
against all of this that the machine of the session is sound at every moment.
-/

namespace ScopeScript

structure History where
  session : Session
  accepted : List (List Stmt)
  roots : List Point

namespace History

def Visits (h : History) (p : Point) : Prop := ∃ root ∈ h.roots, Reaches root p

def Knows (h : History) (o : Occurrence) : Prop :=
  ∃ body ∈ h.accepted, o ∈ Stmt.occurrencesAll [] body

def Activates (h : History) (address : Nat) (site : Site) : Prop :=
  ∃ p, h.Visits p ∧ Opens p address site

def setting (h : History) : Setting := ⟨h.Activates, h.Knows⟩

def compile (h : History) (source : String) : History where
  session := (h.session.compile source).2
  accepted := h.accepted ++ (h.session.compile source).1.toOption.toList
  roots := h.roots

def execute (h : History) (depth : Nat) (body : List Stmt) : History where
  session := { h.session with
    machine := Run.ending (Run.program depth body h.session.machine) }
  accepted := h.accepted
  roots := h.roots ++ [⟨depth, .program body, h.session.machine⟩]

def evaluate (h : History) (depth : Nat) (e : Expr) : History where
  session := (h.session.evaluate depth e).2
  accepted := h.accepted
  roots := h.roots ++ [⟨depth, .evaluate e, h.session.machine⟩]

def moved (h : History) (library : Library) (output : Sink) (input : Input) (clock : Clock) :
    History :=
  { h with session := { h.session with
    library := library
    machine := { h.session.machine with output := output, input := input, clock := clock } } }

/--
The histories that there are. Any accepted program may be run at any time and any number of times,
and so may the expressions that are statements of it.
-/
inductive Arises : History → Prop
  | start (output : Sink) (input : Input) (clock : Clock) (library : Library) :
      Arises ⟨.start (.initial output input clock) library, [], []⟩
  | parse {h : History} (source : String) : Arises h →
      Arises { h with session := (h.session.parse source).2 }
  | compile {h : History} (source : String) : Arises h → Arises (h.compile source)
  | execute {h : History} {body : List Stmt} (depth : Nat) : Arises h → body ∈ h.accepted →
      Arises (h.execute depth body)
  | evaluate {h : History} {body : List Stmt} {e : Expr} (depth : Nat) : Arises h →
      body ∈ h.accepted → .expression e ∈ body → Arises (h.evaluate depth e)
  | host {h : History} (name : String) (arity : Nat) {f : HostFunction} : Arises h → f.Honest →
      Arises { h with session := h.session.defineHost name arity f }
  | moved {h : History} (library : Library) (output : Sink) (input : Input) (clock : Clock) :
      Arises h → Arises (h.moved library output input clock)

def only (source : String) : History :=
  History.compile ⟨.start (.initial .unlimited ⟨[], true⟩ ⟨fun _ => "", fun _ => 0⟩)
    (.ofFiles [] ""), [], []⟩ source

theorem arises_only (source : String) : (only source).Arises :=
  .compile source (.start _ _ _ _)

theorem visits_execute {h : History} {depth : Nat} {body : List Stmt} {p : Point}
    (reaches : Reaches ⟨depth, .program body, h.session.machine⟩ p) :
    (h.execute depth body).Visits p :=
  ⟨_, List.mem_append_right _ List.mem_cons_self, reaches⟩

theorem Visits.next {h : History} {p q : Point} (visited : h.Visits p) (begins : Begins p q) :
    h.Visits q := by
  obtain ⟨root, mem, reaches⟩ := visited
  exact ⟨root, mem, reaches.next begins⟩

theorem Arises.run {h : History} (arises : Arises h) (depth : Nat) (source : String) :
    ∃ h', Arises h' ∧ h'.session = (h.session.run depth source).2 := by
  have compiled := arises.compile source
  unfold Session.run
  cases step : h.session.compile source with
  | mk result s =>
    cases result with
    | error errors => exact ⟨_, compiled, by simp [History.compile, step]⟩
    | ok body =>
      have accepted : body ∈ (h.compile source).accepted := by
        simp [History.compile, step, Except.toOption]
      refine ⟨_, compiled.execute depth accepted, ?_⟩
      simp only [History.execute, History.compile, step]
      cases Run.program depth body s.machine with
      | ok _ m => rfl
      | error halt m => cases halt <;> rfl

end History

-- More is known as time goes on.

structure Setting.Below (S S' : Setting) : Prop where
  activated : ∀ address site, S.activated address site → S'.activated address site
  known : ∀ o, S.known o → S'.known o

section

variable {S S' : Setting} {s : Store} {m : Machine}

theorem Setting.Below.refl (S : Setting) : S.Below S := ⟨fun _ _ => id, fun _ => id⟩

theorem Setting.Below.trans {S'' : Setting} (first : S.Below S') (second : S'.Below S'') :
    S.Below S'' :=
  ⟨fun a site h => second.activated a site (first.activated a site h),
    fun o h => second.known o (first.known o h)⟩

theorem Setting.Knows.grow {os : List Occurrence} (h : S.Knows os) (below : S.Below S') :
    S'.Knows os :=
  fun o mem => below.known o (h o mem)

theorem Mirrors.grow {chain : List Nat} {frames : List Frame} (h : Mirrors S s chain frames)
    (below : S.Below S') : Mirrors S' s chain frames := by
  induction h with
  | root => exact .root
  | inner activated inside bound _ ih =>
    exact .inner (below.activated _ _ activated) inside bound ih

theorem Class.Sound.grow {c : Class} (h : c.Sound S s) (below : S.Below S') : c.Sound S' s := by
  intro layer mem name method found
  obtain ⟨enclosed, frames, mirrors, knows⟩ := h layer mem name method found
  exact ⟨enclosed, frames, mirrors.grow below, knows.grow below⟩

theorem Value.Sound.grow {value : Value} (h : value.Sound S s) (below : S.Below S') :
    value.Sound S' s := by
  cases value with
  | function f =>
    obtain ⟨enclosed, frames, mirrors, knows⟩ := h
    exact ⟨enclosed, frames, mirrors.grow below, knows.grow below⟩
  | «class» c => exact Class.Sound.grow h below
  | «instance» i => exact Class.Sound.grow h below
  | nil | bool _ | number _ | string _ | native _ => trivial

theorem Machine.Sound.grow (h : m.Sound S) (below : S.Below S')
    (recorded : ∀ o, S'.known o → m.resolution[o.reference.id]? = o.address? ∧ o.Ready) :
    m.Sound S' :=
  ⟨recorded, fun a name value found => (h.scopes a name value found).grow below,
    fun i name value found => (h.fields i name value found).grow below, h.hosts⟩

end

theorem Session.evaluate_snd (s : Session) (depth : Nat) (e : Expr) :
    (s.evaluate depth e).2 = { s with
      machine := Run.ending (Run.evaluate depth e s.machine) } := by
  unfold Session.evaluate
  cases Run.evaluate depth e s.machine <;> rfl

namespace History

structure Consistent (h : History) : Prop where
  machine : h.session.machine.Sound h.setting
  idle : h.session.machine.environment = .root
  enclosed : ∀ body ∈ h.accepted, Stmt.AllEnclosed false false body
  numbered : ∀ o, h.Knows o → o.reference.id < h.session.nextId
  entered : ∀ i distance, h.session.machine.resolution[i]? = some distance → i < h.session.nextId
  visited : ∀ root ∈ h.roots, ∃ S, S.Below h.setting ∧ root.Covered S ∧ root.Fits S .topLevel

theorem mem_occurrencesAll {body : List Stmt} {e : Expr} {o : Occurrence}
    (inside : .expression e ∈ body) (found : o ∈ e.occurrences [] none) :
    o ∈ Stmt.occurrencesAll [] body := by
  induction body with
  | nil => cases inside
  | cons s rest ih =>
    cases inside with
    | head => exact List.mem_append_left _ found
    | tail _ inside => exact List.mem_append_right _ (ih inside)

namespace Consistent

variable {h : History}

theorem fits (consistent : h.Consistent) {p : Point} (visited : h.Visits p) :
    ∃ S v, S.Below h.setting ∧ p.Covered S ∧ p.Fits S v ∧ (v.inLoop = true →
      ∃ loop body, h.Visits loop ∧ loop.task.IsIterate ∧ Begins loop body ∧ Encloses body p) := by
  obtain ⟨root, mem, reaches⟩ := visited
  obtain ⟨S, below, covered, fits⟩ := consistent.visited root mem
  obtain ⟨v, fits, around⟩ := Point.fits_of_reaches covered fits reaches
  refine ⟨S, v, below, fun q later => covered q (reaches.trans later), fits, fun inLoop => ?_⟩
  obtain ⟨loop, body, reached, iterate, begins, encloses⟩ := around inLoop
  exact ⟨loop, body, ⟨root, mem, reached⟩, iterate, begins, encloses⟩

theorem congr (consistent : h.Consistent) {s : Session} (sound : s.machine.Sound h.setting)
    (environment : s.machine.environment = h.session.machine.environment)
    (resolution : s.machine.resolution = h.session.machine.resolution)
    (later : h.session.nextId ≤ s.nextId) : Consistent { h with session := s } where
  machine := sound
  idle := environment.trans consistent.idle
  enclosed := consistent.enclosed
  numbered := fun o knows => Nat.lt_of_lt_of_le (consistent.numbered o knows) later
  entered := fun i distance found =>
    Nat.lt_of_lt_of_le (consistent.entered i distance (resolution ▸ found)) later
  visited := consistent.visited

theorem defineNative {S : Setting} {m : Machine} (sound : m.Sound S) (name : String) (arity : Nat)
    (body : NativeBody) : (m.defineNative name arity body).Sound S :=
  sound.newIdentity.define .root trivial

theorem start (output : Sink) (input : Input) (clock : Clock) (library : Library) :
    Consistent ⟨.start (.initial output input clock) library, [], []⟩ := by
  have fold (S : Setting) (natives : List (String × Nat × NativeBody)) : ∀ m : Machine,
      m.Sound S → m.environment = .root → m.resolution = ∅ →
      let m' := natives.foldl (fun m native => m.defineNative native.1 native.2.1 native.2.2) m
      m'.Sound S ∧ m'.environment = .root ∧ m'.resolution = ∅ := by
    induction natives with
    | nil => exact fun m sound root none => ⟨sound, root, none⟩
    | cons native rest ih =>
      exact fun m sound root none => ih _ (defineNative sound _ _ _) root none
  have empty (S : Setting) (unknown : ∀ o, ¬ S.known o) : Machine.Sound S
      ⟨.initial, .root, ∅, output, input, clock, 0, []⟩ := by
    refine ⟨fun o known => absurd known (unknown o), fun address name value found => ?_,
      fun i name value found => ?_, nofun⟩
    · cases (Store.lookup_initial address name).symm.trans found
    · cases found
  obtain ⟨sound, root, none⟩ := fold (History.setting ⟨.start (.initial output input clock) library,
    [], []⟩) Machine.natives _ (empty _ (by rintro o ⟨body, ⟨⟩, -⟩)) rfl rfl
  refine ⟨sound, root, nofun, by rintro o ⟨body, ⟨⟩, -⟩, fun i distance found => ?_, nofun⟩
  have found' : (∅ : Resolution)[i]? = some distance := none ▸ found
  simp at found'

theorem accept (consistent : h.Consistent) {next : Nat} {body : List Stmt}
    {resolution : Resolution} (later : h.session.nextId ≤ next)
    (accepted : Session.Accepted h.session.nextId next body resolution) :
    Consistent { h with
      session := { h.session with
        machine := Session.register h.session.machine resolution, nextId := next }
      accepted := h.accepted ++ [body] } := by
  have known {o : Occurrence}
      (knows : History.Knows { h with accepted := h.accepted ++ [body] } o) :
      h.Knows o ∨ o ∈ Stmt.occurrencesAll [] body := by
    obtain ⟨program, mem, inside⟩ := knows
    rcases List.mem_append.mp mem with before | last
    · exact .inl ⟨program, before, inside⟩
    · exact .inr (List.mem_singleton.mp last ▸ inside)
  have below : h.setting.Below (History.setting { h with accepted := h.accepted ++ [body] }) :=
    ⟨fun _ _ => id, fun o ⟨program, mem, inside⟩ =>
      ⟨program, List.mem_append_left _ mem, inside⟩⟩
  have recorded (o : Occurrence)
      (knows : History.Knows { h with accepted := h.accepted ++ [body] } o) :
      (Session.register h.session.machine resolution).resolution[o.reference.id]? = o.address? ∧
        o.Ready := by
    rw [Session.getElem?_register]
    rcases known knows with before | inside
    · have absent : resolution[o.reference.id]? = none := by
        refine accepted.others _ fun mem => ?_
        have bounds := accepted.fresh.inside _ mem
        have bound := consistent.numbered o before
        omega
      simpa [absent] using consistent.machine.recorded o before
    · obtain ⟨mem, entry, ready⟩ := accepted.own o inside
      have absent : h.session.machine.resolution[o.reference.id]? = none := by
        cases old : h.session.machine.resolution[o.reference.id]? with
        | none => rfl
        | some distance =>
          have bounds := accepted.fresh.inside _ mem
          have bound := consistent.entered _ distance old
          omega
      simp [absent, entry, ready]
  refine ⟨⟨recorded, ?_, ?_, consistent.machine.hosts⟩, consistent.idle, ?_, ?_, ?_, ?_⟩
  · exact fun address name value found =>
      (consistent.machine.scopes address name value found).grow below
  · exact fun i name value found => (consistent.machine.fields i name value found).grow below
  · intro program mem
    rcases List.mem_append.mp mem with before | last
    · exact consistent.enclosed program before
    · exact List.mem_singleton.mp last ▸ accepted.enclosed
  · intro o knows
    rcases known knows with before | inside
    · exact Nat.lt_of_lt_of_le (consistent.numbered o before) later
    · exact (accepted.fresh.inside _ (accepted.own o inside).1).2
  · intro i distance entry
    by_cases inside : i ∈ Stmt.idsAll body
    · exact (accepted.fresh.inside i inside).2
    · rw [Session.getElem?_register, accepted.others i inside] at entry
      exact Nat.lt_of_lt_of_le (consistent.entered i distance entry) later
  · intro root mem
    obtain ⟨S, before, covered, fits⟩ := consistent.visited root mem
    exact ⟨S, before.trans below, covered, fits⟩

theorem compile (consistent : h.Consistent) (source : String) : (h.compile source).Consistent := by
  unfold History.compile
  cases step : h.session.compile source with
  | mk result s =>
    cases result with
    | error errors =>
      obtain ⟨same, later⟩ := Session.compile_eq_error step
      have unchanged := consistent.congr (s := { h.session with nextId := s.nextId })
        consistent.machine rfl rfl later
      rw [same]
      simpa [Except.toOption] using unchanged
    | ok body =>
      obtain ⟨resolution, accepted, -, same, later⟩ := Session.compile_eq_ok step
      have extended := consistent.accept later accepted
      rw [same]
      simpa [Except.toOption] using extended

section

variable {root : Point}

theorem below_ran : h.setting.Below (History.setting { h with roots := h.roots ++ [root] }) :=
  ⟨fun _ _ ⟨p, ⟨root, mem, reaches⟩, opens⟩ =>
    ⟨p, ⟨root, List.mem_append_left _ mem, reaches⟩, opens⟩, fun _ => id⟩

theorem covered_ran : root.Covered (History.setting { h with roots := h.roots ++ [root] }) :=
  fun q reaches _ _ opens => ⟨q, ⟨root, List.mem_append_right _ List.mem_cons_self, reaches⟩, opens⟩

theorem sound_ran (consistent : h.Consistent) :
    h.session.machine.Sound (History.setting { h with roots := h.roots ++ [root] }) :=
  consistent.machine.grow below_ran consistent.machine.recorded

theorem ran (consistent : h.Consistent) {m : Machine}
    (fits : root.Fits (History.setting { h with roots := h.roots ++ [root] }) .topLevel)
    (sound : m.Sound (History.setting { h with roots := h.roots ++ [root] }))
    (idle : m.environment = .root) (resolution : m.resolution = h.session.machine.resolution) :
    Consistent { h with
      session := { h.session with machine := m }
      roots := h.roots ++ [root] } := by
  refine ⟨sound, idle, consistent.enclosed, consistent.numbered, ?_, ?_⟩
  · intro i distance entry
    exact consistent.entered i distance (resolution ▸ entry)
  · intro root' mem
    rcases List.mem_append.mp mem with before | last
    · obtain ⟨S, below, covered, fits⟩ := consistent.visited root' before
      exact ⟨S, below.trans below_ran, covered, fits⟩
    · rw [List.mem_singleton.mp last]
      exact ⟨_, .refl _, covered_ran, fits⟩

end

theorem execute (consistent : h.Consistent) (depth : Nat) {body : List Stmt}
    (mem : body ∈ h.accepted) : (h.execute depth body).Consistent := by
  have mirrors : Mirrors (History.setting { h with
      roots := h.roots ++ [⟨depth, .program body, h.session.machine⟩] })
      h.session.machine.store h.session.machine.environment.chain [] := by
    rw [consistent.idle]
    exact .root
  have fits : Point.Fits (History.setting { h with
      roots := h.roots ++ [⟨depth, .program body, h.session.machine⟩] }) .topLevel
      ⟨depth, .program body, h.session.machine⟩ :=
    ⟨consistent.sound_ran, rfl, mirrors, fun o inside => ⟨body, mem, inside⟩,
      consistent.enclosed body mem⟩
  have sound := ((Point.stable_of_covered _ covered_ran).finishes fits).1
  have kept := Run.keeps_executeProgram depth body h.session.machine
  have ended := Run.ending_program depth body h.session.machine
  refine consistent.ran fits ?_ ?_ ?_
  · rw [ended]
    exact sound.environment .root
  · rw [ended]
  · rw [ended]
    exact kept.resolution

theorem evaluate (consistent : h.Consistent) (depth : Nat) {body : List Stmt} {e : Expr}
    (mem : body ∈ h.accepted) (inside : .expression e ∈ body) :
    (h.evaluate depth e).Consistent := by
  have mirrors : Mirrors (History.setting { h with
      roots := h.roots ++ [⟨depth, .evaluate e, h.session.machine⟩] })
      h.session.machine.store h.session.machine.environment.chain [] := by
    rw [consistent.idle]
    exact .root
  have fits : Point.Fits (History.setting { h with
      roots := h.roots ++ [⟨depth, .evaluate e, h.session.machine⟩] }) .topLevel
      ⟨depth, .evaluate e, h.session.machine⟩ :=
    ⟨consistent.sound_ran, mirrors, fun o found => ⟨body, mem, mem_occurrencesAll inside found⟩⟩
  have sound := ((Point.stable_of_covered _ covered_ran).finishes fits).1
  have kept := Run.keeps_evaluate depth e h.session.machine
  unfold History.evaluate
  rw [Session.evaluate_snd]
  exact consistent.ran fits sound (kept.environment.trans consistent.idle) kept.resolution

theorem host (consistent : h.Consistent) (name : String) (arity : Nat) {f : HostFunction}
    (honest : f.Honest) :
    Consistent { h with session := h.session.defineHost name arity f } := by
  have sound := defineNative consistent.machine name arity (.host h.session.machine.hosts.length)
  refine consistent.congr ⟨sound.recorded, sound.scopes, sound.fields, fun g mem => ?_⟩ rfl rfl
    (Nat.le_refl _)
  rcases List.mem_append.mp mem with before | last
  · exact consistent.machine.hosts g before
  · exact List.mem_singleton.mp last ▸ honest

end Consistent

theorem Arises.consistent {h : History} (arises : Arises h) : h.Consistent := by
  induction arises with
  | start output input clock library => exact .start output input clock library
  | @parse h source _ ih =>
    obtain ⟨same, later⟩ := h.session.parse_snd source
    rw [same]
    exact ih.congr (s := { h.session with nextId := _ }) ih.machine rfl rfl later
  | compile source _ ih => exact ih.compile source
  | execute depth _ mem ih => exact ih.execute depth mem
  | evaluate depth _ mem inside ih => exact ih.evaluate depth mem inside
  | host name arity _ honest ih => exact ih.host name arity honest
  | moved library output input clock _ ih =>
    exact ih.congr (ih.machine.congr rfl rfl rfl) rfl rfl (Nat.le_refl _)

end History

end ScopeScript
