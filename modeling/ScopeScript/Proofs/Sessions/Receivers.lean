import ScopeScript.Proofs.Execution.Dispatch
import ScopeScript.Proofs.Sessions.Lifetime

set_option autoImplicit false

namespace ScopeScript

open Run

namespace History

variable {h : History}

def origins (h : History) : Origins where
  made c := ∃ p, h.Visits p ∧ Makes p c
  declared f := ∃ p, h.Visits p ∧ Declares p f

theorem Arises.formed (arises : h.Arises) : ∀ body ∈ h.accepted,
    Stmt.AllWellFormed body ∧ ∃ resolution, resolve body = .ok resolution := by
  induction arises with
  | start => nofun
  | parse _ _ ih | host _ _ _ _ ih | moved _ _ _ _ _ ih => exact ih
  | execute _ _ _ ih | evaluate _ _ _ _ ih => exact ih
  | @compile h source _ ih =>
    unfold History.compile
    cases step : h.session.compile source with
    | mk result s =>
      cases result with
      | error errors => simpa [Except.toOption] using ih
      | ok body =>
        obtain ⟨resolution, -, resolved, -⟩ := Session.compile_eq_ok step
        have formed := (Session.of_parse_eq_ok (Session.parse_of_compile step)).2.1
        intro program mem
        rcases List.mem_append.mp mem with before | last
        · exact ih program before
        · obtain rfl : program = body := by simpa [Except.toOption] using last
          exact ⟨formed, resolution, resolved⟩

theorem Arises.derived (arises : h.Arises) {o : Occurrence} (known : h.Knows o)
    (isSuper : o.use = .super) : Frame.Derived o.frames := by
  obtain ⟨body, mem, inside⟩ := known
  obtain ⟨formed, resolution, resolved⟩ := arises.formed body mem
  exact derived_of_resolve resolved formed o inside isSuper

theorem Arises.attested (arises : h.Arises) {p : Point} (visited : h.Visits p) :
    p.Attested h.origins := by
  obtain ⟨S, v, below, -, fits, -⟩ := arises.consistent.fits visited
  exact ⟨fun d makes => ⟨p, visited, makes⟩, fun f declares => ⟨p, visited, declares⟩,
    S, v, fits, fun o known => arises.derived (below.known o known)⟩

structure Founded (h : History) : Prop where
  machine : h.session.machine.Grounded h.origins
  roots : ∀ root ∈ h.roots,
    root.Grounded h.origins ∧ root.after.Steady h.session.machine.store

end History

open History

namespace Machine.Grounded

variable {O : Origins} {m : Machine}

theorem placed (h : m.Grounded O) (idle : m.environment = .root) : m.Placed O := by
  refine ⟨?_, fun dedicated => ?_⟩
  · rw [idle]
    exact .root h.rooted
  · rw [idle] at dedicated
    exact dedicated.1 rfl

theorem defineNative (h : m.Grounded O) (name : String) (arity : Nat) (body : NativeBody) :
    (m.defineNative name arity body).Grounded O ∧
      m.store.Steady (m.defineNative name arity body).store := by
  have writable : m.store.newIdentity.2.Writable Environment.root.innermost name := .inl rfl
  exact ⟨h.newIdentity.bindAt writable trivial,
    (m.store.steady_newIdentity).trans (Store.steady_bindAt writable _)⟩

theorem initial (O : Origins) (output : Sink) (input : Input) (clock : Clock) :
    (Machine.initial output input clock).Grounded O := by
  have fold (natives : List (String × Nat × NativeBody)) : ∀ m : Machine, m.Grounded O →
      Machine.Grounded O
        (natives.foldl (fun m native => m.defineNative native.1 native.2.1 native.2.2) m) := by
    induction natives with
    | nil => exact fun m grounded => grounded
    | cons native rest ih => exact fun m grounded => ih _ (grounded.defineNative _ _ _).1
  refine fold _ _ ⟨Nat.one_pos, fun address dedicated => ?_, fun address name value found => ?_,
    nofun⟩
  · simp [Store.Dedicated, Store.lookup_initial] at dedicated
  · cases (Store.lookup_initial address name).symm.trans found

end Machine.Grounded

namespace History

variable {h : History}

theorem Arises.witnessed (arises : h.Arises) {p : Point} (visited : h.Visits p) :
    p.Witnessed h.origins := by
  obtain ⟨root, mem, reaches⟩ := visited
  exact fun q later => arises.attested ⟨root, mem, reaches.trans later⟩

namespace Founded

theorem congr (founded : h.Founded) {h' : History} (roots : h'.roots = h.roots)
    (store : h'.session.machine.store = h.session.machine.store) : h'.Founded := by
  obtain ⟨s, accepted, _⟩ := h'
  subst roots
  exact ⟨founded.machine.congr store, fun root mem => by
    rw [store]
    exact founded.roots root mem⟩

theorem ran (founded : h.Founded) {h' : History} (root : Point) (arises' : h'.Arises)
    (roots : h'.roots = h.roots ++ [root]) (start : root.machine = h.session.machine)
    (grounded : root.Grounded h.origins)
    (store : h'.session.machine.store = root.after) : h'.Founded := by
  have visits {p : Point} : h.Visits p → h'.Visits p := fun ⟨root, mem, reaches⟩ =>
    ⟨root, roots ▸ List.mem_append_left _ mem, reaches⟩
  have below : h.origins.Below h'.origins :=
    ⟨fun _ ⟨p, visited, makes⟩ => ⟨p, visits visited, makes⟩,
      fun _ ⟨p, visited, declares⟩ => ⟨p, visits visited, declares⟩⟩
  have visited : h'.Visits root := ⟨root, roots ▸ List.mem_append_right _ List.mem_cons_self, .refl⟩
  obtain ⟨-, grounds, -⟩ :=
    Point.grounded_of_reaches (arises'.witnessed visited) (grounded.grow below) .refl
  refine ⟨grounds.machine store, fun root' mem => ?_⟩
  rw [store]
  rcases List.mem_append.mp (roots ▸ mem) with before | last
  · obtain ⟨grounded', steady⟩ := founded.roots root' before
    exact ⟨grounded'.grow below, steady.trans (start ▸ grounds.steady)⟩
  · obtain rfl := List.mem_singleton.mp last
    exact ⟨grounded.grow below, .refl _⟩

end Founded

theorem Arises.founded (arises : h.Arises) : h.Founded := by
  induction arises with
  | start output input clock library => exact ⟨.initial _ output input clock, nofun⟩
  | @parse h source _ ih =>
    refine ih.congr rfl ?_
    rw [(h.session.parse_snd source).1]
  | @compile h source _ ih =>
    have same := congrArg Machine.store (h.session.machine_compile source)
    exact ih.congr rfl same
  | @execute h body depth arises mem ih =>
    have placed := ih.machine.placed arises.consistent.idle
    refine ih.ran ⟨depth, .program body, h.session.machine⟩ (arises.execute depth mem) rfl rfl
      ⟨ih.machine, placed, (arises.formed body mem).1⟩ ?_
    rw [History.execute, ending_program]
    rfl
  | @evaluate h body e depth arises mem inside ih =>
    have placed := ih.machine.placed arises.consistent.idle
    have named : e.WellNamed := (arises.formed body mem).1.of_mem inside
    refine ih.ran ⟨depth, .evaluate e, h.session.machine⟩
      (arises.evaluate depth mem inside) rfl rfl ⟨ih.machine, placed, named⟩ ?_
    rw [History.evaluate, Session.evaluate_snd]
    rfl
  | @host h name arity f _ honest ih =>
    obtain ⟨machine, steady⟩ :=
      ih.machine.defineNative name arity (.host h.session.machine.hosts.length)
    refine ⟨machine.congr rfl, fun root mem => ?_⟩
    obtain ⟨grounded, before⟩ := ih.roots root mem
    exact ⟨grounded, before.trans steady⟩
  | moved library output input clock _ ih => exact ih.congr rfl rfl

theorem Arises.visited (arises : h.Arises) {p : Point} (visited : h.Visits p) :
    p.Grounded h.origins ∧ p.Grounds h.origins ∧ p.after.Steady h.session.machine.store := by
  obtain ⟨root, mem, reaches⟩ := visited
  obtain ⟨grounded, kept⟩ := arises.founded.roots root mem
  obtain ⟨p_grounded, grounds, steady⟩ :=
    Point.grounded_of_reaches (arises.witnessed ⟨root, mem, .refl⟩) grounded reaches
  exact ⟨p_grounded, grounds, steady.trans kept⟩

end History

-- The values that are around.

inductive Machine.Holds (m : Machine) (value : Value) : Prop
  | bound {address : Nat} {name : String} : m.store.lookup address name = some value → m.Holds value
  | kept {i : Instance} {name : String} : m.store.field? i name = some value → m.Holds value

inductive Task.Holds : Task → Value → Prop
  | callee {callee : Value} {line : Nat} {arguments : List Value} :
    Holds (.call callee line arguments) callee
  | argument {callee value : Value} {line : Nat} {arguments : List Value} :
    value ∈ arguments → Holds (.call callee line arguments) value
  | applied {f : Closure} {arguments : List Value} : Holds (.apply f arguments) (.function f)
  | passed {f : Closure} {value : Value} {arguments : List Value} :
    value ∈ arguments → Holds (.apply f arguments) value

def Point.Holds (p : Point) (value : Value) : Prop := p.machine.Holds value ∨ p.task.Holds value

section

variable {O : Origins} {m : Machine} {value : Value}

theorem Machine.Grounded.holds (h : m.Grounded O) (held : m.Holds value) :
    value.Grounded O m.store := by
  cases held with
  | bound found => exact h.scopes _ _ value found
  | kept found => exact h.fields _ _ value found

theorem Point.Grounded.holds {p : Point} (h : p.Grounded O) (held : p.Holds value) :
    value.Grounded O p.machine.store := by
  obtain ⟨n, task, m⟩ := p
  obtain ⟨machine, starts⟩ := h
  rcases held with held | held
  · exact machine.holds held
  · cases held with
    | callee | applied => exact starts.1
    | argument mem | passed mem => exact starts.2 _ mem

end

namespace History

variable {h : History} {n line : Nat} {f : Closure} {c : Class} {arguments : List Value}
  {m m₁ m₂ : Machine} {d : Class} {i : Instance} {value : Value}

/-- The function was declared as one, or it is a method of a class that was declared, bound to an
instance of the class or of one below. -/
inductive Stems (h : History) (s : Store) (f : Closure) : Prop
  | declared {p : Point} : h.Visits p → Declares p f → h.Stems s f
  | bound {p : Point} {d : Class} {i : Instance} : h.Visits p → Makes p d → f.Bound s d i →
      h.Stems s f

theorem stems {s : Store} (h_f : (Value.function f).Grounded h.origins s) : h.Stems s f := by
  obtain ⟨-, -, ⟨p, visited, declares⟩ | ⟨d, i, ⟨p, visited, makes⟩, bound⟩⟩ := h_f
  · exact .declared visited declares
  · exact .bound visited makes bound

theorem Arises.receiver_after_body (arises : h.Arises) {env : Environment}
    {completion : Completion} (visited : h.Visits ⟨n + 1, .apply f arguments, m⟩)
    (bound : f.Bound m.store d i) (ran : activation f arguments m = .ok env m₁)
    (ended : within env (executeAll n f.declaration.body) m₁ = .ok completion m₂) :
    m₂.store.getAt? f.environment 0 "this" = some (.instance i) := by
  obtain ⟨⟨grounded, f_grounded, kept⟩, -⟩ := arises.visited visited
  have activated := (grounds_activation grounded f_grounded kept).steady_of_ok ran
  have inside := (arises.visited (visited.next (.applied ran))).2.1.steady
  have same : (ending (within env (executeAll n f.declaration.body) m₁)).store =
      Point.after ⟨n, .executeAll f.declaration.body, { m₁ with environment := env }⟩ :=
    store_ending_within _ _ _
  rw [← same, ended] at inside
  have only := (activated.trans inside).only (bound.inner f_grounded.layered) (.inl rfl) bound.scope
  rw [Store.getAt?, Environment.ancestor]
  exact only.self

theorem Arises.apply_initializer (arises : h.Arises) (visited : h.Visits ⟨n, .apply f arguments, m⟩)
    (bound : f.Bound m.store d i) (named : f.name = "init") {m' : Machine}
    (ran : apply n f arguments m = .ok value m') : value = .instance i := by
  cases n with
  | zero => cases ran
  | succ n =>
    obtain ⟨env, m₁, activated, ran⟩ := bind_ok ran
    obtain ⟨completion, m₂, ended, ran⟩ := bind_ok ran
    have receiver := arises.receiver_after_body visited bound activated ended
    have initializer : f.isInitializer = true := by
      rw [bound.initializer, FunctionDecl.isInitializer]
      simpa [Closure.name] using named
    have given : callResult f completion m₂ = .ok (.instance i) m₂ := by
      unfold callResult
      rw [if_pos initializer]
      change EStateM.Result.ok _ _ = _
      rw [receiver]
      rfl
    cases given.symm.trans ran
    rfl

theorem Arises.call_initializer (arises : h.Arises)
    (visited : h.Visits ⟨n, .call (.function f) line arguments, m⟩) (bound : f.Bound m.store d i)
    (named : f.name = "init") {m' : Machine}
    (ran : call n (.function f) line arguments m = .ok value m') : value = .instance i := by
  cases n with
  | zero => cases ran
  | succ n =>
    obtain ⟨_, m₁, agreed, rest⟩ := bind_ok ran
    obtain ⟨same, rfl⟩ := checkArity_eq_ok agreed
    exact arises.apply_initializer (visited.next (.function same)) bound named rest

theorem of_call_class {m' : Machine} (ran : call n (.class c) line arguments m = .ok value m') :
    value = .instance ⟨m.store.objects.size, c⟩ := by
  cases n with
  | zero => cases ran
  | succ n =>
    obtain ⟨_, m₁, agreed, rest⟩ := bind_ok ran
    obtain ⟨-, rfl⟩ := checkArity_eq_ok agreed
    obtain ⟨i, m₂, made, rest⟩ := bind_ok rest
    cases made
    split at rest
    · cases rest
      rfl
    · obtain ⟨f, m₃, -, rest⟩ := bind_ok rest
      obtain ⟨_, m₄, -, rest⟩ := bind_ok rest
      cases rest
      rfl

theorem Arises.bound_of_begins (arises : h.Arises) {n' : Nat} {arguments' : List Value}
    (visited : h.Visits ⟨n, .call (.class c) line arguments, m⟩)
    (begins : Begins ⟨n, .call (.class c) line arguments, m⟩ ⟨n', .apply f arguments', m₁⟩) :
    ∃ d, h.origins.made d ∧ f.Bound m₁.store d ⟨m.store.objects.size, c⟩ := by
  obtain ⟨⟨-, c_grounded, -⟩, -⟩ := arises.visited visited
  cases begins with
  | initializer same found made ran =>
    cases made
    exact bound_of_bind (Class.Grounded.mono c_grounded (m.store.steady_newInstance c)) .refl found
      ran

/--
Methods are always bound, and initializers always give their instance.

A function in a variable or a field, between runs or at any point of a run, or as an argument, a
callee or the value of an expression, was declared as a function, or it is a method bound to an
instance of its class or of one below. So the scope of an initializer has its instance when the body
ends, and a call of a class gives a new instance of it, to which the initializer was bound.
-/
structure MethodsBound (h : History) : Prop where
  idle : ∀ f, h.session.machine.Holds (.function f) → h.Stems h.session.machine.store f
  running : ∀ p f, h.Visits p → p.Holds (.function f) → h.Stems p.machine.store f
  given : ∀ n e m f m', h.Visits ⟨n, .evaluate e, m⟩ →
    Run.evaluate n e m = .ok (.function f) m' → h.Stems m'.store f
  received : ∀ n f arguments m env m₁ completion m₂, h.Visits ⟨n + 1, .apply f arguments, m⟩ →
    f.isInitializer = true → activation f arguments m = .ok env m₁ →
    within env (executeAll n f.declaration.body) m₁ = .ok completion m₂ →
    ∃ d i, f.Bound m.store d i ∧ m₂.store.getAt? f.environment 0 "this" = some (.instance i)
  initialized : ∀ n f arguments m d i value m', h.Visits ⟨n, .apply f arguments, m⟩ →
    f.Bound m.store d i → f.name = "init" → apply n f arguments m = .ok value m' →
    value = .instance i
  called : ∀ n f line arguments m d i value m',
    h.Visits ⟨n, .call (.function f) line arguments, m⟩ → f.Bound m.store d i → f.name = "init" →
    call n (.function f) line arguments m = .ok value m' → value = .instance i
  instantiated : ∀ n c line arguments m value m',
    h.Visits ⟨n, .call (.class c) line arguments, m⟩ →
    call n (.class c) line arguments m = .ok value m' →
    ∃ i, value = .instance i ∧ i.ofClass = c ∧ i.address = m.store.objects.size ∧
      (∀ other, Point.Holds ⟨n, .call (.class c) line arguments, m⟩ (.instance other) →
        other.address < i.address) ∧
      ∀ n' f arguments' m₁, Begins ⟨n, .call (.class c) line arguments, m⟩
        ⟨n', .apply f arguments', m₁⟩ → ∃ d, f.Bound m₁.store d i

theorem Arises.methodsBound (arises : h.Arises) : h.MethodsBound where
  idle f held := stems (arises.founded.machine.holds held)
  running p f visited held := stems ((arises.visited visited).1.holds held)
  given n e m f m' visited ran := stems ((arises.visited visited).2.1.result _ _ ran)
  received n f arguments m env m₁ completion m₂ visited initializer ran ended := by
    obtain ⟨⟨-, f_grounded, -⟩, -⟩ := arises.visited visited
    obtain ⟨_, _, declares⟩ | ⟨d, i, -, bound⟩ := f_grounded.origin
    · cases declares
      cases initializer
    · exact ⟨d, i, bound, arises.receiver_after_body visited bound ran ended⟩
  initialized n f arguments m d i value m' visited bound named ran :=
    arises.apply_initializer visited bound named ran
  called n f line arguments m d i value m' visited bound named ran :=
    arises.call_initializer visited bound named ran
  instantiated n c line arguments m value m' visited ran := by
    refine ⟨_, of_call_class ran, rfl, rfl, fun other held => ?_,
      fun n' f arguments' m₁ begins => ?_⟩
    · exact ((arises.visited visited).1.holds held).2
    · obtain ⟨d, -, bound⟩ := arises.bound_of_begins visited begins
      exact ⟨d, bound⟩

def isInitialized (h : History) : Bool :=
  match h.accepted with
  | [[s, .expression (.call callee line [])]] =>
    match Run.execute 9 s h.session.machine with
    | .ok _ m =>
      match Run.evaluate 7 callee m with
      | .ok (.class c) m₁ =>
        (c.method? "init").isSome && c.arity == 0 &&
          match call 7 (.class c) line [] m₁ with
          | .ok _ _ => true
          | .error _ _ => false
      | _ => false
    | .error _ _ => false
  | _ => false

theorem accepted_only_initialized : ∃ s callee line c completion m m₁ value m₂,
    [s, .expression (.call callee line [])] ∈ (only "class A{init(){return;}}A();").accepted ∧
    Run.execute 9 s (only "class A{init(){return;}}A();").session.machine = .ok completion m ∧
    Run.evaluate 7 callee m = .ok (.class c) m₁ ∧ (c.method? "init").isSome ∧ c.arity = 0 ∧
    call 7 (.class c) line [] m₁ = .ok value m₂ := by
  have shape : isInitialized (only "class A{init(){return;}}A();") = true := by decide +kernel
  unfold isInitialized at shape
  split at shape
  case h_2 => cases shape
  next s callee line accepted =>
  split at shape
  case h_2 => cases shape
  next executed =>
  split at shape
  case h_2 => cases shape
  next evaluated =>
  split at shape
  case h_2 => simp at shape
  next called =>
  obtain ⟨has, same⟩ : (Class.method? _ "init").isSome ∧ _ = 0 := by simpa using shape
  exact ⟨s, callee, line, _, _, _, _, _, _, accepted ▸ List.mem_cons_self, executed, evaluated, has,
    same, called⟩

theorem Arises.methodsBound_class : ∃ (h : History) (c : Class) (line : Nat) (i : Instance)
    (m m' : Machine), h.Arises ∧ h.Visits ⟨7, .call (.class c) line [], m⟩ ∧
    call 7 (.class c) line [] m = .ok (.instance i) m' ∧ i.ofClass = c ∧
    ∃ f m₁ d, h.Visits ⟨6, .apply f [], m₁⟩ ∧ f.Bound m₁.store d i := by
  obtain ⟨s, callee, line, c, completion, m, m₁, value, m₂, accepted, executed, evaluated, has,
    same, called⟩ := accepted_only_initialized
  have arises := (arises_only "class A{init(){return;}}A();").execute 9 accepted
  have start : Reaches ⟨9, .program [s, .expression (.call callee line [])],
      (only "class A{init(){return;}}A();").session.machine⟩ _ := .refl
  have second := (start.next (.programTail executed)).next .programHead
  have visited := visits_execute ((second.next .expression).next (.called evaluated rfl))
  obtain ⟨i, rfl, ofClass, -, -, initial⟩ :=
    arises.methodsBound.instantiated _ _ _ _ _ _ _ visited called
  obtain ⟨init, found⟩ := Option.isSome_iff_exists.mp has
  have begins : Begins ⟨7, .call (.class c) line [], m₁⟩ ⟨6, .apply _ [], _⟩ :=
    .initializer same found rfl (bind_eq init _ _)
  obtain ⟨d, bound⟩ := initial _ _ _ _ begins
  exact ⟨_, c, line, i, m₁, m₂, arises, visited, called, ofClass, _, _, d, visited.next begins,
    bound⟩

end History

end ScopeScript
