import ScopeScript.Proofs.Execution.ClassDeclaration
import ScopeScript.Proofs.Execution.Effects
import ScopeScript.Proofs.Execution.Grounded

set_option autoImplicit false

namespace ScopeScript

structure Machine.Placed (O : Origins) (m : Machine) : Prop where
  layered : Layered O m.store m.environment.chain
  free : ¬ m.store.Dedicated m.environment.innermost

theorem Layered.innermost_lt {O : Origins} {s : Store} {env : Environment}
    (h : Layered O s env.chain) : env.innermost < s.scopes.size := by
  obtain ⟨innermost, links⟩ := env
  cases h with
  | root rooted => exact rooted
  | inner inside => exact inside

namespace Machine.Placed

variable {O : Origins} {m m' : Machine}

theorem inside (h : m.Placed O) : m.environment.innermost < m.store.scopes.size :=
  h.layered.innermost_lt

theorem steady (h : m.Placed O) (kept : m.Kept m') (steady : m.store.Steady m'.store) :
    m'.Placed O := by
  refine ⟨kept.environment ▸ h.layered.mono steady, fun dedicated => h.free ?_⟩
  rw [kept.environment] at dedicated
  exact steady.back _ h.inside dedicated

theorem grow (h : m.Placed O) {O' : Origins} (below : O.Below O') : m.Placed O' :=
  ⟨h.layered.grow below, h.free⟩

theorem writable (h : m.Placed O) {name : String} (ordinary : name ≠ "this" ∧ name ≠ "super") :
    m.store.Writable m.environment.innermost name :=
  .inr ⟨h.free, ordinary⟩

end Machine.Placed

namespace Run

variable {α β : Type} {O : Origins} {m : Machine}

structure Grounds (O : Origins) (p : Run α) (m : Machine) (Q : α → Machine → Prop) : Prop where
  machine : (ending (p m)).Grounded O
  steady : m.store.Steady (ending (p m)).store
  halts : ∀ halt m', p m = .error halt m' → halt.Proper
  result : ∀ a m', p m = .ok a m' → Q a m'

namespace Grounds

variable {p : Run α} {f : α → Run β} {Q : α → Machine → Prop} {R : β → Machine → Prop}

theorem grounded (h : Grounds O p m Q) {a : α} {m' : Machine} (ran : p m = .ok a m') :
    m'.Grounded O := by
  simpa [ran, ending] using h.machine

theorem steady_of_ok (h : Grounds O p m Q) {a : α} {m' : Machine} (ran : p m = .ok a m') :
    m.store.Steady m'.store := by
  simpa [ran, ending] using h.steady

theorem of_ok {a : α} {m' : Machine} (ran : p m = .ok a m') (grounded : m'.Grounded O)
    (steady : m.store.Steady m'.store) (h : Q a m') : Grounds O p m Q := by
  refine ⟨by simpa [ran, ending] using grounded, by simpa [ran, ending] using steady,
    fun _ _ failed => ?_, fun a' m'' ran' => ?_⟩
  · cases ran.symm.trans failed
  · obtain ⟨rfl, rfl⟩ := EStateM.Result.ok.inj (ran.symm.trans ran')
    exact h

theorem of_error {halt : Halt} {m' : Machine} (failed : p m = .error halt m')
    (grounded : m'.Grounded O) (steady : m.store.Steady m'.store) (proper : halt.Proper) :
    Grounds O p m Q := by
  refine ⟨by simpa [failed, ending] using grounded, by simpa [failed, ending] using steady,
    fun _ _ failed' => ?_, fun _ _ ran => ?_⟩
  · obtain ⟨rfl, rfl⟩ := EStateM.Result.error.inj (failed.symm.trans failed')
    exact proper
  · cases failed.symm.trans ran

theorem pure {a : α} (grounded : m.Grounded O) (h : Q a m) : Grounds O (Pure.pure a) m Q :=
  of_ok rfl grounded (.refl _) h

theorem throw {halt : Halt} (grounded : m.Grounded O) (proper : halt.Proper) :
    Grounds O (throw halt) m Q :=
  of_error rfl grounded (.refl _) proper

theorem stop {line : Nat} {fault : RuntimeFault} (grounded : m.Grounded O)
    (proper : Halt.Proper (.fault (.runtime line fault))) : Grounds O (Run.stop line fault) m Q :=
  throw grounded proper

theorem weaken (h : Grounds O p m Q) {R : α → Machine → Prop}
    (weaker : ∀ a m', Q a m' → R a m') : Grounds O p m R :=
  ⟨h.machine, h.steady, h.halts, fun a m' ran => weaker a m' (h.result a m' ran)⟩

theorem through (first : Grounds O p m Q)
    (second : ∀ a m', p m = .ok a m' → m'.Grounded O → m.store.Steady m'.store → Q a m' →
      Grounds O (f a) m' R) :
    Grounds O (p >>= f) m R ∧ (ending (p m)).store.Steady (ending ((p >>= f) m)).store := by
  cases ran : p m with
  | ok a m₁ =>
    have rest :=
      second a m₁ ran (first.grounded ran) (first.steady_of_ok ran) (first.result a m₁ ran)
    have same : (p >>= f) m = f a m₁ := bind_of_ok ran
    refine ⟨⟨same ▸ rest.machine, ?_, same ▸ rest.halts, same ▸ rest.result⟩, ?_⟩
    · rw [same]
      exact (first.steady_of_ok ran).trans rest.steady
    · rw [same]
      exact rest.steady
  | error halt m₁ =>
    have same : (p >>= f) m = .error halt m₁ := bind_of_error ran
    have grounded : m₁.Grounded O := by simpa [ran, ending] using first.machine
    have steady : m.store.Steady m₁.store := by simpa [ran, ending] using first.steady
    refine ⟨of_error same grounded steady (first.halts halt m₁ ran), ?_⟩
    rw [same]
    exact .refl _

theorem bind (first : Grounds O p m Q)
    (second : ∀ a m', p m = .ok a m' → m'.Grounded O → m.store.Steady m'.store → Q a m' →
      Grounds O (f a) m' R) : Grounds O (p >>= f) m R :=
  (first.through second).1

theorem congr {q : Run α} (same : p m = q m) (h : Grounds O q m Q) : Grounds O p m Q :=
  ⟨same ▸ h.machine, same ▸ h.steady, same ▸ h.halts, same ▸ h.result⟩

theorem get_bind {f : Machine → Run β} (h : Grounds O (f m) m R) :
    Grounds O (MonadState.get >>= f) m R :=
  .congr (q := f m) rfl h

theorem within {env : Environment} {R : α → Machine → Prop}
    (h : Grounds O p { m with environment := env } Q)
    (after : ∀ a m', Q a m' → R a { m' with environment := m.environment }) :
    Grounds O (Run.within env p) m R := by
  cases ran : p { m with environment := env } with
  | ok a m₁ =>
    have same : Run.within env p m = .ok a { m₁ with environment := m.environment } := by
      simp only [Run.within, ran]
    have steady : m.store.Steady m₁.store := h.steady_of_ok ran
    exact of_ok same ((h.grounded ran).congr rfl) steady (after a m₁ (h.result a m₁ ran))
  | error halt m₁ =>
    have same : Run.within env p m = .error halt { m₁ with environment := m.environment } := by
      simp only [Run.within, ran]
    have grounded : m₁.Grounded O := by simpa [ran, ending] using h.machine
    have steady : m.store.Steady m₁.store := by simpa [ran, ending] using h.steady
    exact of_error same (grounded.congr rfl) steady (h.halts halt m₁ ran)

end Grounds

theorem store_ending_within (env : Environment) (p : Run α) (m : Machine) :
    (ending (within env p m)).store = (ending (p { m with environment := env })).store := by
  unfold within
  cases p { m with environment := env } <;> rfl

-- Operators.

theorem proper_of_unary {op : UnaryOp} {value : Value} {fault : RuntimeFault}
    (failed : op.apply value = .error fault) (line : Nat) :
    Halt.Proper (.fault (.runtime line fault)) := by
  unfold UnaryOp.apply at failed
  split at failed <;> cases failed
  trivial

theorem proper_of_binary {op : BinaryOp} {a b : Value} {fault : RuntimeFault}
    (failed : op.apply a b = .error fault) (line : Nat) :
    Halt.Proper (.fault (.runtime line fault)) := by
  have onNumbers {f : Float → Float → Value} (failed : Value.onNumbers f a b = .error fault) :
      Halt.Proper (.fault (.runtime line fault)) := by
    unfold Value.onNumbers at failed
    split at failed <;> cases failed
    trivial
  cases op with
  | add =>
    simp only [BinaryOp.apply, Value.plus] at failed
    split at failed <;> cases failed <;> trivial
  | equal | notEqual => cases failed
  | _ => exact onNumbers failed

theorem grounds_ofOperation {line : Nat} {result : Except RuntimeFault α}
    {Q : α → Machine → Prop} (grounded : m.Grounded O)
    (proper : ∀ fault, result = .error fault → Halt.Proper (.fault (.runtime line fault)))
    (h : ∀ a, result = .ok a → Q a m) : Grounds O (ofOperation line result) m Q := by
  cases result with
  | ok a => exact .pure grounded (h a rfl)
  | error fault => exact .stop grounded (proper fault rfl)

-- Variables.

theorem proper_undefined {name : Name} (ordinary : name.text ≠ "super") :
    Halt.Proper (.fault (Store.undefined name)) := ordinary

theorem grounds_define {name : String} {value : Value} (grounded : m.Grounded O)
    (placed : m.Placed O) (ordinary : name ≠ "this" ∧ name ≠ "super")
    (value_grounded : value.Grounded O m.store) :
    Grounds O (define name value) m fun _ _ => True := by
  have writable := placed.writable ordinary
  have steady := Store.steady_bindAt writable value
  exact .of_ok rfl (grounded.bindAt writable (value_grounded.mono steady)) steady trivial

theorem error_of_readAt {s : Store} {env : Environment} {distance : Nat} {name : Name}
    {d : Diagnostic} (h : s.readAt env distance name = .error d) : d = Store.undefined name := by
  unfold Store.readAt at h
  split at h
  · cases h
  · exact (Except.error.inj h).symm

theorem error_of_read {s : Store} {env : Environment} {name : Name} {d : Diagnostic}
    (h : s.read env name = .error d) : d = Store.undefined name := by
  unfold Store.read at h
  split at h
  · cases h
  · exact (Except.error.inj h).symm

theorem grounds_lookUp {r : Reference} (grounded : m.Grounded O)
    (ordinary : r.name.text ≠ "super") :
    Grounds O (lookUp r) m fun value m' => m' = m ∧ value.Grounded O m.store := by
  have kept {result : Except Diagnostic Value} (found : ∀ value, result = .ok value →
      ∃ address, m.store.lookup address r.name.text = some value)
      (missing : ∀ d, result = .error d → d = Store.undefined r.name) :
      Grounds O (ofExcept result) m fun value m' => m' = m ∧ value.Grounded O m.store := by
    cases result with
    | ok value =>
      obtain ⟨address, found⟩ := found value rfl
      exact .pure grounded ⟨rfl, grounded.scopes address _ value found⟩
    | error d => exact .throw grounded (missing d rfl ▸ proper_undefined ordinary)
  refine .congr (q := ofExcept _) rfl (kept (fun value read => ?_) fun d failed => ?_)
  · split at read
    · exact readAt_eq_ok read
    · exact read_eq_ok read
  · split at failed
    · exact error_of_readAt failed
    · exact error_of_read failed

theorem grounds_bindAt {address : Nat} {name : String} {value : Value} (grounded : m.Grounded O)
    (writable : m.store.Writable address name) (value_grounded : value.Grounded O m.store) :
    Grounds O (modifyStore fun s => s.bindAt address name value) m fun _ _ => True := by
  have steady := Store.steady_bindAt writable value
  exact .of_ok rfl (grounded.bindAt writable (value_grounded.mono steady)) steady trivial

theorem grounds_assign {r : Reference} {value : Value} (grounded : m.Grounded O)
    (value_grounded : value.Grounded O m.store) (ordinary : r.name.Ordinary)
    (writable : ∀ distance, m.resolution[r.id]? = some distance →
      m.store.Writable (m.environment.ancestor distance).innermost r.name.text) :
    Grounds O (assign r value) m fun _ _ => True := by
  cases resolved : m.resolution[r.id]? with
  | some distance =>
    have same : assign r value m = modifyStore (fun s =>
        s.bindAt (m.environment.ancestor distance).innermost r.name.text value) m := by
      simp only [assign, resolved]
      rfl
    exact .congr same (grounds_bindAt grounded (writable distance resolved) value_grounded)
  | none =>
    cases binder : m.store.binder? .root r.name.text with
    | some address =>
      have rooted : address = Environment.root.innermost := by
        have mem := List.mem_of_find?_eq_some binder
        simpa [Environment.root, Environment.chain] using mem
      have same : assign r value m =
          modifyStore (fun s => s.bindAt address r.name.text value) m := by
        simp only [assign, resolved, assignFrom, binder]
        rfl
      exact .congr same (grounds_bindAt grounded (.inl rooted) value_grounded)
    | none =>
      have same : assign r value m = .error (.fault (Store.undefined r.name)) m := by
        simp only [assign, resolved, assignFrom, binder]
      exact .of_error same grounded (.refl _) (proper_undefined ordinary.2)

-- Methods and classes.

theorem bind_eq (method : Method) (i : Instance) (m : Machine) : Run.bind method i m =
    .ok ⟨m.store.identities, method.declaration, (m.store.enclose method.environment).1,
        method.declaration.isInitializer⟩
      { m with store := ((m.store.enclose method.environment).2.define
          (m.store.enclose method.environment).1 "this" (.instance i)).newIdentity.2 } := rfl

theorem only_bind (method : Method) (i : Instance) (m : Machine) :
    (ending (Run.bind method i m)).store.Only m.store.scopes.size "this" (.instance i) :=
  m.store.only_dedicate method.environment "this" (.instance i)

theorem bound_of_bind {c : Class} {method : Method} {i : Instance} {name : String} {f : Closure}
    {m' : Machine} (c_grounded : c.Grounded O m.store) (descends : i.ofClass.Descends c)
    (found : c.method? name = some method) (ran : Run.bind method i m = .ok f m') :
    ∃ d, O.made d ∧ f.Bound m'.store d i := by
  obtain ⟨d, finds⟩ := Class.method?_eq_some_iff.mp found
  obtain ⟨made, methods⟩ := c_grounded d finds.descends
  have named := (methods name method finds.own_eq).1
  have only := only_bind method i m
  obtain ⟨rfl, rfl⟩ := EStateM.Result.ok.inj ((bind_eq method i m).symm.trans ran)
  refine ⟨d, made, descends.trans finds.descends, ⟨method.environment, ?_, rfl⟩, only, rfl⟩
  rw [Closure.name, named]
  exact finds.own_eq

theorem grounds_bind {c : Class} {method : Method} {i : Instance} {name : String}
    (grounded : m.Grounded O) (c_grounded : c.Grounded O m.store)
    (receiver : (Value.instance i).Grounded O m.store) (descends : i.ofClass.Descends c)
    (found : c.method? name = some method) :
    Grounds O (Run.bind method i) m fun f m' => f.Grounded O m'.store := by
  have ran := bind_eq method i m
  have steady := m.store.steady_dedicate method.environment "this" (.instance i)
  have steady' := steady.trans (Store.steady_newIdentity _)
  have only := m.store.only_dedicate method.environment "this" (.instance i)
  obtain ⟨d, finds⟩ := Class.method?_eq_some_iff.mp found
  obtain ⟨made, methods⟩ := c_grounded d finds.descends
  obtain ⟨-, formed, layered, behind⟩ := methods name method finds.own_eq
  have bound := bound_of_bind c_grounded descends found ran
  refine .of_ok ran
    (grounded.dedicate method.environment (.inl ⟨i, rfl, rfl⟩) receiver).newIdentity steady'
    ⟨formed, ?_, .inr (bound.imp fun d known => ⟨i, known⟩)⟩
  refine .inner (Store.lt_size_of_lookup only.self) (Nat.ne_of_gt grounded.rooted)
    (fun i' found' => ?_) (layered.mono steady')
  obtain ⟨-, same⟩ := only.eq_of_lookup found'
  cases same
  exact ⟨d, made, descends.trans finds.descends, behind.mono layered steady'⟩

theorem grounds_property {i : Instance} {name : Name} (grounded : m.Grounded O)
    (receiver : (Value.instance i).Grounded O m.store) :
    Grounds O (property i name) m fun value m' => value.Grounded O m'.store := by
  refine Grounds.get_bind ?_
  split
  next value found => exact .pure grounded (grounded.fields i _ value found)
  · split
    next method found =>
      exact (grounds_bind grounded receiver.1 receiver .refl found).bind
        fun f m' _ grounded' _ f_grounded => .pure grounded' f_grounded
    · exact .stop grounded trivial

theorem grounds_inherited {r : Reference} {name : Name} {distance : Nat} {c : Class} {i : Instance}
    (grounded : m.Grounded O) (resolved : m.resolution[r.id]? = some distance)
    (isClass : m.store.getAt? m.environment distance "super" = some (.class c))
    (isInstance : m.store.getAt? m.environment (distance - 1) "this" = some (.instance i))
    (descends : i.ofClass.Descends c) :
    Grounds O (inherited r name) m fun value m' => value.Grounded O m'.store := by
  have c_grounded : c.Grounded O m.store := grounded.scopes _ _ _ isClass
  have receiver : (Value.instance i).Grounded O m.store := grounded.scopes _ _ _ isInstance
  refine Grounds.get_bind ?_
  simp only [resolved, isClass, isInstance]
  split
  next method found =>
    exact (grounds_bind grounded c_grounded receiver descends found).bind
      fun f m' _ grounded' _ f_grounded => .pure grounded' f_grounded
  · exact .stop grounded trivial

theorem grounds_superclass {r : Reference} (grounded : m.Grounded O)
    (ordinary : r.name.text ≠ "super") :
    Grounds O (superclass r) m fun c m' => m' = m ∧ c.Grounded O m.store := by
  refine (grounds_lookUp grounded ordinary).bind ?_
  rintro value _ - - - ⟨rfl, kept⟩
  split
  · exact .pure grounded ⟨rfl, kept⟩
  · exact .stop grounded trivial

-- The declaration of a class.

theorem superclass?_declared (m : Machine) (name : Name) (methods : List FunctionDecl)
    (above : Option Class) : (declared m name methods above).superclass? = above := by
  cases above <;> rfl

theorem makes_declared {n : Nat} {name : Name} {r : Option Reference} {methods : List FunctionDecl}
    {above : Option Class} (known : above.isSome = r.isSome)
    (ran : ∀ r' ∈ r, ∀ c ∈ above, superclass r' m = .ok c m) :
    Makes ⟨n + 1, .execute (.classDecl name r methods), m⟩ (declared m name methods above) := by
  cases r with
  | none =>
    cases above with
    | none => exact .base
    | some c => cases known
  | some r =>
    cases above with
    | none => cases known
    | some c =>
      have size := m.store.size_define m.environment name.text .nil
      have env : (surroundings m name (some c)).1 = ⟨m.store.scopes.size, m.environment.chain⟩ :=
        congrArg (Environment.mk · m.environment.chain) size
      unfold declared
      rw [env]
      exact .derived (ran r rfl c rfl)

theorem grounded_surroundings {name : Name} {above : Option Class} (grounded : m.Grounded O)
    (placed : m.Placed O) (ordinary : name.Ordinary)
    (c_grounded : ∀ c ∈ above, c.Grounded O m.store) :
    Machine.Grounded O { m with store := (surroundings m name above).2 } ∧
      m.store.Steady (surroundings m name above).2 ∧
      Layered O (surroundings m name above).2 (surroundings m name above).1.chain ∧
      ∀ d : Class, d.superclass? = above →
        d.Behind (surroundings m name above).2 (surroundings m name above).1.chain := by
  have writable := placed.writable ordinary
  have unset : Machine.Grounded O { m with store := m.store.define m.environment name.text .nil } :=
    grounded.bindAt writable trivial
  have steady := Store.steady_bindAt writable .nil
  cases above with
  | none =>
    refine ⟨unset, steady, placed.layered.mono steady, fun d _ => ?_⟩
    rintro _ ⟨⟩ inner c found
    exact absurd (steady.back _ placed.inside (.of_lookup inner (.inr rfl) found)) placed.free
  | some c =>
    have class_grounded : (Value.class c).Grounded O _ := (c_grounded c rfl).mono steady
    have dedicated := Store.steady_dedicate
      (m.store.define m.environment name.text .nil) m.environment "super" (.class c)
    have only := Store.only_dedicate
      (m.store.define m.environment name.text .nil) m.environment "super" (.class c)
    refine ⟨unset.dedicate m.environment (.inr ⟨c, rfl, rfl⟩) class_grounded,
      steady.trans dedicated, ?_, fun d same => ?_⟩
    · refine .inner (Store.lt_size_of_lookup only.self) (Nat.ne_of_gt unset.rooted)
        (fun i found => ?_)
        ((placed.layered.mono steady).mono dedicated)
      exact absurd (only.eq_of_lookup found).1 (by decide)
    · rintro _ ⟨⟩ - c' found
      obtain ⟨-, same'⟩ := only.eq_of_lookup found
      cases same'
      exact same

theorem grounded_declared {name : Name} {methods : List FunctionDecl} {above : Option Class}
    (grounded : m.Grounded O) (placed : m.Placed O) (ordinary : name.Ordinary)
    (formed : FunctionDecl.AllWellFormed methods) (c_grounded : ∀ c ∈ above, c.Grounded O m.store)
    (made : O.made (declared m name methods above)) :
    (declared m name methods above).Grounded O (surroundings m name above).2 := by
  obtain ⟨-, steady, layered, behind⟩ :=
    grounded_surroundings grounded placed ordinary c_grounded
  have next := superclass?_declared m name methods above
  intro d descends
  rcases descends.cases_above with rfl | ⟨c, isAbove, descends⟩
  · refine ⟨made, fun key method found => ?_⟩
    obtain ⟨before, f, after, rfl, named, -, rfl⟩ := get?_methodTable.mp found
    exact ⟨named, formed.of_mem (by simp), layered, behind _ next⟩
  · exact (c_grounded c (next.symm.trans isAbove)).mono steady d descends

theorem grounds_declareClass {n : Nat} {name : Name} {r : Option Reference}
    {methods : List FunctionDecl} (grounded : m.Grounded O) (placed : m.Placed O)
    (formed : (Stmt.classDecl name r methods).WellFormed)
    (made : ∀ d, Makes ⟨n + 1, .execute (.classDecl name r methods), m⟩ d → O.made d) :
    Grounds O (declareClass name r methods) m fun _ _ => True := by
  obtain ⟨ordinary, inherited, methods_formed⟩ := formed
  have rest {above : Option Class} (known : above.isSome = r.isSome)
      (ran : ∀ r' ∈ r, ∀ c ∈ above, superclass r' m = .ok c m)
      (c_grounded : ∀ c ∈ above, c.Grounded O m.store) :
      Grounds O (declareClass name r methods) m fun _ _ => True := by
    have declared_grounded := grounded_declared grounded placed ordinary methods_formed c_grounded
      (made _ (makes_declared known ran))
    obtain ⟨around, steady, -⟩ := grounded_surroundings grounded placed ordinary c_grounded
    have steady' := steady.trans (Store.steady_newIdentity _)
    have writable : (surroundings m name above).2.newIdentity.2.Writable m.environment.innermost
        name.text :=
      .inr ⟨fun dedicated => placed.free (steady'.back _ placed.inside dedicated), ordinary⟩
    have value : (Value.class (declared m name methods above)).Grounded O
        (surroundings m name above).2.newIdentity.2 :=
      declared_grounded.mono (Store.steady_newIdentity _)
    have assigned := grounds_bindAt around.newIdentity writable value
    refine .of_ok (declareClass_of_superclass placed.inside known ran) assigned.machine
      (steady'.trans assigned.steady) trivial
  cases r with
  | none => exact @rest none rfl nofun nofun
  | some r =>
    have found := grounds_superclass grounded (inherited r rfl).2
    cases ran : superclass r m with
    | ok c m' =>
      obtain ⟨rfl, c_grounded⟩ := found.result c m' ran
      refine @rest (some c) rfl ?_ ?_
      · rintro _ ⟨⟩ _ ⟨⟩
        exact ran
      · rintro _ ⟨⟩
        exact c_grounded
    | error halt m' =>
      have ended : m'.Grounded O := by simpa [ran, ending] using found.machine
      have steady : m.store.Steady m'.store := by simpa [ran, ending] using found.steady
      exact .of_error (declareClass_of_error ran) ended steady (found.halts halt m' ran)

-- Calls.

theorem grounds_checkArity {expected got line : Nat} (grounded : m.Grounded O) :
    Grounds O (checkArity expected got line) m fun _ m' => m' = m ∧ expected = got := by
  unfold checkArity
  split
  next same => exact .pure grounded ⟨rfl, same⟩
  · exact .stop grounded trivial

theorem grounds_newInstance {c : Class} (grounded : m.Grounded O)
    (c_grounded : c.Grounded O m.store) :
    Grounds O (onStore fun s => s.newInstance c) m fun i m' =>
      i = ⟨m.store.objects.size, c⟩ ∧ (Value.instance i).Grounded O m'.store := by
  refine .of_ok rfl (grounded.newInstance c) (m.store.steady_newInstance c) ⟨rfl, ?_, ?_⟩
  · exact c_grounded.mono (m.store.steady_newInstance c)
  · simp

theorem grounds_callResult {f : Closure} {completion : Completion} (grounded : m.Grounded O)
    (kept : ∀ value, completion = .returned value → value.Grounded O m.store) :
    Grounds O (callResult f completion) m fun value m' => value.Grounded O m'.store := by
  unfold callResult
  split
  · refine Grounds.get_bind (.pure grounded ?_)
    cases receiver : m.store.getAt? f.environment 0 "this" with
    | none => trivial
    | some value => exact grounded.scopes _ _ value receiver
  · split
    next value => exact .pure grounded (kept value rfl)
    all_goals exact .pure grounded trivial

theorem grounds_write {text : String} (grounded : m.Grounded O) :
    Grounds O (write text) m fun _ _ => True :=
  .of_ok rfl (grounded.congr rfl) (.refl _) trivial

theorem grounds_printLine {value : Value} (grounded : m.Grounded O) :
    Grounds O (printLine value) m fun _ _ => True := by
  refine (grounds_write grounded).bind fun fits m₁ _ grounded₁ _ _ => ?_
  split
  · exact .pure grounded₁ trivial
  · exact .throw grounded₁ trivial

theorem grounds_readLine {line : Nat} (grounded : m.Grounded O) :
    Grounds O (readLine line) m fun value m' => value.Grounded O m'.store := by
  refine Grounds.get_bind ?_
  split
  · exact .throw grounded trivial
  · exact .pure grounded trivial
  next bytes rest _ =>
    have left : Machine.Grounded O { m with input := rest } := grounded.congr rfl
    refine Grounds.bind (Grounds.of_ok (Q := fun _ _ => True) rfl left (.refl _) trivial) ?_
    intro _ m₁ _ grounded₁ _ _
    split
    next text _ =>
      generalize given : Value.ofInput (Input.chomp text) = value
      exact .pure grounded₁ (Value.plain_of_ofInput_eq given).grounded
    · exact .stop grounded₁ trivial

theorem grounds_callHost {slot : Nat} {arguments : List Value} {line : Nat}
    (grounded : m.Grounded O) (hosts : ∀ f ∈ m.hosts, HostFunction.Honest f)
    (kept : ∀ value ∈ arguments, value.Grounded O m.store) :
    Grounds O (callHost slot arguments line) m fun value m' => value.Grounded O m'.store := by
  cases host : m.hosts[slot]? with
  | none =>
    have same : callHost slot arguments line m = .ok .nil m := by simp only [callHost, host]
    exact .of_ok same grounded (.refl _) trivial
  | some f =>
    have honest := hosts f (List.mem_of_getElem? host)
    rcases answer : f arguments m.output with ⟨result, output⟩
    cases result with
    | ok value =>
      have same : callHost slot arguments line m = .ok value { m with output := output } := by
        simp only [callHost, host, answer]
      refine .of_ok same (grounded.congr rfl) (.refl _) ?_
      exact (honest _ _ _ _ answer).elim Value.Plain.grounded (kept value)
    | error message =>
      have same : callHost slot arguments line m =
          stop line (.native message) { m with output := output } := by
        simp only [callHost, host, answer]
      exact .of_error same (grounded.congr rfl) (.refl _) trivial

theorem grounds_callNative {body : NativeBody} {arguments : List Value} {line : Nat}
    (grounded : m.Grounded O) (hosts : ∀ f ∈ m.hosts, HostFunction.Honest f)
    (kept : ∀ value ∈ arguments, value.Grounded O m.store) :
    Grounds O (callNative body arguments line) m fun value m' => value.Grounded O m'.store := by
  cases body with
  | clock | tick => exact .of_ok rfl (grounded.congr rfl) (.refl _) trivial
  | read => exact grounds_readLine grounded
  | typeOf => exact .pure grounded trivial
  | greet =>
    refine (grounds_write grounded).bind fun fits m₁ _ grounded₁ _ _ => ?_
    split
    · exact .pure grounded₁ trivial
    · exact .stop grounded₁ trivial
  | host slot => exact grounds_callHost grounded hosts kept

-- New scopes.

theorem placed_enclose {env : Environment} (grounded : m.Grounded O)
    (layered : Layered O m.store env.chain) :
    Machine.Placed O { m with
      store := (m.store.enclose env).2
      environment := (m.store.enclose env).1 } := by
  have outside (name : String) :
    (m.store.enclose env).2.lookup m.store.scopes.size name = none := by
    rw [Store.lookup_enclose, Store.lookup_eq_none (Nat.le_refl _)]
  refine ⟨.inner (by simp [Store.enclose]) (Nat.ne_of_gt grounded.rooted) (fun i found => ?_)
    (layered.mono (m.store.steady_enclose env)), fun dedicated => ?_⟩
  · cases (outside "this").symm.trans found
  · simp [Store.Dedicated, Store.innermost_enclose, outside] at dedicated

theorem grounded_defineAll (bindings : List (Name × Value)) : ∀ {m : Machine}, m.Grounded O →
    m.Placed O → (∀ binding ∈ bindings, binding.1.Ordinary ∧ binding.2.Grounded O m.store) →
    Machine.Grounded O { m with store := m.store.defineAll m.environment bindings } ∧
      m.store.Steady (m.store.defineAll m.environment bindings) := by
  induction bindings with
  | nil => exact fun grounded _ _ => ⟨grounded, .refl _⟩
  | cons binding rest ih =>
    intro m grounded placed each
    obtain ⟨ordinary, value_grounded⟩ := each binding List.mem_cons_self
    have first := grounds_define grounded placed ordinary value_grounded
    have kept := (Keeps.define : Keeps (define binding.1.text binding.2)) m
    obtain ⟨others, steady⟩ := ih first.machine (placed.steady kept first.steady)
      fun other mem => ⟨(each other (List.mem_cons_of_mem _ mem)).1,
        (each other (List.mem_cons_of_mem _ mem)).2.mono first.steady⟩
    exact ⟨others, first.steady.trans steady⟩

theorem grounds_activation {f : Closure} {arguments : List Value} (grounded : m.Grounded O)
    (f_grounded : f.Grounded O m.store) (kept : ∀ value ∈ arguments, value.Grounded O m.store) :
    Grounds O (activation f arguments) m fun env m' =>
      Machine.Placed O { m' with environment := env } := by
  have steady := m.store.steady_enclose f.environment
  have placed := placed_enclose grounded f_grounded.layered
  have bindings : ∀ binding ∈ f.declaration.parameters.zip arguments,
      binding.1.Ordinary ∧ binding.2.Grounded O (m.store.enclose f.environment).2 :=
    fun binding mem => ⟨f_grounded.formed.parameters_ordinary _ (List.of_mem_zip mem).1,
      (kept _ (List.of_mem_zip mem).2).mono steady⟩
  have entered : Machine.Grounded O { m with
      store := (m.store.enclose f.environment).2
      environment := (m.store.enclose f.environment).1 } :=
    (grounded.enclose f.environment).congr rfl
  obtain ⟨bound, steady'⟩ := grounded_defineAll _ entered placed bindings
  exact .of_ok rfl (bound.congr rfl) (steady.trans steady') (placed.steady
    ⟨rfl, rfl, rfl, rfl, Store.grows_defineAll _ _ _⟩ steady')

end Run

end ScopeScript
