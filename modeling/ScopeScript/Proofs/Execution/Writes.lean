import ScopeScript.Proofs.Execution.Dispatch
import ScopeScript.Proofs.Execution.Parts

set_option autoImplicit false

namespace ScopeScript

def Site.names : Site → List String
  | .block _ => []
  | .call f => f.parameters.map Name.text
  | .receiver _ => ["this"]
  | .superclass _ => ["super"]

namespace Point

inductive Declares : Point → Nat → String → Prop
  | varDecl {n name initial m} :
      Declares ⟨n + 1, .execute (.varDecl name initial), m⟩ m.environment.innermost name.text
  | funDecl {n f m} : Declares ⟨n + 1, .execute (.funDecl f), m⟩ m.environment.innermost f.name.text
  | classDecl {n name above methods m} :
      Declares ⟨n + 1, .execute (.classDecl name above methods), m⟩ m.environment.innermost
        name.text

inductive Assigns : Point → Reference → Nat → Prop
  | resolved {distance n r e m} : m.resolution[r.id]? = some distance →
      Assigns ⟨n + 1, .evaluate (.assign r e), m⟩ r (m.environment.ancestor distance).innermost
  | global {n r e m} : m.resolution[r.id]? = none →
      Assigns ⟨n + 1, .evaluate (.assign r e), m⟩ r Environment.root.innermost

inductive Yields : Point → Value → Prop
  | intro {n e m value m'} : Run.evaluate n e m = .ok value m' → Yields ⟨n, .evaluate e, m⟩ value

def Sets (p : Point) (address : Nat) (name : String) : Prop :=
  p.Declares address name ∨ ∃ r, p.Assigns r address ∧ r.name.text = name

def Equips (p : Point) (address : Nat) (name : String) : Prop :=
  ∃ site, Opens p address site ∧ name ∈ site.names

end Point

namespace Store

structure Moves (sets equips : Nat → String → Prop) (s s' : Store) : Prop where
  size : s.scopes.size ≤ s'.scopes.size
  old : ∀ address name, address < s.scopes.size → s'.lookup address name ≠ s.lookup address name →
    sets address name
  new : ∀ address name, s.scopes.size ≤ address → (s'.lookup address name).isSome →
    equips address name

variable {sets equips : Nat → String → Prop} {s s' s₁ s₂ : Store} {env : Environment}
  {name : String} {value : Value}

namespace Moves

theorem of_scopes (same : s'.scopes = s.scopes) : s.Moves sets equips s' := by
  refine ⟨Nat.le_of_eq (congrArg _ same).symm, fun address name _ changed => ?_,
    fun address name outside bound => ?_⟩
  · simp [lookup, same] at changed
  · rw [lookup_eq_none (same ▸ outside)] at bound
    cases bound

theorem refl (s : Store) : s.Moves sets equips s := of_scopes rfl

theorem bindAt {address : Nat} (may : sets address name) :
    s.Moves sets equips (s.bindAt address name value) := by
  have size : (s.bindAt address name value).scopes.size = s.scopes.size := by simp [Store.bindAt]
  refine ⟨Nat.le_of_eq size.symm, fun other key _ changed => ?_, fun other key outside bound => ?_⟩
  · rw [lookup_bindAt] at changed
    split at changed
    next same =>
      obtain ⟨rfl, -, rfl⟩ := same
      exact may
    · exact absurd rfl changed
  · rw [lookup_eq_none (size ▸ outside)] at bound
    cases bound

theorem push {address : Nat} (size : s'.scopes.size = s.scopes.size + 1)
    (here : address = s.scopes.size)
    (others : ∀ other name, other ≠ address → s'.lookup other name = s.lookup other name)
    (own : ∀ name, (s'.lookup address name).isSome → equips address name) :
    s.Moves sets equips s' := by
  refine ⟨by omega, fun other key inside changed => ?_, fun other key outside bound => ?_⟩
  · exact absurd (others other key (by omega)) changed
  · by_cases same : other = address
    · subst same
      exact own key bound
    · rw [others other key same, lookup_eq_none outside] at bound
      cases bound

theorem congr (h : s₁.Moves sets equips s₂) (before : s₁.scopes = s.scopes)
    (behind : s'.scopes = s₂.scopes) : s.Moves sets equips s' := by
  obtain ⟨size, old, new⟩ := h
  simp only [lookup, before, ← behind] at size old new
  exact ⟨size, old, new⟩

theorem enclose (env : Environment) : s.Moves sets equips (s.enclose env).2 := by
  refine push (by simp [Store.enclose]) rfl (fun _ _ _ => lookup_enclose ..) fun name bound => ?_
  rw [lookup_enclose, lookup_eq_none (Nat.le_refl _)] at bound
  cases bound

theorem dedicate (env : Environment) {word : String} (may : equips s.scopes.size word) :
    s.Moves sets equips ((s.enclose env).2.define (s.enclose env).1 word value) := by
  refine push (by rw [size_define]; simp [Store.enclose]) rfl (fun other key differs => ?_)
    fun key bound => ?_
  · rw [lookup_dedicate, if_neg differs]
  · rw [lookup_dedicate, if_pos rfl] at bound
    split at bound
    next same => exact same ▸ may
    · cases bound

theorem trans (first : s.Moves sets equips s₁)
    (second : s₁.Moves (fun address name => address < s.scopes.size ∧ sets address name) equips
      s₂) : s.Moves sets equips s₂ := by
  refine ⟨Nat.le_trans first.size second.size, fun address name inside changed => ?_,
    fun address name outside bound => ?_⟩
  · by_cases same : s₁.lookup address name = s.lookup address name
    · exact (second.old address name (Nat.lt_of_lt_of_le inside first.size)
        (same ▸ changed)).2
    · exact first.old address name inside same
  · rcases Nat.lt_or_ge address s₁.scopes.size with inside | beyond
    · by_cases same : s₂.lookup address name = s₁.lookup address name
      · exact first.new address name outside (same ▸ bound)
      · exact absurd (second.old address name inside same).1 (Nat.not_lt.mpr outside)
    · exact second.new address name beyond bound

end Moves

theorem size_defineAll (env : Environment) (bindings : List (Name × Value)) (s : Store) :
    (s.defineAll env bindings).scopes.size = s.scopes.size := by
  induction bindings generalizing s with
  | nil => rfl
  | cons binding rest ih => exact (ih _).trans (size_define ..)

theorem lookup_defineAll (bindings : List (Name × Value)) {address : Nat} {key : String}
    (other : address ≠ env.innermost ∨ key ∉ bindings.map fun binding => binding.1.text) :
    (s.defineAll env bindings).lookup address key = s.lookup address key := by
  induction bindings generalizing s with
  | nil => rfl
  | cons binding rest ih =>
    simp only [List.map_cons, List.mem_cons, not_or] at other
    refine (ih (other.imp_right And.right)).trans ?_
    change (s.bindAt env.innermost binding.1.text binding.2).lookup address key = _
    rw [lookup_bindAt, if_neg]
    rintro ⟨here, -, same⟩
    exact other.elim (fun away => away here) fun fresh => fresh.1 same.symm

theorem Moves.activation {f : Closure} {arguments : List Value}
    (may : ∀ name ∈ f.declaration.parameters.map Name.text, equips s.scopes.size name) :
    s.Moves sets equips ((s.enclose f.environment).2.defineAll (s.enclose f.environment).1
      (f.declaration.parameters.zip arguments)) := by
  refine push (by rw [size_defineAll]; simp [Store.enclose]) rfl (fun other key differs => ?_)
    fun key bound => ?_
  · rw [lookup_defineAll _ (.inl differs), lookup_enclose]
  · refine may key ?_
    by_contra unnamed
    have fresh : key ∉ (f.declaration.parameters.zip arguments).map fun binding =>
        binding.1.text := by
      intro mem
      obtain ⟨⟨parameter, value⟩, zipped, rfl⟩ := List.mem_map.mp mem
      exact unnamed (List.mem_map_of_mem (List.of_mem_zip zipped).1)
    rw [lookup_defineAll _ (.inr fresh), lookup_enclose, lookup_eq_none (Nat.le_refl _)] at bound
    cases bound

end Store

namespace Run

variable {α β : Type}

def Leaves (p : Run α) : Prop := ∀ m : Machine, (ending (p m)).store.scopes = m.store.scopes

namespace Leaves

variable {p : Run α} {f : α → Run β}

theorem scopes_bind (second : ∀ a, Leaves (f a)) (m : Machine) :
    (ending ((p >>= f) m)).store.scopes = (ending (p m)).store.scopes :=
  ending_bind_of_kept (g := fun m => m.store.scopes) second m

theorem bind (first : Leaves p) (second : ∀ a, Leaves (f a)) : Leaves (p >>= f) :=
  fun m => (scopes_bind second m).trans (first m)

theorem pure {a : α} : Leaves (Pure.pure a : Run α) := fun _ => rfl

theorem throw {halt : Halt} : Leaves (throw halt : Run α) := fun _ => rfl

theorem get : Leaves (get : Run Machine) := fun _ => rfl

theorem stop {line : Nat} {fault : RuntimeFault} : Leaves (Run.stop line fault : Run α) :=
  fun _ => rfl

theorem ofOperation {line : Nat} {result : Except RuntimeFault α} :
    Leaves (Run.ofOperation line result) := by
  cases result with
  | ok a => exact .pure
  | error fault => exact .stop

theorem ofExcept {result : Except Diagnostic α} : Leaves (Run.ofExcept result) := by
  cases result with
  | ok a => exact .pure
  | error d => exact .throw

theorem lookUp {r : Reference} : Leaves (Run.lookUp r) := fun m => ofExcept m

theorem superclass {r : Reference} : Leaves (Run.superclass r) := by
  refine lookUp.bind fun value => ?_
  split
  · exact .pure
  · exact .stop

theorem write {text : String} : Leaves (Run.write text) := fun _ => rfl

theorem printLine {value : Value} : Leaves (Run.printLine value) := by
  refine write.bind fun fits => ?_
  split
  · exact .pure
  · exact .throw

theorem readLine {line : Nat} : Leaves (Run.readLine line) := by
  refine get.bind fun m => ?_
  split
  · exact .throw
  · exact .pure
  · refine Leaves.bind (fun _ => rfl) fun _ => ?_
    split
    · exact .pure
    · exact .stop

theorem callHost {slot : Nat} {arguments : List Value} {line : Nat} :
    Leaves (Run.callHost slot arguments line) := by
  intro m
  unfold Run.callHost
  cases m.hosts[slot]? with
  | none => rfl
  | some f =>
    simp only
    split <;> rfl

theorem greet {name : Value} {line : Nat} : Leaves (Run.greet name line) := by
  refine write.bind fun fits => ?_
  split
  · exact .pure
  · exact .stop

theorem callNative {body : NativeBody} {arguments : List Value} {line : Nat} :
    Leaves (Run.callNative body arguments line) := by
  cases body with
  | clock | tick => exact get.bind fun _ => Leaves.bind (fun _ => rfl) fun _ => .pure
  | read => exact readLine
  | typeOf => exact .pure
  | greet => exact greet
  | host slot => exact callHost

theorem checkArity {expected got line : Nat} : Leaves (Run.checkArity expected got line) := by
  unfold Run.checkArity
  split
  · exact .pure
  · exact .stop

theorem callResult {f : Closure} {completion : Completion} :
    Leaves (Run.callResult f completion) := by
  unfold Run.callResult
  split
  · exact get.bind fun _ => .pure
  · split <;> exact .pure

end Leaves

end Run

open Run

namespace Point

def Goes (p : Point) (s' : Store) : Store → List Point → Prop
  | s, [] => s.Moves p.Sets p.Equips s'
  | s, q :: rest => q.machine.store = s ∧ p.Goes s' q.after rest

def Orderly (p : Point) : Prop :=
  match p.parts with
  | [] => p.machine.store.Moves p.Sets p.Equips p.after
  | q :: rest =>
    p.machine.store.Moves (fun _ _ => False) p.Equips q.machine.store ∧ p.Goes p.after q.after rest

variable {p : Point} {n line : Nat} {m : Machine}

theorem Goes.orderly (h : p.Goes p.after p.machine.store p.parts) : p.Orderly := by
  unfold Orderly
  cases parts : p.parts with
  | nil => rwa [parts] at h
  | cons q rest =>
    rw [parts] at h
    exact ⟨h.1 ▸ .refl _, h.2⟩

theorem orderly_of_single {q : Point} (parts : p.parts = [q])
    (before : p.machine.store.Moves (fun _ _ => False) p.Equips q.machine.store)
    (behind : q.after.Moves p.Sets p.Equips p.after) : p.Orderly := by
  unfold Orderly
  rw [parts]
  exact ⟨before, behind⟩

section

variable {α β : Type} {r : Run α} {f : α → Run β}

theorem goes_bind {next : α → Machine → List Point}
    (further : ∀ a m', r m = .ok a m' → p.Goes (ending (f a m')).store m'.store (next a m')) :
    p.Goes (ending ((r >>= f) m)).store (ending (r m)).store (thereafter (r m) next) := by
  cases ran : r m with
  | ok a m' =>
    rw [bind_of_ok ran]
    exact further a m' ran
  | error halt m' =>
    rw [bind_of_error ran]
    exact Store.Moves.refl _

theorem goes_last (last : ∀ a m', r m = .ok a m' →
      m'.store.Moves p.Sets p.Equips (ending (f a m')).store) :
    p.Goes (ending ((r >>= f) m)).store (ending (r m)).store [] := by
  cases ran : r m with
  | ok a m' =>
    rw [bind_of_ok ran]
    exact last a m' ran
  | error halt m' =>
    rw [bind_of_error ran]
    exact Store.Moves.refl _

theorem goes_leaves (leaves : ∀ a, Leaves (f a)) :
    p.Goes (ending ((r >>= f) m)).store (ending (r m)).store [] :=
  goes_last fun a m' _ => .of_scopes (leaves a m')

end

section

variable {s : Stmt} {e : Expr} {body : List Stmt} {name : Name}

theorem orderly_varDecl {initial : Option Expr} :
    Orderly ⟨n + 1, .execute (.varDecl name initial), m⟩ := by
  have may : Sets ⟨n + 1, .execute (.varDecl name initial), m⟩ m.environment.innermost name.text :=
    .inl .varDecl
  apply Goes.orderly
  cases initial with
  | none => exact Store.Moves.bindAt may
  | some e =>
    refine ⟨rfl, goes_last fun value m' ran => ?_⟩
    have same := ((keeps_evaluate n e).of_ok ran).environment
    exact Store.Moves.bindAt (same ▸ may)

theorem orderly_funDecl {f : FunctionDecl} : Orderly ⟨n + 1, .execute (.funDecl f), m⟩ := by
  apply Goes.orderly
  exact (Store.Moves.bindAt (s := m.store.newIdentity.2) (.inl .funDecl)).congr rfl rfl

theorem orderly_block : Orderly ⟨n + 1, .execute (.block body), m⟩ := by
  refine orderly_of_single rfl (.enclose m.environment) (.of_scopes ?_)
  exact congrArg Store.scopes (store_ending_within _ (executeAll n body) _)

theorem orderly_ifElse {alternative : Option Stmt} :
    Orderly ⟨n + 1, .execute (.ifElse e s alternative), m⟩ := by
  refine Goes.orderly ⟨rfl, goes_bind fun value m' _ => ?_⟩
  split
  · exact ⟨rfl, .refl _⟩
  · cases alternative with
    | none => exact Store.Moves.refl _
    | some other => exact ⟨rfl, .refl _⟩

theorem moves_surroundings {sets equips : Nat → String → Prop} {above : Option Class}
    {value : Value} (inside : m.environment.innermost < m.store.scopes.size)
    (may : sets m.environment.innermost name.text)
    (room : above.isSome → equips m.store.scopes.size "super") :
    m.store.Moves sets equips ((surroundings m name above).2.newIdentity.2.bindAt
      m.environment.innermost name.text value) := by
  have named : m.store.Moves sets equips (m.store.define m.environment name.text .nil) :=
    .bindAt may
  have around : m.store.Moves sets equips (surroundings m name above).2 := by
    cases above with
    | none => exact named
    | some c =>
      have size := m.store.size_define m.environment name.text .nil
      exact named.trans (.dedicate m.environment (size ▸ room rfl))
  have identified : m.store.Moves sets equips (surroundings m name above).2.newIdentity.2 :=
    around.congr rfl rfl
  exact identified.trans (.bindAt ⟨inside, may⟩)

theorem orderly_classDecl {above : Option Reference} {methods : List FunctionDecl}
    (inside : m.environment.innermost < m.store.scopes.size) :
    Orderly ⟨n + 1, .execute (.classDecl name above methods), m⟩ := by
  apply Goes.orderly
  change Store.Moves _ _ m.store
    (ending ((declareClass name above methods >>= fun _ => return Completion.normal) m)).store
  cases above with
  | none =>
    have declares := @declareClass_of_superclass m name none none methods inside rfl nofun
    rw [bind_of_ok declares]
    exact moves_surroundings inside (.inl .classDecl) nofun
  | some r =>
    cases found : superclass r m with
    | ok c m' =>
      obtain rfl := eq_of_superclass found
      have declares := @declareClass_of_superclass m' name (some r) (some c) methods inside rfl
        fun r' mem c' mem' => by
          cases mem
          cases mem'
          exact found
      rw [bind_of_ok declares]
      exact moves_surroundings inside (.inl .classDecl) fun _ =>
        ⟨_, .superclass found, List.mem_singleton_self _⟩
    | error halt m' =>
      have leaves := Leaves.superclass (r := r) m
      rw [bind_of_error (declareClass_of_error found)]
      exact .of_scopes (by simpa [found, ending] using leaves)

theorem orderly_execute (inside : m.environment.innermost < m.store.scopes.size) :
    Orderly ⟨n + 1, .execute s, m⟩ := by
  cases s with
  | expression e => exact Goes.orderly ⟨rfl, goes_leaves fun _ => .pure⟩
  | print e => exact Goes.orderly ⟨rfl, goes_leaves fun _ => Leaves.printLine.bind fun _ => .pure⟩
  | varDecl name initial => exact orderly_varDecl
  | block body => exact orderly_block
  | ifElse e s alternative => exact orderly_ifElse
  | loop e s step => exact Goes.orderly ⟨rfl, .refl _⟩
  | funDecl f => exact orderly_funDecl
  | classDecl name above methods => exact orderly_classDecl inside
  | returning line value =>
    cases value with
    | none => exact Goes.orderly (Store.Moves.refl _)
    | some e => exact Goes.orderly ⟨rfl, goes_leaves fun _ => .pure⟩
  | jump kind => exact Goes.orderly (Store.Moves.refl _)

theorem orderly_executeAll : Orderly ⟨n + 1, .executeAll body, m⟩ := by
  apply Goes.orderly
  cases body with
  | nil => exact Store.Moves.refl _
  | cons s rest =>
    refine ⟨rfl, goes_bind fun completion m' _ => ?_⟩
    cases completion with
    | normal => exact ⟨rfl, .refl _⟩
    | returned value => exact Store.Moves.refl _
    | jumped kind => exact Store.Moves.refl _

theorem goes_afterJump {step : Option Expr} :
    p.Goes (ending (afterJump n e s step .next m)).store m.store
      (repetition n e s step .normal m) := by
  cases step with
  | none => exact ⟨rfl, .refl _⟩
  | some e' => exact ⟨rfl, goes_bind fun _ _ _ => ⟨rfl, .refl _⟩⟩

theorem orderly_iterate {step : Option Expr} : Orderly ⟨n + 1, .iterate e s step, m⟩ := by
  refine Goes.orderly ⟨rfl, goes_bind fun value m₁ _ => ?_⟩
  split
  case isFalse => exact Store.Moves.refl _
  refine ⟨rfl, goes_bind fun completion m₂ _ => ?_⟩
  cases completion with
  | normal => exact goes_afterJump
  | returned value => exact Store.Moves.refl _
  | jumped kind =>
    cases kind with
    | leave => exact Store.Moves.refl _
    | next => exact goes_afterJump

end

section

variable {e : Expr} {r : Reference} {name : Name}

theorem moves_assignFrom {sets equips : Nat → String → Prop} {value : Value}
    (may : sets Environment.root.innermost name.text) :
    m.store.Moves sets equips (ending (assignFrom .root name value m)).store := by
  unfold assignFrom
  cases found : m.store.binder? .root name.text with
  | none => exact .refl _
  | some address =>
    have here : address = Environment.root.innermost :=
      List.mem_singleton.mp (List.mem_of_find?_eq_some found)
    exact .bindAt (here ▸ may)

theorem orderly_assign : Orderly ⟨n + 1, .evaluate (.assign r e), m⟩ := by
  refine Goes.orderly ⟨rfl, goes_last fun value m' ran => ?_⟩
  have kept := (keeps_evaluate n e).of_ok ran
  suffices written : m'.store.Moves (Sets ⟨n + 1, .evaluate (.assign r e), m⟩)
      (Equips ⟨n + 1, .evaluate (.assign r e), m⟩) (ending (assign r value m')).store from
    written.congr rfl (Leaves.scopes_bind (fun _ => .pure) m')
  unfold assign
  cases resolved : m.resolution[r.id]? with
  | some distance =>
    simp only [kept.resolution, resolved, kept.environment]
    exact .bindAt (.inr ⟨r, .resolved resolved, rfl⟩)
  | none =>
    simp only [kept.resolution, resolved]
    exact moves_assignFrom (.inr ⟨r, .global resolved, rfl⟩)

theorem Assigns.lookup_after {a : Nat} {value : Value} (assigns : p.Assigns r a)
    (inner : a ≠ Environment.root.innermost) (inside : a < p.machine.store.scopes.size)
    (yields : p.Yields value) : p.after.lookup a r.name.text = some value := by
  obtain ⟨ran⟩ := yields
  rw [after, ran]
  cases assigns with
  | global => exact absurd rfl inner
  | resolved resolved =>
    obtain ⟨written, m₁, found, ran⟩ := bind_ok ran
    have kept := (keeps_evaluate _ _).of_ok found
    obtain ⟨_, m₂, assigned, ran⟩ := bind_ok ran
    cases ran
    simp only [assign, kept.resolution, resolved, kept.environment] at assigned
    cases assigned
    have there := Nat.lt_of_lt_of_le inside kept.store.scopes
    rw [ending, Store.assignAt, Store.lookup_bindAt, if_pos ⟨rfl, there, rfl⟩]

theorem moves_access {sets equips : Nat → String → Prop} {c : Class} {i : Instance}
    (room : ∀ method, c.method? name.text = some method → equips m.store.scopes.size "this") :
    m.store.Moves sets equips (ending (access c i name m)).store := by
  cases found : c.method? name.text with
  | none =>
    rw [access, found]
    exact .refl _
  | some method =>
    rw [store_access found]
    exact Store.Moves.congr (.dedicate method.environment (room method found)) rfl rfl

theorem orderly_get : Orderly ⟨n + 1, .evaluate (.get e name), m⟩ := by
  refine Goes.orderly ⟨rfl, goes_last fun value m' ran => ?_⟩
  cases value with
  | «instance» i =>
    change m'.store.Moves _ _ (ending (property i name m')).store
    cases field : m'.store.field? i name.text with
    | some value =>
      have read : property i name m' = .ok value m' := by
        have got : (get : Run Machine) m' = .ok m' m' := rfl
        unfold property
        rw [bind_of_ok got]
        simp only [field]
        rfl
      rw [read]
      exact .refl _
    | none =>
      rw [property_eq_access field]
      exact moves_access fun method found =>
        ⟨_, .property ran field found, List.mem_singleton_self _⟩
  | nil | bool _ | number _ | string _ | native _ | function _ | «class» _ => exact .refl _

theorem orderly_super : Orderly ⟨n + 1, .evaluate (.super r name), m⟩ := by
  apply Goes.orderly
  change m.store.Moves _ _ (ending (inherited r name m)).store
  have got : (get : Run Machine) m = .ok m m := rfl
  unfold inherited
  rw [bind_of_ok got]
  cases resolved : m.resolution[r.id]? with
  | none => exact .refl _
  | some distance =>
    simp only
    change (fun q : Run Value => m.store.Moves _ _ (ending (q m)).store) _
    split
    next c i isClass isInstance =>
      exact moves_access fun method found =>
        ⟨_, .inherited resolved isClass isInstance found, List.mem_singleton_self _⟩
    · exact .refl _

theorem orderly_set {content : Expr} : Orderly ⟨n + 1, .evaluate (.set e name content), m⟩ := by
  refine Goes.orderly ⟨rfl, goes_bind fun value m' _ => ?_⟩
  cases value with
  | «instance» i => exact ⟨rfl, goes_leaves fun value _ => rfl⟩
  | nil | bool _ | number _ | string _ | native _ | function _ | «class» _ =>
    exact Store.Moves.refl _

theorem orderly_logical {op : LogicalOp} {right : Expr} :
    Orderly ⟨n + 1, .evaluate (.logical op e right), m⟩ := by
  refine Goes.orderly ⟨rfl, goes_bind fun value m' _ => ?_⟩
  cases op with
  | and =>
    cases value.isTruthy with
    | true => exact ⟨rfl, .refl _⟩
    | false => exact Store.Moves.refl _
  | or =>
    cases value.isTruthy with
    | true => exact Store.Moves.refl _
    | false => exact ⟨rfl, .refl _⟩

theorem orderly_evaluate : Orderly ⟨n + 1, .evaluate e, m⟩ := by
  cases e with
  | literal value => exact Goes.orderly (Store.Moves.refl _)
  | grouping e => exact Goes.orderly ⟨rfl, .refl _⟩
  | unary op line e => exact Goes.orderly ⟨rfl, goes_leaves fun _ => .ofOperation⟩
  | binary op line e right =>
    exact Goes.orderly ⟨rfl, goes_bind fun _ _ _ => ⟨rfl, goes_leaves fun _ => .ofOperation⟩⟩
  | logical op e right => exact orderly_logical
  | var r => exact Goes.orderly (Store.Moves.of_scopes (Leaves.lookUp m))
  | self r => exact Goes.orderly (Store.Moves.of_scopes (Leaves.lookUp m))
  | assign r e => exact orderly_assign
  | call e line es =>
    exact Goes.orderly ⟨rfl, goes_bind fun _ _ _ => ⟨rfl, goes_bind fun _ _ _ => ⟨rfl, .refl _⟩⟩⟩
  | get e name => exact orderly_get
  | set e name content => exact orderly_set
  | super r name => exact orderly_super

theorem orderly_evaluateAll {es : List Expr} : Orderly ⟨n + 1, .evaluateAll es, m⟩ := by
  apply Goes.orderly
  cases es with
  | nil => exact Store.Moves.refl _
  | cons e rest => exact ⟨rfl, goes_bind fun _ _ _ => ⟨rfl, goes_leaves fun _ => .pure⟩⟩

theorem orderly_of_disagreed {callee : Value} {arguments : List Value} {expected : Nat}
    (wrong : expected ≠ arguments.length)
    (parts : parts ⟨n + 1, .call callee line arguments, m⟩ = []) {rest : Run Value}
    (ends : call (n + 1) callee line arguments =
      (checkArity expected arguments.length line >>= fun _ => rest)) :
    Orderly ⟨n + 1, .call callee line arguments, m⟩ := by
  apply Goes.orderly
  rw [parts]
  change m.store.Moves _ _ (ending (call (n + 1) callee line arguments m)).store
  rw [ends, bind_of_error (checkArity_of_ne wrong m)]
  exact .refl _

theorem orderly_call_class {c : Class} {arguments : List Value} :
    Orderly ⟨n + 1, .call (.class c) line arguments, m⟩ := by
  by_cases same : c.arity = arguments.length
  case neg => exact orderly_of_disagreed same (by simp [parts, same]) rfl
  have made : onStore (fun s => s.newInstance c) m =
      .ok ⟨m.store.objects.size, c⟩ { m with store := (m.store.newInstance c).2 } := rfl
  cases found : c.method? "init" with
  | some init =>
    have bound := bind_eq init ⟨m.store.objects.size, c⟩
      { m with store := (m.store.newInstance c).2 }
    refine orderly_of_single (by simp [parts, same, found, made, bound]; rfl) ?_ (.of_scopes ?_)
    · exact Store.Moves.congr (.dedicate (s := (m.store.newInstance c).2) init.environment
        ⟨_, .initializer same found, List.mem_singleton_self _⟩) rfl rfl
    · change (ending (call (n + 1) (.class c) line arguments m)).store.scopes = _
      rw [call_of_initializer same found made bound]
      exact Leaves.scopes_bind (fun _ => .pure) _
  | none =>
    apply Goes.orderly
    rw [show parts ⟨n + 1, .call (.class c) line arguments, m⟩ = [] by simp [parts, same, found]]
    have leaves : Leaves (call (n + 1) (.class c) line arguments) := by
      unfold call
      refine Leaves.checkArity.bind fun _ => Leaves.bind (fun _ => rfl) fun i => ?_
      rw [found]
      exact Leaves.pure.bind fun _ => .pure
    exact Store.Moves.of_scopes (leaves m)

theorem orderly_call {callee : Value} {arguments : List Value} :
    Orderly ⟨n + 1, .call callee line arguments, m⟩ := by
  cases callee with
  | function f =>
    by_cases same : f.arity = arguments.length
    case neg => exact orderly_of_disagreed same (by simp [parts, same]) rfl
    refine orderly_of_single (q := ⟨n, .apply f arguments, m⟩) (by simp [parts, same]) (.refl _)
      (.of_scopes ?_)
    change (ending ((checkArity f.arity arguments.length line >>= fun _ => apply n f arguments)
      m)).store.scopes = _
    rw [bind_of_ok (checkArity_of_eq same m)]
    rfl
  | «class» c => exact orderly_call_class
  | native f =>
    exact Goes.orderly (Store.Moves.of_scopes (Leaves.checkArity.bind (fun _ => .callNative) m))
  | nil | bool _ | number _ | string _ | «instance» _ => exact Goes.orderly (Store.Moves.refl _)

theorem orderly_apply {f : Closure} {arguments : List Value} :
    Orderly ⟨n + 1, .apply f arguments, m⟩ := by
  refine orderly_of_single rfl (.activation fun name mem => ⟨_, .call, mem⟩) (.of_scopes ?_)
  exact (Leaves.scopes_bind (fun _ => .callResult) _).trans
    (congrArg Store.scopes (store_ending_within _ (executeAll n f.declaration.body) _))

end

def Seated (p : Point) : Prop :=
  p.task.IsStatement → p.machine.environment.innermost < p.machine.store.scopes.size

theorem orderly (p : Point) (seated : p.Seated) : p.Orderly := by
  obtain ⟨depth, task, m⟩ := p
  cases task with
  | program body =>
    apply Goes.orderly
    cases body with
    | nil => cases depth <;> exact Store.Moves.refl _
    | cons s rest =>
      have goes : Goes ⟨depth, .program (s :: rest), m⟩
          (ending (executeProgram depth (s :: rest) m)).store m.store
          (⟨depth, .execute s, m⟩ :: thereafter (Run.execute depth s m)
            fun _ m' => [⟨depth, .program rest, m'⟩]) :=
        ⟨rfl, goes_bind fun _ _ _ => ⟨rfl, .refl _⟩⟩
      cases depth <;> exact goes
  | _ =>
    cases depth with
    | zero => exact Goes.orderly (Store.Moves.refl _)
    | succ n => first
      | exact orderly_execute (seated trivial)
      | exact orderly_executeAll
      | exact orderly_iterate
      | exact orderly_evaluate
      | exact orderly_evaluateAll
      | exact orderly_call
      | exact orderly_apply

end Point

end ScopeScript
