import ScopeScript.Proofs.Execution.Groundedness

set_option autoImplicit false

namespace ScopeScript

open Run

inductive Obtains : Point → Nat → Method → Instance → Prop
  | property {n e m i m' method name} : evaluate n e m = .ok (.instance i) m' →
      m'.store.field? i name.text = none → i.ofClass.method? name.text = some method →
      Obtains ⟨n + 1, .evaluate (.get e name), m⟩ m'.store.scopes.size method i
  | inherited {distance method n r name m i c} : m.resolution[r.id]? = some distance →
      m.store.getAt? m.environment distance "super" = some (.class c) →
      m.store.getAt? m.environment (distance - 1) "this" = some (.instance i) →
      c.method? name.text = some method →
      Obtains ⟨n + 1, .evaluate (.super r name), m⟩ m.store.scopes.size method i
  | initializer {init n c line arguments m} :
      c.arity = arguments.length → c.method? "init" = some init →
      Obtains ⟨n + 1, .call (.class c) line arguments, m⟩ m.store.scopes.size init
        ⟨m.store.objects.size, c⟩

theorem Opens.obtains {p : Point} {address : Nat} {f : FunctionDecl}
    (opens : Opens p address (.receiver f)) :
    ∃ method i, method.declaration = f ∧ Obtains p address method i := by
  cases opens with
  | property ran noField found => exact ⟨_, _, rfl, .property ran noField found⟩
  | inherited resolved isClass isInstance found =>
    exact ⟨_, _, rfl, .inherited resolved isClass isInstance found⟩
  | initializer same found => exact ⟨_, _, rfl, .initializer same found⟩

structure Closure.Binds (s : Store) (f : Closure) (method : Method) (i : Instance) : Prop where
  declaration : f.declaration = method.declaration
  environment : f.environment.outer = method.environment.chain
  receiver : s.Only f.environment.innermost "this" (.instance i)
  initializer : f.isInitializer = method.declaration.isInitializer

/--
What it gives to look a method up for a receiver: the one of the first class that has it, bound to
the receiver in a new scope. Without such a class there is one fault, and nothing has changed.
-/
inductive Dispatches (c : Class) (i : Instance) (name : Name) (m : Machine) :
    EStateM.Result Halt Machine Value → Prop
  | found {owner : Class} {method : Method} {f : Closure} {m' : Machine} :
      Class.Finds name.text c owner method → f.Binds m'.store method i →
      f.environment.innermost = m.store.scopes.size →
      Dispatches c i name m (.ok (.function f) m')
  | missing : (∀ d, c.Descends d → d.own.methods.get? name.text = none) →
      Dispatches c i name m
        (.error (.fault (.runtime name.line (.undefinedProperty name.text))) m)

variable {n : Nat} {m m' : Machine} {e : Expr} {name : Name} {c : Class} {i : Instance}
  {method : Method}

namespace Run

def access (c : Class) (i : Instance) (name : Name) : Run Value :=
  match c.method? name.text with
  | some method => return .function (← bind method i)
  | none => stop name.line (.undefinedProperty name.text)

theorem property_eq_access (noField : m.store.field? i name.text = none) :
    property i name m = access i.ofClass i name m := by
  have got : (get : Run Machine) m = .ok m m := rfl
  unfold property
  rw [bind_of_ok got]
  simp only [noField]
  rfl

theorem inherited_eq_access {r : Reference} {distance : Nat}
    (resolved : m.resolution[r.id]? = some distance)
    (isClass : m.store.getAt? m.environment distance "super" = some (.class c))
    (isInstance : m.store.getAt? m.environment (distance - 1) "this" = some (.instance i)) :
    inherited r name m = access c i name m := by
  have got : (get : Run Machine) m = .ok m m := rfl
  unfold inherited
  rw [bind_of_ok got]
  simp only [resolved, isClass, isInstance]
  rfl

theorem access_of_method? (found : c.method? name.text = some method) :
    access c i name m = (bind method i >>= fun f => return .function f) m := by
  rw [access, found]

theorem dispatches_access (c : Class) (i : Instance) (name : Name) (m : Machine) :
    Dispatches c i name m (access c i name m) := by
  cases lookup : c.method? name.text with
  | some method =>
    obtain ⟨owner, finds⟩ := Class.method?_eq_some_iff.mp lookup
    rw [access_of_method? lookup, bind_of_ok (bind_eq method i m)]
    exact .found finds ⟨rfl, rfl, only_bind method i m, rfl⟩ rfl
  | none =>
    rw [access, lookup]
    exact .missing (Class.method?_eq_none_iff.mp lookup)

theorem evaluate_get (ran : evaluate n e m = .ok (.instance i) m') :
    evaluate (n + 1) (.get e name) m = property i name m' := by
  unfold evaluate
  exact bind_of_ok ran

theorem evaluate_super (n : Nat) (r : Reference) (name : Name) (m : Machine) :
    evaluate (n + 1) (.super r name) m = inherited r name m := rfl

end Run

-- What the new scopes hold when the point is over.

variable {O : Origins} {p : Point} {r : Reference} {distance address : Nat}

theorem Run.store_access (found : c.method? name.text = some method) :
    (ending (access c i name m)).store = (ending (bind method i m)).store := by
  rw [access_of_method? found, bind_of_ok (bind_eq method i m), bind_eq]
  rfl

theorem Point.after_get (ran : evaluate n e m = .ok (.instance i) m')
    (noField : m'.store.field? i name.text = none)
    (found : i.ofClass.method? name.text = some method) :
    Point.after ⟨n + 1, .evaluate (.get e name), m⟩ = (ending (Run.bind method i m')).store := by
  rw [Point.after, evaluate_get ran, property_eq_access noField, store_access found]

theorem Point.after_super (resolved : m.resolution[r.id]? = some distance)
    (isClass : m.store.getAt? m.environment distance "super" = some (.class c))
    (isInstance : m.store.getAt? m.environment (distance - 1) "this" = some (.instance i))
    (found : c.method? name.text = some method) :
    Point.after ⟨n + 1, .evaluate (.super r name), m⟩ = (ending (Run.bind method i m)).store := by
  rw [Point.after, evaluate_super, inherited_eq_access resolved isClass isInstance,
    store_access found]

theorem Run.only_surroundings (m : Machine) (name : Name) (c : Class) :
    (surroundings m name (some c)).2.Only m.store.scopes.size "super" (.class c) := by
  have size := m.store.size_define m.environment name.text .nil
  exact size ▸ Store.only_dedicate (m.store.define m.environment name.text .nil) m.environment
    "super" (.class c)

theorem Point.after_classDecl {methods : List FunctionDecl}
    (inside : m.environment.innermost < m.store.scopes.size)
    (ran : superclass r m = .ok c m) :
    Point.after ⟨n + 1, .execute (.classDecl name (some r) methods), m⟩ =
      (surroundings m name (some c)).2.newIdentity.2.bindAt m.environment.innermost name.text
        (.class (declared m name methods (some c))) := by
  have declares := @declareClass_of_superclass m name (some r) (some c) methods inside rfl
    fun r' mem c' mem' => by
      cases mem
      cases mem'
      exact ran
  have executed : execute (n + 1) (.classDecl name (some r) methods) m =
      (declareClass name (some r) methods >>= fun _ => return Completion.normal) m := by
    unfold execute
    rfl
  rw [Point.after, executed, bind_of_ok declares]
  rfl

-- An initializer runs right away, but that leaves the scope of the new instance alone.
theorem Point.Witnessed.only_initializer {line : Nat} {arguments : List Value}
    (witnessed : Witnessed O ⟨n + 1, .call (.class c) line arguments, m⟩)
    (grounded : Grounded O ⟨n + 1, .call (.class c) line arguments, m⟩)
    (same : c.arity = arguments.length) (found : c.method? "init" = some method) :
    (Point.after ⟨n + 1, .call (.class c) line arguments, m⟩).Only m.store.scopes.size "this"
      (.instance ⟨m.store.objects.size, c⟩) := by
  have begins : Begins ⟨n + 1, .call (.class c) line arguments, m⟩ ⟨n, .apply _ arguments, _⟩ :=
    .initializer same found rfl rfl
  obtain ⟨-, grounds, steady⟩ := grounded_of_reaches witnessed grounded (Reaches.refl.next begins)
  have inner : m.store.scopes.size ≠ Environment.root.innermost := Nat.ne_of_gt grounded.1.rooted
  exact (grounds.steady.trans steady).only inner (.inl rfl) (only_bind method ⟨_, c⟩ _)

theorem Obtains.only (obtains : Obtains p address method i) (witnessed : p.Witnessed O)
    (grounded : p.Grounded O) : p.after.Only address "this" (.instance i) := by
  cases obtains with
  | property ran noField found => exact Point.after_get ran noField found ▸ only_bind method i _
  | inherited resolved isClass isInstance found =>
    exact Point.after_super resolved isClass isInstance found ▸ only_bind method i _
  | initializer same found => exact witnessed.only_initializer grounded same found

theorem Opens.only (opens : Opens p address (.superclass r)) (grounded : p.Grounded O) :
    ∃ c, Run.superclass r p.machine = .ok c p.machine ∧
      p.after.Only address "super" (.class c) := by
  cases opens with
  | superclass ran =>
    obtain rfl := eq_of_superclass ran
    have inside := Machine.Placed.inside grounded.2.1
    refine ⟨_, ran, fun name => ?_⟩
    rw [Point.after_classDecl inside ran, Store.lookup_bindAt,
      if_neg fun written => absurd written.1 (Nat.ne_of_gt inside)]
    exact only_surroundings _ _ _ name

end ScopeScript
