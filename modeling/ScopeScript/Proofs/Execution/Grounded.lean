import ScopeScript.Proofs.Execution.Dedicated
import ScopeScript.Proofs.Execution.Lineage
import ScopeScript.Proofs.Execution.Sound
import ScopeScript.Proofs.Scope.Inheritance

set_option autoImplicit false

/-!
Machines whose functions and classes all come from declarations that were executed.

A function is either the closure of a function declaration or a method that is bound to an instance,
and behind the scope of the receiver is that of the superclass, as the class of the method had it
when it was made.
-/

namespace ScopeScript

inductive Makes : Point → Class → Prop
  | base {n name methods m} : Makes ⟨n + 1, .execute (.classDecl name none methods), m⟩
      ⟨⟨m.store.identities, name.text, Run.methodTable methods m.environment⟩, []⟩
  | derived {r m c m' n name methods} : Run.superclass r m = .ok c m' →
      Makes ⟨n + 1, .execute (.classDecl name (some r) methods), m⟩
        ⟨⟨m.store.identities, name.text,
          Run.methodTable methods ⟨m.store.scopes.size, m.environment.chain⟩⟩, c.layers⟩

inductive Declares : Point → Closure → Prop
  | intro {n f m} :
      Declares ⟨n + 1, .execute (.funDecl f), m⟩ ⟨m.store.identities, f, m.environment, false⟩

/-- The classes and the functions that programs have declared. -/
structure Origins where
  made : Class → Prop
  declared : Closure → Prop

def Class.Behind (s : Store) (d : Class) (chain : List Nat) : Prop :=
  ∀ address ∈ chain.head?, address ≠ Environment.root.innermost →
    ∀ c, s.lookup address "super" = some (.class c) → d.superclass? = some c

/--
The scopes of an environment up to the global one. Behind the scope of a receiver stand the methods
of one of its classes.
-/
inductive Layered (O : Origins) (s : Store) : List Nat → Prop
  | root : 0 < s.scopes.size → Layered O s [Environment.root.innermost]
  | inner {address : Nat} {outer : List Nat} :
      address < s.scopes.size → address ≠ Environment.root.innermost →
      (∀ i, s.lookup address "this" = some (.instance i) →
        ∃ d, O.made d ∧ i.ofClass.Descends d ∧ d.Behind s outer) →
      Layered O s outer → Layered O s (address :: outer)

/-- The function is a method of the class, bound to the instance in a scope of its own. -/
structure Closure.Bound (s : Store) (f : Closure) (d : Class) (i : Instance) : Prop where
  descends : i.ofClass.Descends d
  method : ∃ env, d.own.methods.get? f.name = some ⟨f.declaration, env⟩ ∧
    f.environment.outer = env.chain
  scope : s.Only f.environment.innermost "this" (.instance i)
  initializer : f.isInitializer = f.declaration.isInitializer

section

variable (O : Origins) (s : Store)

structure Closure.Grounded (f : Closure) : Prop where
  formed : f.declaration.WellFormed
  layered : Layered O s f.environment.chain
  origin : O.declared f ∨ ∃ d i, O.made d ∧ f.Bound s d i

structure Method.Grounded (d : Class) (method : Method) : Prop where
  formed : method.declaration.WellFormed
  layered : Layered O s method.environment.chain
  behind : d.Behind s method.environment.chain

def Class.Grounded (c : Class) : Prop :=
  ∀ d, c.Descends d → O.made d ∧ ∀ name method, d.own.methods.get? name = some method →
    method.declaration.name.text = name ∧ method.Grounded O s d

def Value.Grounded : Value → Prop
  | .function f => f.Grounded O s
  | .class c => c.Grounded O s
  | .instance i => i.ofClass.Grounded O s ∧ i.address < s.objects.size
  | .nil | .bool _ | .number _ | .string _ | .native _ => True

end

def Halt.Proper : Halt → Prop
  | .fault (.runtime _ .invalidSuper) => False
  | .fault (.runtime _ (.undefinedVariable name)) => name ≠ "super"
  | _ => True

variable {O O' : Origins} {s s' : Store} {chain : List Nat} {c d : Class}

-- Grounded things stay so while the store is steady.

theorem Class.Behind.mono (h : d.Behind s chain) (layered : Layered O s chain)
    (steady : s.Steady s') :
    d.Behind s' chain := by
  cases layered with
  | root =>
    rintro _ ⟨⟩ inner
    exact absurd rfl inner
  | inner inside =>
    rintro _ ⟨⟩ inner c found
    exact h _ rfl inner c (steady.lookup_back inside inner (.inr rfl) found)

theorem Layered.mono (h : Layered O s chain) (steady : s.Steady s') : Layered O s' chain := by
  induction h with
  | root rooted => exact .root (Nat.lt_of_lt_of_le rooted steady.scopes)
  | @inner address outer inside inner receiver outer' ih =>
    refine .inner (Nat.lt_of_lt_of_le inside steady.scopes) inner (fun i found => ?_) ih
    obtain ⟨d, made, descends, behind⟩ :=
      receiver i (steady.lookup_back inside inner (.inl rfl) found)
    exact ⟨d, made, descends, behind.mono outer' steady⟩

-- The class was declared in some scope, so the scope of its method is not the global one.
theorem Closure.Bound.inner {f : Closure} {i : Instance} (h : f.Bound s d i)
    (layered : Layered O s f.environment.chain) :
    f.environment.innermost ≠ Environment.root.innermost := by
  obtain ⟨env, -, outer⟩ := h.method
  obtain ⟨identity, declaration, ⟨innermost, links⟩, isInitializer⟩ := f
  simp only at outer
  subst outer
  cases layered with
  | inner _ inner => exact inner

theorem Closure.Bound.mono {f : Closure} {i : Instance} (h : f.Bound s d i)
    (layered : Layered O s f.environment.chain) (steady : s.Steady s') : f.Bound s' d i :=
  ⟨h.descends, h.method, steady.only (h.inner layered) (.inl rfl) h.scope, h.initializer⟩

theorem Closure.Grounded.mono {f : Closure} (h : f.Grounded O s) (steady : s.Steady s') :
    f.Grounded O s' := by
  refine ⟨h.formed, h.layered.mono steady, h.origin.imp id ?_⟩
  rintro ⟨d, i, made, bound⟩
  exact ⟨d, i, made, bound.mono h.layered steady⟩

theorem Method.Grounded.mono {method : Method} (h : method.Grounded O s d) (steady : s.Steady s') :
    method.Grounded O s' d :=
  ⟨h.formed, h.layered.mono steady, h.behind.mono h.layered steady⟩

theorem Class.Grounded.mono (h : c.Grounded O s) (steady : s.Steady s') : c.Grounded O s' := by
  intro d descends
  refine ⟨(h d descends).1, fun name method found => ?_⟩
  exact ⟨((h d descends).2 name method found).1, ((h d descends).2 name method found).2.mono steady⟩

theorem Value.Grounded.mono {value : Value} (h : value.Grounded O s) (steady : s.Steady s') :
    value.Grounded O s' :=
  match value, h with
  | .function _, h => Closure.Grounded.mono h steady
  | .class _, h => Class.Grounded.mono h steady
  | .instance _, h => ⟨h.1.mono steady, Nat.lt_of_lt_of_le h.2 steady.objects⟩
  | .nil, _ | .bool _, _ | .number _, _ | .string _, _ | .native _, _ => trivial

theorem Value.grounded_toValue (value : Literal) : value.toValue.Grounded O s := by
  cases value <;> trivial

theorem Value.Plain.grounded {value : Value} (h : value.Plain) : value.Grounded O s := by
  cases value <;> trivial

-- More origins are known as time goes on.

structure Origins.Below (O O' : Origins) : Prop where
  made : ∀ c, O.made c → O'.made c
  declared : ∀ f, O.declared f → O'.declared f

theorem Layered.grow (h : Layered O s chain) (below : O.Below O') : Layered O' s chain := by
  induction h with
  | root rooted => exact .root rooted
  | inner inside inner receiver _ ih =>
    refine .inner inside inner (fun i found => ?_) ih
    obtain ⟨d, made, rest⟩ := receiver i found
    exact ⟨d, below.made d made, rest⟩

theorem Class.Grounded.grow (h : c.Grounded O s) (below : O.Below O') : c.Grounded O' s := by
  intro d descends
  refine ⟨below.made d (h d descends).1, fun name method found => ?_⟩
  obtain ⟨named, formed, layered, behind⟩ := (h d descends).2 name method found
  exact ⟨named, formed, layered.grow below, behind⟩

theorem Value.Grounded.grow {value : Value} (h : value.Grounded O s) (below : O.Below O') :
    value.Grounded O' s := by
  cases value with
  | function f =>
    obtain ⟨formed, layered, origin⟩ := h
    refine ⟨formed, layered.grow below, origin.imp (below.declared f) ?_⟩
    rintro ⟨d, i, made, bound⟩
    exact ⟨d, i, below.made d made, bound⟩
  | «class» c => exact Class.Grounded.grow h below
  | «instance» i => exact ⟨Class.Grounded.grow h.1 below, h.2⟩
  | nil | bool _ | number _ | string _ | native _ => trivial

structure Machine.Grounded (O : Origins) (m : Machine) : Prop where
  rooted : 0 < m.store.scopes.size
  dedicated : ∀ address, m.store.Dedicated address →
    (∃ i, m.store.Only address "this" (.instance i)) ∨ ∃ c, m.store.Only address "super" (.class c)
  scopes : ∀ address name value, m.store.lookup address name = some value →
    value.Grounded O m.store
  fields : ∀ i name value, m.store.field? i name = some value → value.Grounded O m.store

namespace Machine.Grounded

variable {m : Machine} {address : Nat} {env : Environment} {name : String} {value : Value}

theorem congr (h : m.Grounded O) {m' : Machine} (store : m'.store = m.store) : m'.Grounded O := by
  obtain ⟨rooted, dedicated, scopes, fields⟩ := h
  exact ⟨store ▸ rooted, store ▸ dedicated, store ▸ scopes, store ▸ fields⟩

theorem grow (h : m.Grounded O) (below : O.Below O') : m.Grounded O' :=
  ⟨h.rooted, h.dedicated, fun address name value found =>
    (h.scopes address name value found).grow below,
    fun i name value found => (h.fields i name value found).grow below⟩

theorem ofSteady (h : m.Grounded O) (steady : m.store.Steady s)
    (dedicated : ∀ address, m.store.scopes.size ≤ address → s.Dedicated address →
      (∃ i, s.Only address "this" (.instance i)) ∨ ∃ c, s.Only address "super" (.class c))
    (scopes : ∀ address name value, s.lookup address name = some value →
      value.Grounded O s ∨ m.store.lookup address name = some value)
    (fields : ∀ i name value, s.field? i name = some value →
      value.Grounded O s ∨ ∃ i, m.store.field? i name = some value) :
    { m with store := s }.Grounded O where
  rooted := Nat.lt_of_lt_of_le h.rooted steady.scopes
  dedicated address isDedicated := by
    by_cases fresh : m.store.scopes.size ≤ address
    · exact dedicated address fresh isDedicated
    · have old := steady.back address (Nat.lt_of_not_le fresh) isDedicated
      refine (h.dedicated address old).imp ?_ ?_
      · exact fun ⟨i, only⟩ => ⟨i, steady.only isDedicated.1 (.inl rfl) only⟩
      · exact fun ⟨c, only⟩ => ⟨c, steady.only isDedicated.1 (.inr rfl) only⟩
  scopes address name value found :=
    (scopes address name value found).elim id fun old =>
      (h.scopes address name value old).mono steady
  fields i name value found :=
    (fields i name value found).elim id fun ⟨i, old⟩ => (h.fields i name value old).mono steady

theorem bindAt (h : m.Grounded O) (writable : m.store.Writable address name)
    (grounded : value.Grounded O (m.store.bindAt address name value)) :
    { m with store := m.store.bindAt address name value }.Grounded O := by
  have steady := Store.steady_bindAt writable value
  refine h.ofSteady steady (fun other fresh dedicated => ?_) (fun other key found old => ?_)
    fun i key _ found => .inr ⟨i, found⟩
  · have inside := ((Store.dedicated_bindAt_iff writable other).mp dedicated).lt_size
    exact absurd fresh (Nat.not_le_of_lt inside)
  · rw [Store.lookup_bindAt] at old
    split at old
    · exact .inl (Option.some.inj old ▸ grounded)
    · exact .inr old

theorem enclose (h : m.Grounded O) (env : Environment) :
    { m with store := (m.store.enclose env).2 }.Grounded O := by
  refine h.ofSteady (m.store.steady_enclose env) (fun other fresh dedicated => ?_)
    (fun other key value found => .inr ?_) fun i key _ found => .inr ⟨i, found⟩
  · simp [Store.Dedicated, Store.lookup_enclose, Store.lookup_eq_none fresh] at dedicated
  · rwa [Store.lookup_enclose] at found

theorem dedicate (h : m.Grounded O) (env : Environment) {word : String}
    (value_eq : (∃ i, word = "this" ∧ value = .instance i) ∨ ∃ c, word = "super" ∧ value = .class c)
    (grounded : value.Grounded O m.store) :
    { m with store :=
        (m.store.enclose env).2.define (m.store.enclose env).1 word value }.Grounded O := by
  have steady := m.store.steady_dedicate env word value
  have only := m.store.only_dedicate env word value
  refine h.ofSteady steady (fun other fresh dedicated => ?_) (fun other key found old => ?_)
    fun i key _ found => .inr ⟨i, found⟩
  · have size : ((m.store.enclose env).2.define (m.store.enclose env).1 word value).scopes.size =
        m.store.scopes.size + 1 := by
      rw [Store.size_define]
      simp [Store.enclose]
    have here : other = m.store.scopes.size := by
      have inside := dedicated.lt_size
      omega
    subst here
    refine value_eq.imp ?_ ?_
    · rintro ⟨i, rfl, rfl⟩
      exact ⟨i, only⟩
    · rintro ⟨c, rfl, rfl⟩
      exact ⟨c, only⟩
  · rw [Store.lookup_dedicate] at old
    split at old
    · split at old
      · exact .inl (Option.some.inj old ▸ grounded.mono steady)
      · cases old
    · exact .inr old

theorem newIdentity (h : m.Grounded O) : { m with store := m.store.newIdentity.2 }.Grounded O :=
  h.ofSteady m.store.steady_newIdentity
    (fun _ fresh dedicated => absurd fresh (Nat.not_le_of_lt dedicated.lt_size)) (fun _ _ _ => .inr)
    fun i _ _ found => .inr ⟨i, found⟩

theorem newInstance (h : m.Grounded O) (c : Class) :
    { m with store := (m.store.newInstance c).2 }.Grounded O :=
  h.ofSteady (m.store.steady_newInstance c)
    (fun _ fresh dedicated => absurd fresh (Nat.not_le_of_lt dedicated.lt_size)) (fun _ _ _ => .inr)
    fun i _ _ found => .inr ⟨i, Store.field?_newInstance found⟩

theorem setField (h : m.Grounded O) (i : Instance) (grounded : value.Grounded O m.store) :
    { m with store := m.store.setField i name value }.Grounded O := by
  have steady := m.store.steady_setField i name value
  refine h.ofSteady steady
    (fun _ fresh dedicated => absurd fresh (Nat.not_le_of_lt dedicated.lt_size)) (fun _ _ _ => .inr)
    fun other key value' found => ?_
  rcases Store.field?_setField found with rfl | old
  · exact .inl (grounded.mono steady)
  · exact .inr ⟨other, old⟩

theorem receiver (h : m.Grounded O) (inner : address ≠ Environment.root.innermost)
    (found : m.store.lookup address "this" = some value) :
    ∃ i, value = .instance i ∧ m.store.Only address "this" (.instance i) := by
  rcases h.dedicated address (.of_lookup inner (.inl rfl) found) with ⟨i, only⟩ | ⟨c, only⟩
  · exact ⟨i, (only.eq_of_lookup found).2, only⟩
  · exact absurd (only.eq_of_lookup found).1 (by decide)

theorem superclass (h : m.Grounded O) (inner : address ≠ Environment.root.innermost)
    (found : m.store.lookup address "super" = some value) : ∃ c, value = .class c := by
  rcases h.dedicated address (.of_lookup inner (.inr rfl) found) with ⟨i, only⟩ | ⟨c, only⟩
  · exact absurd (only.eq_of_lookup found).1 (by decide)
  · exact ⟨c, (only.eq_of_lookup found).2⟩

end Machine.Grounded

end ScopeScript
