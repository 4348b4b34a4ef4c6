import ScopeScript.Proofs.Sessions.Receivers

set_option autoImplicit false

namespace ScopeScript

open Run

namespace History

variable {h : History} {n : Nat} {m : Machine} {r : Reference} {name : Name}

/--
The reference stands in the method `f` of the class with this header, inside of nothing but blocks
and functions. As many scopes out from the current one are those of the receiver and of the
superclass.
-/
inductive Surrounds (h : History) (m : Machine) (r : Reference) (f : FunctionDecl)
    (header : Reference) (receiver superclass : Nat) : Prop
  | intro {o : Occurrence} {inside outer : List Frame} {front back : List Nat} :
      h.Knows o → o.reference = r → o.use = .super →
      o.frames = inside ++ ⟨.receiver f, ["this"]⟩ :: ⟨.superclass header, ["super"]⟩ :: outer →
      (∀ frame ∈ inside, frame.Local) →
      m.environment.chain = front ++ receiver :: superclass :: back →
      front.length = inside.length → h.Surrounds m r f header receiver superclass

structure Received (h : History) (receiver : Nat) (f : FunctionDecl) (i : Instance) : Prop where
  point : ∃ p method, h.Visits p ∧ Obtains p receiver method i ∧ method.declaration = f
  only : ∀ p method i', h.Visits p → Obtains p receiver method i' → i' = i

structure Inherited (h : History) (superclass : Nat) (header : Reference) (c : Class) : Prop where
  point : ∃ p, h.Visits p ∧ Opens p superclass (.superclass header)
  only : ∀ p header', h.Visits p → Opens p superclass (.superclass header') →
    Run.superclass header' p.machine = .ok c p.machine

theorem Arises.received (arises : h.Arises) {receiver : Nat} {f : FunctionDecl} {i : Instance}
    (activated : h.Activates receiver (.receiver f))
    (current : m.store.Steady h.session.machine.store)
    (inner : receiver ≠ Environment.root.innermost)
    (this : m.store.lookup receiver "this" = some (.instance i)) : h.Received receiver f i := by
  have only : ∀ p method i', h.Visits p → Obtains p receiver method i' → i' = i := by
    intro p method i' visited obtains
    obtain ⟨grounded, -, last⟩ := arises.visited visited
    have held := obtains.only (arises.witnessed visited) grounded
    cases last.eq_of_only current inner (.inl rfl) held this
    rfl
  obtain ⟨p, visited, opens⟩ := activated
  obtain ⟨method, i', same, obtains⟩ := opens.obtains
  obtain rfl := only p method i' visited obtains
  exact ⟨⟨p, method, visited, obtains, same⟩, only⟩

theorem Arises.inherited (arises : h.Arises) {superclass : Nat} {header : Reference} {c : Class}
    (activated : h.Activates superclass (.superclass header))
    (current : m.store.Steady h.session.machine.store)
    (inner : superclass ≠ Environment.root.innermost)
    (super : m.store.lookup superclass "super" = some (.class c)) :
    h.Inherited superclass header c := by
  refine ⟨activated, fun p header' visited opens => ?_⟩
  obtain ⟨grounded, -, last⟩ := arises.visited visited
  obtain ⟨c', ran, held⟩ := opens.only grounded
  cases last.eq_of_only current inner (.inr rfl) held super
  exact ran

theorem Arises.dispatches_super (arises : h.Arises)
    (visited : h.Visits ⟨n + 1, .evaluate (.super r name), m⟩) :
    ∃ f header receiver superclass i c,
      h.Surrounds m r f header receiver superclass ∧ h.Received receiver f i ∧
      h.Inherited superclass header c ∧
      (∃ d, h.origins.made d ∧ i.ofClass.Descends d ∧ d.superclass? = some c) ∧
      Dispatches c i name m (Run.evaluate (n + 1) (.super r name) m) := by
  obtain ⟨S, v, below, -, fits, -⟩ := arises.consistent.fits visited
  have known := fits.2.2 _ List.mem_cons_self
  obtain ⟨inside, f, header, receiver, superclass, scopes⟩ :=
    fits.superScopes (arises.derived (below.known _ known) rfl)
  obtain ⟨⟨grounded, placed, -⟩, grounds, last⟩ := arises.visited visited
  have current := grounds.steady.trans last
  obtain ⟨inner, inner'⟩ := scopes.inner placed.layered
  obtain ⟨i, d, c, this, super, made, descends, above⟩ := scopes.values grounded placed.layered
  obtain ⟨outer, layout⟩ := scopes.layout
  obtain ⟨front, back, links, long, -⟩ := scopes.links
  refine ⟨f, header, receiver, superclass, i, c, ?_, ?_, ?_, ⟨d, made, descends, above⟩, ?_⟩
  · exact .intro (below.known _ known) rfl rfl layout scopes.locals links long
  · exact arises.received (below.activated _ _ scopes.opened.1) current inner this
  · exact arises.inherited (below.activated _ _ scopes.opened.2) current inner' super
  · rw [evaluate_super, inherited_eq_access scopes.resolved
      (scopes.ancestor_superclass ▸ super) (scopes.ancestor_receiver ▸ this)]
    exact dispatches_access c i name m

theorem Arises.proper (arises : h.Arises) {p : Point} {halt : Halt} (visited : h.Visits p)
    (halts : p.Halts halt) : halt.Proper :=
  (arises.visited visited).2.1.proper halts

/--
Methods are found by the classes that the program has declared, and bound to where they come from.

A property that is no field is the method of the first class upwards from that of the object.
Through `super` it is the one of the first class upwards from the superclass that the innermost
class around had when its declaration was executed, and the receiver is the instance that the
running method `f` was got from. If no class has the method there is this one fault, and nowhere is
a superclass or a receiver missing.
-/
structure Dispatched (h : History) : Prop where
  property : ∀ n e name m i m', h.Visits ⟨n + 1, .evaluate (.get e name), m⟩ →
    Run.evaluate n e m = .ok (.instance i) m' → m'.store.field? i name.text = none →
    (∀ d, i.ofClass.Descends d → h.origins.made d) ∧
      Dispatches i.ofClass i name m' (Run.evaluate (n + 1) (.get e name) m)
  inherited : ∀ n r name m, h.Visits ⟨n + 1, .evaluate (.super r name), m⟩ →
    ∃ f header receiver superclass i c,
      h.Surrounds m r f header receiver superclass ∧ h.Received receiver f i ∧
      h.Inherited superclass header c ∧
      (∃ d, h.origins.made d ∧ i.ofClass.Descends d ∧ d.superclass? = some c) ∧
      Dispatches c i name m (Run.evaluate (n + 1) (.super r name) m)
  unreachable : ∀ p line, h.Visits p → ¬ p.Halts (.fault (.runtime line .invalidSuper)) ∧
    ¬ p.Halts (.fault (.runtime line (.undefinedVariable "super")))

theorem Arises.dispatched (arises : h.Arises) : h.Dispatched where
  property n e name m i m' visited ran noField := by
    have object := (arises.visited (visited.next .owner)).2.1.result _ _ ran
    refine ⟨fun d descends => (object.1 d descends).1, ?_⟩
    rw [evaluate_get ran, property_eq_access noField]
    exact dispatches_access i.ofClass i name m'
  inherited n r name m visited := arises.dispatches_super visited
  unreachable p line visited :=
    ⟨fun halts => arises.proper visited halts, fun halts => arises.proper visited halts rfl⟩

def isInherited (h : History) : Bool :=
  match h.accepted with
  | [[a, b, .expression (.call callee _ [])]] =>
    match Run.execute 15 a h.session.machine with
    | .ok _ m =>
      match Run.execute 15 b m with
      | .ok _ m₁ =>
        match Run.evaluate 13 callee m₁ with
        | .ok (.function f) m₂ =>
          match f.declaration.body with
          | [.expression (.super r name)] =>
            match activation f [] m₂ with
            | .ok env m₃ =>
              f.arity == 0 && match
                  Run.evaluate 9 (.super r name) { m₃ with environment := env } with
                | .ok _ _ => true
                | .error _ _ => false
            | .error _ _ => false
          | _ => false
        | _ => false
      | .error _ _ => false
    | .error _ _ => false
  | _ => false

theorem reaches_only_inherited : ∃ body r name m,
    body ∈ (only "class A{m(){}}class B<A{m(){super.m;}}B().m();").accepted ∧
    Reaches ⟨15, .program body,
        (only "class A{m(){}}class B<A{m(){super.m;}}B().m();").session.machine⟩
      ⟨9, .evaluate (.super r name), m⟩ ∧
    ∃ value m', Run.evaluate 9 (.super r name) m = .ok value m' := by
  have shape : isInherited (only "class A{m(){}}class B<A{m(){super.m;}}B().m();") = true := by
    decide +kernel
  unfold isInherited at shape
  split at shape
  case h_2 => cases shape
  next a b callee line accepted =>
  split at shape
  case h_2 => cases shape
  next first =>
  split at shape
  case h_2 => cases shape
  next second =>
  split at shape
  case h_2 => cases shape
  next f m₂ evaluated =>
  split at shape
  case h_2 => cases shape
  next r name body =>
  split at shape
  case h_2 => cases shape
  next env m₃ activated =>
  split at shape
  case h_2 => simp at shape
  next value m' ran =>
  have same : f.arity = ([] : List Value).length := by simpa using shape
  have start : Reaches ⟨15, .program [a, b, .expression (.call callee line [])],
      (only "class A{m(){}}class B<A{m(){super.m;}}B().m();").session.machine⟩ _ := .refl
  have third := ((start.next (.programTail first)).next (.programTail second)).next .programHead
  have called := (third.next .expression).next (.called evaluated rfl)
  have applied := (called.next (.function same)).next (.applied activated)
  rw [body] at applied
  exact ⟨_, r, name, _, accepted ▸ List.mem_cons_self, (applied.next .head).next .expression,
    value, m', ran⟩

theorem Arises.dispatched_override : ∃ (h : History) (r : Reference) (name : Name) (m m' : Machine)
    (c owner : Class) (method : Method) (i : Instance) (f : Closure), h.Arises ∧
    h.Visits ⟨9, .evaluate (.super r name), m⟩ ∧
    Run.evaluate 9 (.super r name) m = .ok (.function f) m' ∧
    Class.Finds name.text c owner method ∧ f.Binds m'.store method i := by
  obtain ⟨body, r, name, m, accepted, reaches, value, m', ran⟩ := reaches_only_inherited
  have arises := (arises_only _).execute 15 accepted
  have visited := visits_execute reaches
  obtain ⟨f, header, receiver, superclass, i, c, -, -, -, -, dispatches⟩ :=
    arises.dispatched.inherited _ _ _ _ visited
  rw [ran] at dispatches
  cases dispatches with
  | found finds binds =>
    exact ⟨_, r, name, m, m', c, _, _, i, _, arises, visited, ran, finds, binds⟩

end History

end ScopeScript
