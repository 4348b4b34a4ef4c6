import ScopeScript.Proofs.Sessions.Timeline

set_option autoImplicit false

namespace ScopeScript

open Run

/-- The reference is assigned to in the initializer of the very variable that it stands for. -/
structure Occurrence.InOwnInitializer (o : Occurrence) : Prop where
  assigned : o.use = .assigned
  inner : o.frames ≠ []
  fresh : o.fresh = some o.name

theorem Occurrence.address?_of_not_own {o : Occurrence} (assigned : o.use = .assigned)
    (other : ¬ o.InOwnInitializer) : o.address? = Frame.address? o.frames o.name := by
  unfold address?
  cases layers : o.frames with
  | nil => rfl
  | cons frame outer =>
    refine Frame.address?_declare_of_notMem (fun mem => other ?_) _
    exact ⟨assigned, by simp [layers], Option.mem_toList.mp mem⟩

theorem Occurrence.InOwnInitializer.address?_eq {o : Occurrence} (own : o.InOwnInitializer) :
    o.address? = some 0 := by
  unfold address?
  cases layers : o.frames with
  | nil => exact absurd layers own.inner
  | cons frame outer => simp [own.fresh, Frame.declare, Frame.address?_cons]

open Moment Point

namespace History

variable {h : History} {n : Nat} {r : Reference} {e : Expr} {m : Machine} {distance : Nat}

theorem Arises.bound_of_assign (arises : h.Arises)
    (visited : h.Visits ⟨n + 1, .evaluate (.assign r e), m⟩)
    (resolved : m.resolution[r.id]? = some distance) :
    (m.store.lookup (m.environment.ancestor distance).innermost r.name.text).isSome ∨
      distance = 0 ∧ ∃ o, h.Knows o ∧ o.reference = r ∧ o.InOwnInitializer := by
  obtain ⟨S, v, below, -, ⟨sound, mirrors, knows⟩, -⟩ := arises.consistent.fits visited
  have known := knows _ List.mem_cons_self
  have recorded := (sound.recorded _ known).1.symm.trans resolved
  by_cases own : Occurrence.InOwnInitializer ⟨r, .assigned, v.frames, v.fresh⟩
  · rw [own.address?_eq] at recorded
    exact .inr ⟨(Option.some.inj recorded).symm, _, below.known _ known, rfl, own⟩
  · rw [Occurrence.address?_of_not_own rfl own] at recorded
    obtain ⟨address, -, value, link, -, -, found⟩ := mirrors.bound_of_address? recorded
    rw [Environment.innermost_ancestor link]
    exact .inl (Option.isSome_iff_exists.mpr ⟨value, found⟩)

structure Assignments (h : History) : Prop where
  /-- When a resolved assignment writes, it overwrites, unless it stands in the initializer of its
  own variable. -/
  overwrites : ∀ {n r e m value m₁ distance}, h.Visits ⟨n + 1, .evaluate (.assign r e), m⟩ →
    m.resolution[r.id]? = some distance → Run.evaluate n e m = .ok value m₁ →
    (m₁.store.lookup (m.environment.ancestor distance).innermost r.name.text).isSome ∨
      distance = 0 ∧ ∃ o, h.Knows o ∧ o.reference = r ∧ o.InOwnInitializer
  /-- A scope that is there gets a new name by a declaration, or by such an assignment. -/
  named : ∀ {root before u v behind a x}, root ∈ h.roots →
    root.moments = before ++ u :: v :: behind → a < u.store.scopes.size →
    u.store.lookup a x = none → (v.store.lookup a x).isSome →
    ∃ p, v = .leave p ∧ (p.Declares a x ∨
      ∃ o, p.Assigns o.reference a ∧ o.name = x ∧ h.Knows o ∧ o.InOwnInitializer)
  /-- A new scope has the parameters of a call, a receiver or a superclass, and nothing else. -/
  opened : ∀ {root before u v behind a x}, root ∈ h.roots →
    root.moments = before ++ u :: v :: behind → u.store.scopes.size ≤ a →
    (v.store.lookup a x).isSome →
    ∃ p site, (u = .enter p ∨ v = .leave p) ∧ Opens p a site ∧ x ∈ site.names

theorem Arises.follows (arises : h.Arises) {root : Point} (mem : root ∈ h.roots)
    {before behind : List Moment} {u v : Moment}
    (order : root.moments = before ++ u :: v :: behind) : u.Follows v := by
  have chain := Point.isChain_moments root (arises.seated_root mem)
  rw [order] at chain
  exact (List.isChain_cons_cons.mp (List.isChain_append.mp chain).2.1).1

theorem after_of_absent (unresolved : m.resolution[r.id]? = none)
    (absent : (onset ⟨n + 1, .evaluate (.assign r e), m⟩).lookup Environment.root.innermost
      r.name.text = none) :
    after ⟨n + 1, .evaluate (.assign r e), m⟩ = onset ⟨n + 1, .evaluate (.assign r e), m⟩ := by
  change (ending ((Run.evaluate n e >>= fun value => do assign r value; return value) m)).store =
    (ending (Run.evaluate n e m)).store
  change (ending (Run.evaluate n e m)).store.lookup _ _ = none at absent
  cases ran : Run.evaluate n e m with
  | error halt m₁ => rw [bind_of_error ran, ending]
  | ok value m₁ =>
    rw [ran] at absent
    have unresolved₁ : m₁.resolution[r.id]? = none :=
      ((keeps_evaluate n e).of_ok ran).resolution ▸ unresolved
    have nowhere : m₁.store.binder? .root r.name.text = none := by
      simpa [Store.binder?, Environment.chain, Environment.root, ending] using absent
    have refused : assign r value m₁ = .error (.fault (Store.undefined r.name)) m₁ := by
      simp only [assign, unresolved₁, assignFrom, nowhere]
    rw [bind_of_ok ran, bind_of_error refused]
    rfl

theorem Arises.assignments (arises : h.Arises) : h.Assignments where
  overwrites visited resolved ran :=
    (arises.bound_of_assign visited resolved).imp_left
      (((keeps_evaluate _ _).of_ok ran).store.bound _ _)
  named {root before u v behind a x} mem order inside absent bound := by
    have follows := arises.follows mem order
    obtain ⟨p, rfl, sets⟩ := follows.old a x inside fun same => by simp [same, absent] at bound
    refine ⟨p, rfl, sets.imp_right ?_⟩
    rintro ⟨r, assigns, rfl⟩
    have visited : h.Visits p := by
      refine ⟨root, mem, Point.mem_moments (u := .leave p) |>.mp ?_⟩
      exact order ▸ List.mem_append_right _ (List.mem_cons_of_mem _ List.mem_cons_self)
    have ends := follows.ends p rfl
    rw [ends] at absent
    cases assigns with
    | @resolved distance n _ e m resolved =>
      rcases arises.bound_of_assign visited resolved with before | ⟨-, o, known, rfl, own⟩
      · have still := (keeps_evaluate n e m).store.bound _ _ before
        simp [show (ending (Run.evaluate n e m)).store.lookup _ _ = none from absent] at still
      · exact ⟨o, .resolved resolved, rfl, known, own⟩
    | global unresolved =>
      rw [Moment.store, after_of_absent unresolved absent, absent] at bound
      cases bound
  opened mem order outside bound := by
    obtain ⟨p, either, site, opens, named⟩ := (arises.follows mem order).new _ _ outside bound
    exact ⟨p, site, either, opens, named⟩

def isOwnAssignment (h : History) : Bool :=
  match h.accepted with
  | [[.block [.varDecl _ (some (.assign r (.literal _)))]]] =>
    h.session.machine.resolution[r.id]? == some 0
  | _ => false

theorem visits_own_assignment : ∃ body r value m, body ∈ (only "{var a=a=nil;}").accepted ∧
    ((only "{var a=a=nil;}").execute 6 body).Visits ⟨3, .evaluate (.assign r (.literal value)), m⟩ ∧
    m.resolution[r.id]? = some 0 ∧
    (m.environment.ancestor 0).innermost ≠ Environment.root.innermost ∧
    m.store.lookup (m.environment.ancestor 0).innermost r.name.text = none := by
  have shape : isOwnAssignment (only "{var a=a=nil;}") = true := by
    decide +kernel
  unfold isOwnAssignment at shape
  split at shape
  case h_2 => cases shape
  next name r value accepted =>
  have start : Reaches ⟨6, .program [.block [.varDecl name (some (.assign r (.literal value)))]],
      (only "{var a=a=nil;}").session.machine⟩ _ := .refl
  have inside := (start.next .programHead).next (.block rfl)
  refine ⟨_, r, value, _, accepted ▸ List.mem_cons_self,
    visits_execute ((inside.next .head).next .initial), by simpa using shape, ?_, ?_⟩
  · rw [Environment.ancestor]
    exact Nat.ne_of_gt (arises_only "{var a=a=nil;}").founded.machine.rooted
  · rw [Environment.ancestor]
    exact (Store.lookup_enclose _ .root _ _).trans (Store.lookup_eq_none (Nat.le_refl _) _)

/-- In a block the variable is assigned to before it is there, and it is there from then on. -/
theorem assigned_before_bound : ∃ (h : History) (r : Reference) (literal : Literal) (m : Machine)
    (value : Value), h.Arises ∧ h.Visits ⟨3, .evaluate (.assign r (.literal literal)), m⟩ ∧
    m.resolution[r.id]? = some 0 ∧ Run.evaluate 2 (.literal literal) m = .ok value m ∧
    m.store.lookup (m.environment.ancestor 0).innermost r.name.text = none ∧
    (after ⟨3, .evaluate (.assign r (.literal literal)), m⟩).lookup
      (m.environment.ancestor 0).innermost r.name.text = some value := by
  obtain ⟨body, r, literal, m, accepted, visited, resolved, inner, absent⟩ := visits_own_assignment
  have arises := (arises_only "{var a=a=nil;}").execute 6 accepted
  have assigns : Assigns ⟨3, .evaluate (.assign r (.literal literal)), m⟩ r _ := .resolved resolved
  refine ⟨_, r, literal, m, literal.toValue, arises, visited, resolved, rfl, absent, ?_⟩
  have written : assign r literal.toValue m = .ok () { m with
      store := m.store.assignAt m.environment 0 r.name.text literal.toValue } := by
    simp only [assign, resolved]
  refine assigns.lookup_after inner ?_
    (.intro (bind_of_ok (f := fun _ => return literal.toValue) written))
  rw [Environment.ancestor]
  exact (arises.visited visited).1.2.1.inside

theorem Arises.assignments_own : ∃ (h : History) (o : Occurrence), h.Arises ∧ h.Knows o ∧
    o.InOwnInitializer := by
  obtain ⟨body, r, literal, m, accepted, visited, resolved, -, absent⟩ := visits_own_assignment
  have arises := (arises_only "{var a=a=nil;}").execute 6 accepted
  rcases arises.assignments.overwrites visited resolved rfl with bound | ⟨-, o, known, -, own⟩
  · rw [absent] at bound
    cases bound
  · exact ⟨_, o, arises, known, own⟩

end History

end ScopeScript
