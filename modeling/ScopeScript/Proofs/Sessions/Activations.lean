import ScopeScript.Proofs.Sessions.Timeline

set_option autoImplicit false

namespace ScopeScript

open Run

theorem Environment.innermost_ancestor_mem (env : Environment) (distance : Nat) :
    (env.ancestor distance).innermost ∈ env.chain := by
  induction distance generalizing env with
  | zero => exact List.mem_cons_self
  | succ distance ih =>
    obtain ⟨a, outer⟩ := env
    cases outer with
    | nil => exact List.mem_cons_self
    | cons b outer => exact List.mem_cons_of_mem _ (ih ⟨b, outer⟩)

theorem Layered.lt_of_mem {O : Origins} {s : Store} {chain : List Nat} (h : Layered O s chain)
    {address : Nat} (mem : address ∈ chain) : address < s.scopes.size := by
  induction h with
  | root rooted => exact List.mem_singleton.mp mem ▸ rooted
  | inner inside _ _ _ ih =>
    rcases List.mem_cons.mp mem with rfl | mem
    · exact inside
    · exact ih mem

namespace Point

inductive Consults : Point → Reference → Nat → Prop
  | intro {distance n r m} : m.resolution[r.id]? = some distance →
      Consults ⟨n + 1, .evaluate (.var r), m⟩ r (m.environment.ancestor distance).innermost

inductive Turn (loop : Point) : Nat → Point → Prop
  | first : Turn loop 0 loop
  | next {k q q'} : Turn loop k q → Begins q q' → q'.task.IsIterate → Turn loop (k + 1) q'

inductive Iteration (loop : Point) (body : List Stmt) : Nat → Point → Prop
  | intro {k q n m i} : Turn loop k q → Begins q ⟨n, .execute (.block body), m⟩ →
      Begins ⟨n, .execute (.block body), m⟩ i → Iteration loop body k i

variable {p q : Point} {r : Reference} {a : Nat} {value : Value}

theorem evaluate_var {n : Nat} {m : Machine} {distance : Nat}
    (resolved : m.resolution[r.id]? = some distance) :
    evaluate (n + 1) (.var r) m = ofExcept (m.store.readAt m.environment distance r.name) m := by
  change lookUp r m = _
  simp only [lookUp, resolved]

theorem Consults.yields_iff (consults : p.Consults r a) :
    p.Yields value ↔ p.machine.store.lookup a r.name.text = some value := by
  cases consults with
  | @intro distance n _ m resolved =>
    constructor
    · rintro ⟨ran⟩
      rw [evaluate_var resolved, Store.readAt] at ran
      split at ran
      next found =>
        cases ran
        exact found
      · cases ran
    · intro found
      have found : m.store.getAt? m.environment distance r.name.text = some value := found
      have ran := evaluate_var (n := n) resolved
      rw [Store.readAt, found] at ran
      exact .intro ran

-- The turns of a loop.

namespace Turn

variable {loop : Point} {n k : Nat} {condition : Expr} {s : Stmt} {step : Option Expr} {m : Machine}

theorem reaches (turn : Turn loop k q) : Reaches loop q := by
  induction turn with
  | first => exact .refl
  | next _ begins _ ih => exact ih.next begins

theorem iterate (turn : Turn ⟨n, .iterate condition s step, m⟩ k q) :
    q.task = .iterate condition s step ∧ q.machine.environment = m.environment ∧
      q.depth + k = n := by
  induction turn with
  | first => exact ⟨rfl, rfl, rfl⟩
  | @next k q q' _ begins repeats ih =>
    obtain ⟨task, environment, depth⟩ := ih
    cases begins with
    | loop => cases task
    | again tested _ ran _ =>
      cases task
      have kept := ((keeps_evaluate _ _).of_ok tested).trans ((keeps_execute _ _).of_ok ran)
      exact ⟨rfl, kept.environment.trans environment, by simp only at depth ⊢; omega⟩
    | againStepped tested _ ran _ stepped =>
      cases task
      have kept := (((keeps_evaluate _ _).of_ok tested).trans ((keeps_execute _ _).of_ok ran)).trans
        ((keeps_evaluate _ _).of_ok stepped)
      exact ⟨rfl, kept.environment.trans environment, by simp only at depth ⊢; omega⟩
    | _ => cases repeats

end Turn

theorem Iteration.opens {i : Point} {body : List Stmt} {n k : Nat} {condition : Expr} {s : Stmt}
    {step : Option Expr} {m : Machine}
    (iteration : Iteration ⟨n, .iterate condition s step, m⟩ body k i) :
    ∃ b, Reaches ⟨n, .iterate condition s step, m⟩ b ∧ Begins b i ∧ b.depth + k + 1 = n ∧
      Opens b i.machine.environment.innermost (.block body) ∧
      i.machine.environment.outer = m.environment.chain := by
  obtain ⟨turn, begins, inside⟩ := iteration
  obtain ⟨task, environment, depth⟩ := turn.iterate
  refine ⟨_, turn.reaches.next begins, inside, ?_⟩
  cases begins with
  | body tested holds =>
    have kept := (keeps_evaluate _ _).of_ok tested
    cases inside with
    | block made =>
      cases made
      refine ⟨by simp only at depth ⊢; omega, .block, ?_⟩
      exact congrArg Environment.chain (kept.environment.trans environment)
  | _ => cases task

end Point

open Moment Point

namespace History

/-- What is claimed of activations, at all moments of a history. -/
structure Activations (h : History) : Prop where
  /-- Whatever was executed or called at two different times had two different scopes. -/
  apart : ∀ {before between behind p q a b site site'},
    h.moments = before ++ .enter p :: (between ++ .enter q :: behind) →
    Opens p a site → Opens q b site' → a ≠ b
  /-- The statements of a block run in the scope made for that, inside the current environment. -/
  block : ∀ {n body m q}, Begins ⟨n + 1, .execute (.block body), m⟩ q →
    ∃ a, Opens ⟨n + 1, .execute (.block body), m⟩ a (.block body) ∧
      q.machine.environment = ⟨a, m.environment.chain⟩
  /-- The body of a function runs in the scope made for the call, inside the environment that the
  function has. -/
  call : ∀ {n f arguments m q}, Begins ⟨n + 1, .apply f arguments, m⟩ q →
    ∃ a, Opens ⟨n + 1, .apply f arguments, m⟩ a (.call f.declaration) ∧
      q.machine.environment = ⟨a, f.environment.chain⟩
  /-- A function has the environment in which it was declared. -/
  closure : ∀ {n f m}, h.Visits ⟨n + 1, .execute (.funDecl f), m⟩ →
    ∃ identity, (after ⟨n + 1, .execute (.funDecl f), m⟩).lookup m.environment.innermost
      f.name.text = some (.function ⟨identity, f, m.environment, false⟩)
  /-- As long as only other scopes are written to, a variable reads the same. -/
  independent : ∀ {before between behind q q' r r' b},
    h.moments = before ++ .enter q :: (between ++ .enter q' :: behind) →
    q.Consults r b → q'.Consults r' b → r'.name.text = r.name.text →
    b ≠ Environment.root.innermost →
    (∀ w a name, .leave w ∈ between → w.Sets a name → a ≠ b) →
    ∀ value, q'.Yields value ↔ q.Yields value
  /-- What was assigned to a variable is read back, wherever that is resolved to the same scope,
  until the variable is set again. -/
  shared : ∀ {before between behind w q r r' a value},
    h.moments = before ++ .leave w :: (between ++ .enter q :: behind) →
    w.Assigns r a → w.Yields value → q.Consults r' a → r'.name.text = r.name.text →
    a ≠ Environment.root.innermost →
    (∀ w', .leave w' ∈ between → ¬ w'.Sets a r.name.text) → q.Yields value
  /-- The statements in the block of a `for` loop see the one scope of the loop variable, and each
  time they run they have another scope inside of that. -/
  loop : ∀ {n m x e c body step env m₁ m₂}, newScope m = .ok env m₁ →
    Run.execute (n + 2) (.varDecl x e) { m₁ with environment := env } = .ok .normal m₂ →
    h.Visits ⟨n + 4, .execute (.block [.varDecl x e, .loop c (.block body) step]), m⟩ →
    ∃ a, Opens ⟨n + 4, .execute (.block [.varDecl x e, .loop c (.block body) step]), m⟩ a
        (.block [.varDecl x e, .loop c (.block body) step]) ∧
      (m₂.store.lookup a x.text).isSome ∧
      ∀ k i, Iteration ⟨n, .iterate c (.block body) step, m₂⟩ body k i → h.Visits i ∧
        i.machine.environment.outer = a :: m.environment.chain ∧
        i.machine.environment.innermost ≠ a ∧
        ∀ k' i', Iteration ⟨n, .iterate c (.block body) step, m₂⟩ body k' i' → k' ≠ k →
          i'.machine.environment.innermost ≠ i.machine.environment.innermost

variable {h : History} {p q : Point} {a b : Nat}

theorem Visits.reaches (visited : h.Visits p) (reaches : Reaches p q) : h.Visits q := by
  obtain ⟨root, mem, before⟩ := visited
  exact ⟨root, mem, before.trans reaches⟩

theorem Arises.ne_of_opens (arises : h.Arises) (visited : h.Visits p) (visited' : h.Visits q)
    (differs : p ≠ q) {site site' : Site} (opens : Opens p a site) (opens' : Opens q b site') :
    a ≠ b := by
  have symmetric : Std.Symm fun u v : Moment => ∀ a b, u.Makes a → v.Makes b → a ≠ b :=
    ⟨fun _ _ apart a b here there => (apart b a there here).symm⟩
  have started : enter p ∈ h.moments := mem_moments.mpr visited
  have started' : enter q ∈ h.moments := mem_moments.mpr visited'
  exact arises.pairwise_moments.forall started started' (fun same => differs (enter.inj same)) a b
    ⟨p, site, rfl, opens⟩ ⟨q, site', rfl, opens'⟩

theorem Arises.lt_of_consults (arises : h.Arises) (visited : h.Visits p) {r : Reference}
    (consults : p.Consults r a) : a < p.machine.store.scopes.size := by
  obtain ⟨resolved⟩ := consults
  exact (arises.visited visited).1.2.1.layered.lt_of_mem (Environment.innermost_ancestor_mem _ _)

theorem Arises.lt_of_assigns (arises : h.Arises) (visited : h.Visits p) {r : Reference}
    (assigns : p.Assigns r a) (inner : a ≠ Environment.root.innermost) :
    a < p.machine.store.scopes.size := by
  cases assigns with
  | resolved resolved =>
    exact (arises.visited visited).1.2.1.layered.lt_of_mem (Environment.innermost_ancestor_mem _ _)
  | global => exact absurd rfl inner

section

variable {u v : Moment} {before between behind : List Moment}

theorem visits_of_order (order : h.moments = before ++ u :: (between ++ v :: behind)) :
    h.Visits u.point ∧ h.Visits v.point := by
  refine ⟨mem_moments.mp ?_, mem_moments.mp ?_⟩
  · exact order ▸ List.mem_append_right _ List.mem_cons_self
  · exact order ▸ List.mem_append_right _ (List.mem_cons_of_mem _
      (List.mem_append_right _ List.mem_cons_self))

theorem Arises.apart (arises : h.Arises)
    (order : h.moments = before ++ u :: (between ++ v :: behind)) (makes : u.Makes a)
    (makes' : v.Makes b) : a ≠ b := by
  have pairs := arises.pairwise_moments
  rw [order] at pairs
  exact (List.pairwise_cons.mp (List.pairwise_append.mp pairs).2.1).1 v
    (List.mem_append_right _ List.mem_cons_self) a b makes makes'

end

theorem isSome_of_varDecl {n : Nat} {m m' : Machine} {x : Name} {e : Option Expr}
    {completion : Completion} (inside : m.environment.innermost < m.store.scopes.size)
    (ran : Run.execute (n + 1) (.varDecl x e) m = .ok completion m') :
    (m'.store.lookup m.environment.innermost x.text).isSome := by
  have defined {m₁ : Machine} (kept : m.Kept m₁) (value : Value) :
      ((m₁.store.define m₁.environment x.text value).lookup m.environment.innermost
        x.text).isSome := by
    have there : m₁.environment.innermost < m₁.store.scopes.size :=
      kept.environment ▸ Nat.lt_of_lt_of_le inside kept.store.scopes
    rw [Store.lookup_define _ _ _ _ _ _ there, if_pos ⟨by rw [kept.environment], rfl⟩]
    rfl
  cases e with
  | none =>
    cases ran
    exact defined (.refl m) .nil
  | some e =>
    obtain ⟨value, m₁, found, ran⟩ := bind_ok ran
    cases ran
    exact defined ((keeps_evaluate _ _).of_ok found) value

theorem Visits.iterates {n : Nat} {m m₁ m₂ : Machine} {x : Name} {c : Expr}
    {e step : Option Expr} {body : List Stmt} {env : Environment} (made : newScope m = .ok env m₁)
    (declared : Run.execute (n + 2) (.varDecl x e) { m₁ with environment := env } =
      .ok .normal m₂)
    (visited : h.Visits ⟨n + 4, .execute (.block [.varDecl x e, .loop c (.block body) step]), m⟩) :
    h.Visits ⟨n, .iterate c (.block body) step, m₂⟩ ∧
      m₂.environment = ⟨m.store.scopes.size, m.environment.chain⟩ ∧
      (m₂.store.lookup m.store.scopes.size x.text).isSome := by
  have entered := (((visited.next (.block made)).next (.tail declared)).next .head).next .loop
  cases made
  have kept := (keeps_execute _ _).of_ok declared
  exact ⟨entered, kept.environment, isSome_of_varDecl (by simp) declared⟩

theorem Arises.activations (arises : h.Arises) : h.Activations where
  apart order opens opens' := arises.apart order ⟨_, _, rfl, opens⟩ ⟨_, _, rfl, opens'⟩
  block begins := by
    cases begins with
    | block ran =>
      cases ran
      exact ⟨_, .block, rfl⟩
  call begins := by
    cases begins with
    | applied ran =>
      cases ran
      exact ⟨_, .call, rfl⟩
  closure {n f m} visited := by
    have inside := arises.seated visited trivial
    exact ⟨m.store.identities,
      (Store.lookup_define m.store.newIdentity.2 m.environment _ _ _ _ inside).trans
        (if_pos ⟨rfl, rfl⟩)⟩
  independent := by
    intro before between behind q q' r r' b order consults consults' same inner others value
    have inside := arises.lt_of_consults (visits_of_order order).1 consults
    have kept : q'.machine.store.lookup b r.name.text = q.machine.store.lookup b r.name.text := by
      refine arises.lookup_eq order inner inside fun w mem sets => ?_
      rcases List.mem_append.mp mem with mem | last
      · exact others w b _ mem sets rfl
      · cases List.mem_singleton.mp last
    rw [consults'.yields_iff, consults.yields_iff, same, kept]
  shared := by
    intro before between behind w q r r' a value order assigns yields consults same inner unset
    have inside := arises.lt_of_assigns (visits_of_order order).1 assigns inner
    have written := assigns.lookup_after inner inside yields
    refine consults.yields_iff.mpr ?_
    rw [same, ← written]
    refine arises.lookup_eq order inner (Store.lt_size_of_lookup written) fun w' mem sets => ?_
    rcases List.mem_append.mp mem with mem | last
    · exact unset w' mem sets
    · cases List.mem_singleton.mp last
  loop := by
    intro n m x e c body step env m₁ m₂ made declared visited
    obtain ⟨entered, around, bound⟩ := visited.iterates made declared
    refine ⟨_, .block, bound, fun k i iteration => ?_⟩
    obtain ⟨b, reaches, begins, depth, opens, outer⟩ := iteration.opens
    have visited_b := entered.reaches reaches
    refine ⟨visited_b.next begins, outer.trans (congrArg Environment.chain around), ?_,
      fun k' i' iteration' other => ?_⟩
    · refine arises.ne_of_opens visited_b visited (fun same => ?_) opens .block
      rw [same] at depth
      simp only at depth
      omega
    · obtain ⟨b', reaches', begins', depth', opens', -⟩ := iteration'.opens
      refine arises.ne_of_opens (entered.reaches reaches') visited_b (fun same => ?_) opens' opens
      rw [same] at depth'
      omega

def isRepeated (h : History) : Bool :=
  match h.accepted with
  | [[.block [.varDecl x e, .loop c (.block body) (some step)]]] =>
    match newScope h.session.machine with
    | .ok env m₁ =>
      match Run.execute 10 (.varDecl x e) { m₁ with environment := env } with
      | .ok .normal m₂ =>
        match Run.evaluate 7 c m₂ with
        | .ok first m₃ =>
          match Run.execute 7 (.block body) m₃ with
          | .ok .normal m₄ =>
            match Run.evaluate 7 step m₄ with
            | .ok _ m₅ =>
              match Run.evaluate 6 c m₅ with
              | .ok second _ => first.isTruthy && second.isTruthy
              | _ => false
            | _ => false
          | _ => false
        | _ => false
      | _ => false
    | _ => false
  | _ => false

theorem isRepeated_only : isRepeated (only "for(var i;!i;i=i==false){}") = true := by
  decide +kernel

theorem Arises.activations_loop :
    ∃ (h : History) (loop i i' : Point) (body : List Stmt) (a b b' : Nat),
      h.Arises ∧ Iteration loop body 0 i ∧ Iteration loop body 1 i' ∧
      i.machine.environment.chain = [b, a, Environment.root.innermost] ∧
      i'.machine.environment.chain = [b', a, Environment.root.innermost] ∧ b ≠ b' ∧ b ≠ a := by
  have shape := isRepeated_only
  unfold isRepeated at shape
  split at shape
  case h_2 => cases shape
  next x e c body step accepted =>
  split at shape
  case h_2 => cases shape
  next env m₁ made =>
  split at shape
  case h_2 => cases shape
  next m₂ declared =>
  split at shape
  case h_2 => cases shape
  next first m₃ tested =>
  split at shape
  case h_2 => cases shape
  next m₄ ran =>
  split at shape
  case h_2 => cases shape
  next stepped m₅ further =>
  split at shape
  case h_2 => cases shape
  next second m₆ tested' =>
  obtain ⟨holds, holds'⟩ := Bool.and_eq_true_iff.mp shape
  have arises := (arises_only "for(var i;!i;i=i==false){}").execute 12
    (accepted ▸ List.mem_cons_self)
  have once : Iteration ⟨8, .iterate c (.block body) (some step), m₂⟩ body 0 _ :=
    .intro .first (.body tested holds) (.block rfl)
  have twice : Iteration ⟨8, .iterate c (.block body) (some step), m₂⟩ body 1 _ :=
    .intro (.next .first (.againStepped tested holds ran (.inl rfl) further) trivial)
      (.body tested' holds') (.block rfl)
  obtain ⟨a, -, -, iterations⟩ := arises.activations.loop made declared
    (visits_execute (Reaches.refl.next .programHead))
  obtain ⟨-, outer, apart, others⟩ := iterations 0 _ once
  obtain ⟨-, outer', -, -⟩ := iterations 1 _ twice
  have root := (arises_only "for(var i;!i;i=i==false){}").consistent.idle
  rw [root] at outer outer'
  exact ⟨_, _, _, _, body, a, _, _, arises, once, twice, congrArg (_ :: ·) outer,
    congrArg (_ :: ·) outer', (others 1 _ twice (by decide)).symm, apart⟩

end History

end ScopeScript
