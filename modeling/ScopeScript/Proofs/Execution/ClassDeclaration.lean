import ScopeScript.Proofs.Execution.Footprint

set_option autoImplicit false

namespace ScopeScript

namespace Run

variable {α : Type} {m : Machine}

theorem eq_of_ofExcept {result : Except Diagnostic α} {a : α} {m' : Machine}
    (ran : ofExcept result m = .ok a m') : m' = m := by
  cases result <;> cases ran
  rfl

theorem eq_of_superclass {r : Reference} {c : Class} {m' : Machine}
    (ran : superclass r m = .ok c m') : m' = m := by
  obtain ⟨value, m₁, found, ran⟩ := bind_ok ran
  have same : m₁ = m := eq_of_ofExcept found
  split at ran <;> cases ran
  exact same

def surroundings (m : Machine) (name : Name) : Option Class → Environment × Store
  | none => (m.environment, m.store.define m.environment name.text .nil)
  | some c =>
    let (env, s) := (m.store.define m.environment name.text .nil).enclose m.environment
    (env, s.define env "super" (.class c))

def declared (m : Machine) (name : Name) (methods : List FunctionDecl) (above : Option Class) :
    Class :=
  ⟨⟨m.store.identities, name.text, methodTable methods (surroundings m name above).1⟩,
    (above.map Class.layers).getD []⟩

theorem grows_surroundings (m : Machine) (name : Name) (above : Option Class) :
    (m.store.define m.environment name.text .nil).Grows (surroundings m name above).2 := by
  cases above with
  | none => exact .refl _
  | some c => exact (Store.grows_enclose _ m.environment).trans (Store.grows_define _ _ _ _)

theorem binder?_innermost {s : Store} {env : Environment} {name : String}
    (bound : (s.lookup env.innermost name).isSome) : s.binder? env name = some env.innermost := by
  obtain ⟨innermost, outer⟩ := env
  simp [Store.binder?, Environment.chain, bound]

theorem surroundings_bound (inside : m.environment.innermost < m.store.scopes.size) (name : Name)
    (above : Option Class) :
    ((surroundings m name above).2.lookup m.environment.innermost name.text).isSome := by
  refine (grows_surroundings m name above).bound _ _ ?_
  simp [Store.lookup_define _ _ _ _ _ _ inside]

theorem declareClass_eq {name : Name} {r : Option Reference} {above : Option Class}
    {methods : List FunctionDecl} (known : above.isSome = r.isSome)
    (ran : ∀ r' ∈ r, ∀ c ∈ above, superclass r' m = .ok c m) :
    declareClass name r methods m = assignFrom m.environment name
      (.class (declared m name methods above))
      { m with store := (surroundings m name above).2.newIdentity.2 } := by
  cases r with
  | none =>
    cases above with
    | none => rfl
    | some c => cases known
  | some r =>
    cases above with
    | none => cases known
    | some c =>
      have found : (some <$> superclass r : Run (Option Class)) m = .ok (some c) m := by
        change EStateM.map some (superclass r) m = _
        simp [EStateM.map, ran r rfl c rfl]
      exact bind_of_ok found

theorem declareClass_of_superclass {name : Name} {r : Option Reference} {above : Option Class}
    {methods : List FunctionDecl} (inside : m.environment.innermost < m.store.scopes.size)
    (known : above.isSome = r.isSome)
    (ran : ∀ r' ∈ r, ∀ c ∈ above, superclass r' m = .ok c m) :
    declareClass name r methods m = .ok () { m with
      store := (surroundings m name above).2.newIdentity.2.bindAt m.environment.innermost name.text
        (.class (declared m name methods above)) } := by
  have bound := surroundings_bound inside name above
  have binder : (surroundings m name above).2.newIdentity.2.binder? m.environment name.text =
      some m.environment.innermost := binder?_innermost bound
  rw [declareClass_eq known ran]
  simp only [assignFrom, binder]

theorem declareClass_of_error {name : Name} {r : Reference} {methods : List FunctionDecl}
    {halt : Halt} {m' : Machine} (failed : superclass r m = .error halt m') :
    declareClass name (some r) methods m = .error halt m' := by
  have found : (some <$> superclass r : Run (Option Class)) m = .error halt m' := by
    change EStateM.map some (superclass r) m = _
    simp [EStateM.map, failed]
  exact bind_of_error found

end Run

end ScopeScript
