import ScopeScript.Proofs.Execution.Footprint
import ScopeScript.Proofs.Likeness.Machines

set_option autoImplicit false

namespace ScopeScript

inductive Halt.Alike (K : Link) : Halt → Halt → Prop
  | runtime {line line' : Nat} {fault : RuntimeFault} : K.lines line line' →
      Halt.Alike K (.fault (.runtime line fault)) (.fault (.runtime line' fault))
  | output {reason : String} : Halt.Alike K (.fault (.output reason)) (.fault (.output reason))
  | exhausted : Halt.Alike K .exhausted .exhausted
  | awaitingInput : Halt.Alike K .awaitingInput .awaitingInput

theorem Halt.Alike.eq {K : Link} (level : ∀ {line line'}, K.lines line line' → line' = line)
    {halt halt' : Halt} (h : halt.Alike K halt') : halt' = halt := by
  cases h with
  | runtime line => rw [level line]
  | output | exhausted | awaitingInput => rfl

def Link.Found (K : Link) (m : Machine) (r : Reference) : Prop :=
  ∀ distance, m.resolution[r.id]? = some distance →
    (m.store.getAt? m.environment distance r.name.text).isSome ∨ K.Plain

namespace Run

variable {α β : Type} {K : Link} {ρ : World} {σs : List Renaming} {m m' : Machine}

inductive Agrees (K : Link) (ρ : World) (σs : List Renaming) (R : World → α → α → Prop) :
    EStateM.Result Halt Machine α → EStateM.Result Halt Machine α → Prop
  | ok {ρ' : World} {a a' : α} {m m' : Machine} : ρ <+: ρ' → m.Matches K ρ' σs m' →
      R ρ' a a' → Agrees K ρ σs R (.ok a m) (.ok a' m')
  | error {ρ' : World} {halt halt' : Halt} {m m' : Machine} : ρ <+: ρ' →
      m.Matches K ρ' σs m' → halt.Alike K halt' → Agrees K ρ σs R (.error halt m) (.error halt' m')

def Same (_ : World) (a a' : α) : Prop := a' = a

namespace Agrees

variable {R : World → α → α → Prop} {Q : World → β → β → Prop}

theorem grow {ρ' : World} {result result' : EStateM.Result Halt Machine α}
    (h : Agrees K ρ' σs R result result') (grows : ρ <+: ρ') : Agrees K ρ σs R result result' := by
  cases h with
  | ok further machines related => exact .ok (grows.trans further) machines related
  | error further machines alike => exact .error (grows.trans further) machines alike

theorem bind {p p' : Run α} {f f' : α → Run β} (first : Agrees K ρ σs R (p m) (p' m'))
    (second : ∀ (ρ' : World) (a a' : α) (m₁ m₁' : Machine), p m = .ok a m₁ → ρ <+: ρ' →
      m₁.Matches K ρ' σs m₁' → R ρ' a a' → Agrees K ρ' σs Q (f a m₁) (f' a' m₁')) :
    Agrees K ρ σs Q ((p >>= f) m) ((p' >>= f') m') := by
  cases ran : p m with
  | ok a m₁ =>
    rw [bind_of_ok ran]
    rw [ran] at first
    cases ran' : p' m' with
    | ok a' m₁' =>
      rw [bind_of_ok ran']
      rw [ran'] at first
      cases first with
      | ok grows machines related => exact (second _ _ _ _ _ ran grows machines related).grow grows
    | error halt' m₁' => rw [ran'] at first; cases first
  | error halt m₁ =>
    rw [bind_of_error ran]
    rw [ran] at first
    cases ran' : p' m' with
    | ok a' m₁' => rw [ran'] at first; cases first
    | error halt' m₁' =>
      rw [bind_of_error ran']
      rw [ran'] at first
      cases first with
      | error grows machines alike => exact .error grows machines alike

theorem pure {a a' : α} (h : m.Matches K ρ σs m') (related : R ρ a a') :
    Agrees K ρ σs R ((Pure.pure a : Run α) m) ((Pure.pure a' : Run α) m') :=
  .ok List.prefix_rfl h related

theorem throw {halt halt' : Halt} (h : m.Matches K ρ σs m') (alike : halt.Alike K halt') :
    Agrees K ρ σs R ((MonadExcept.throw halt : Run α) m) ((MonadExcept.throw halt' : Run α) m') :=
  .error List.prefix_rfl h alike

theorem stop {line line' : Nat} {fault : RuntimeFault} (h : m.Matches K ρ σs m')
    (same : K.lines line line') :
    Agrees K ρ σs R (Run.stop line fault m) (Run.stop line' fault m') :=
  .throw h (.runtime same)

theorem get_bind {f f' : Machine → Run α} (h : Agrees K ρ σs R (f m m) (f' m' m')) :
    Agrees K ρ σs R ((MonadState.get >>= f) m) ((MonadState.get >>= f') m') := h

theorem ofOperation {result : Except RuntimeFault α} {line line' : Nat}
    (h : m.Matches K ρ σs m') (same : K.lines line line')
    (related : ∀ a, result = .ok a → R ρ a a) :
    Agrees K ρ σs R (Run.ofOperation line result m) (Run.ofOperation line' result m') := by
  cases result with
  | ok a => exact .pure h (related a rfl)
  | error fault => exact .stop h same

theorem map {p p' : Run α} {f f' : α → β} (h : Agrees K ρ σs R (p m) (p' m'))
    (related : ∀ ρ' a a', R ρ' a a' → Q ρ' (f a) (f' a')) :
    Agrees K ρ σs Q ((f <$> p) m) ((f' <$> p') m') := by
  change Agrees K ρ σs Q (EStateM.map f p m) (EStateM.map f' p' m')
  unfold EStateM.map
  generalize p m = result at h ⊢
  generalize p' m' = result' at h ⊢
  cases h with
  | ok grows machines both => exact .ok grows machines (related _ _ _ both)
  | error grows machines alike => exact .error grows machines alike

theorem ending {result result' : EStateM.Result Halt Machine α}
    (h : Agrees K ρ σs R result result') :
    ∃ ρ', ρ <+: ρ' ∧ (Run.ending result).Matches K ρ' σs (Run.ending result') := by
  cases h with
  | ok grows machines _ => exact ⟨_, grows, machines⟩
  | error grows machines _ => exact ⟨_, grows, machines⟩

theorem within {p p' : Run α} {env : Environment} {τs : List Renaming}
    (h : m.Matches K ρ σs m')
    (inner : Agrees K ρ τs R (p { m with environment := env })
      (p' { m' with environment := env })) :
    Agrees K ρ σs R (Run.within env p m) (Run.within env p' m') := by
  unfold Run.within
  simp only [h.environment]
  generalize p { m with environment := env } = result at inner ⊢
  generalize p' { m' with environment := env } = result' at inner ⊢
  cases inner with
  | ok grows machines related => exact .ok grows (machines.within (h.follows.mono grows)) related
  | error grows machines alike =>
    exact .error grows (machines.within (h.follows.mono grows)) alike

end Agrees

-- Scopes and variables.

theorem agrees_newScope (h : m.Matches K ρ σs m') {σ : Renaming}
    (known : σ = .same ∨ K.renames σ) :
    Agrees K ρ σs (fun ρ' env env' => env' = env ∧ Follows ρ' env.chain (σ :: σs))
      (newScope m) (newScope m') := by
  have enclosed : (m'.store.enclose m'.environment).1 = (m.store.enclose m.environment).1 ∧
      (m.store.enclose m.environment).2.Alike K (ρ ++ [σ]) (m'.store.enclose m'.environment).2 := by
    rw [h.environment]
    exact h.store.enclose m.environment known
  have grows := List.prefix_append ρ [σ]
  refine .ok grows (h.withStore enclosed.2 grows) ⟨enclosed.1, ?_⟩
  have last : (ρ ++ [σ])[m.store.scopes.size]? = some σ := by simp [h.store.scopes]
  exact .inner last (h.follows.mono grows)

theorem agrees_define (h : m.Matches K ρ σs m') {name name' : String} {value value' : Value}
    (renamed : name' = Renaming.innermost σs name) (alike : value.Alike K ρ value') :
    Agrees K ρ σs Same (define name value m) (define name' value' m') := by
  have bound : (m.store.define m.environment name value).Alike K ρ
      (m'.store.define m'.environment name' value') := by
    rw [h.environment, renamed]
    exact h.store.bindAt (h.follows.innermost h.root) name alike
  exact .ok List.prefix_rfl (h.withStore bound List.prefix_rfl) rfl

theorem get?_root (s : Store) (name : String) :
    s.get? .root name = s.lookup Environment.root.innermost name := by
  simp [Store.get?, Environment.root, Environment.chain, List.findSome?_cons]
  cases s.lookup 0 name <;> rfl

theorem agrees_lookUp (h : m.Matches K ρ σs m') {r r' : Reference} (alike : r.Alike K σs r')
    (found : K.Found m r) :
    Agrees K ρ σs (Value.Alike K) (lookUp r m) (lookUp r' m') := by
  obtain ⟨d, linked, text⟩ := alike.linked
  obtain ⟨recorded, recorded'⟩ := h.linked linked
  unfold lookUp
  rw [recorded, recorded']
  cases d with
  | none =>
    have there := h.store.lookups _ _ r.name.text h.root
    simp only [Renaming.reached, Renaming.same_apply] at text there
    simp only [Store.read, get?_root, text]
    generalize m.store.lookup Environment.root.innermost r.name.text = value at there ⊢
    generalize m'.store.lookup Environment.root.innermost r.name.text = value' at there ⊢
    cases there with
    | none =>
      simp only [Store.undefined, text]
      exact .throw h (.runtime alike.line)
    | some there => exact .pure h there
  | some distance =>
    have scope := h.follows.ancestor h.root distance
    have there := h.store.lookups _ _ r.name.text scope
    have named := found distance recorded
    simp only [Store.readAt, Store.getAt?, h.environment, text] at named ⊢
    generalize m.store.lookup _ r.name.text = value at there named ⊢
    generalize m'.store.lookup _ _ = value' at there ⊢
    cases there with
    | none =>
      rcases named with missing | plain
      · cases missing
      have same : Renaming.reached σs (some distance) = .same :=
        (h.store.renames _ (List.mem_of_getElem? scope)).elim id (plain _)
      simp only [Store.undefined, text, same, Renaming.same_apply]
      exact .throw h (.runtime alike.line)
    | some there => exact .pure h there

theorem binder?_eq_innermost {s : Store} {env : Environment} {name : String}
    (bound : (s.lookup env.innermost name).isSome) :
    s.binder? env name = some env.innermost := by
  simp [Store.binder?, Environment.chain, bound]

theorem agrees_assignRoot (h : m.Matches K ρ σs m') {name name' : Name}
    (line : K.lines name.line name'.line) (text : name'.text = name.text) {value value' : Value}
    (alike : value.Alike K ρ value') :
    Agrees K ρ σs Same (assignFrom .root name value m) (assignFrom .root name' value' m') := by
  have there := h.store.lookups _ _ name.text h.root
  simp only [Renaming.same_apply] at there
  have both : (m'.store.lookup Environment.root.innermost name.text).isSome =
      (m.store.lookup Environment.root.innermost name.text).isSome := by
    generalize m.store.lookup Environment.root.innermost name.text = value at there
    generalize m'.store.lookup Environment.root.innermost name.text = value' at there
    cases there <;> rfl
  unfold assignFrom
  rw [text]
  by_cases bound : (m.store.lookup Environment.root.innermost name.text).isSome
  · have bound' := both.trans bound
    rw [binder?_eq_innermost bound, binder?_eq_innermost bound']
    exact .ok List.prefix_rfl
      (h.withStore (h.store.bindAt h.root name.text alike) List.prefix_rfl) rfl
  · have missing (s : Store) (unbound : ¬(s.lookup Environment.root.innermost name.text).isSome) :
        s.binder? .root name.text = none := by
      simpa [Store.binder?, Environment.root, Environment.chain] using unbound
    rw [missing _ bound, missing _ (both ▸ bound)]
    simp only [Store.undefined, text]
    exact .throw h (.runtime line)

theorem agrees_assignInnermost (h : m.Matches K ρ σs m') {name name' : Name}
    (text : name'.text = Renaming.innermost σs name.text)
    (bound : (m.store.lookup m.environment.innermost name.text).isSome) {value value' : Value}
    (alike : value.Alike K ρ value') :
    Agrees K ρ σs Same (assignFrom m.environment name value m)
      (assignFrom m'.environment name' value' m') := by
  have scope := h.follows.innermost h.root
  have there := h.store.lookups _ _ name.text scope
  have bound' : (m'.store.lookup m.environment.innermost name'.text).isSome := by
    rw [text]
    generalize m.store.lookup m.environment.innermost name.text = value at there bound
    generalize m'.store.lookup m.environment.innermost _ = value' at there
    cases there with
    | none => exact bound
    | some => rfl
  have binder' : m'.store.binder? m'.environment name'.text = some m.environment.innermost := by
    rw [h.environment]
    exact binder?_eq_innermost bound'
  unfold assignFrom
  rw [binder?_eq_innermost bound, binder', text]
  exact .ok List.prefix_rfl (h.withStore (h.store.bindAt scope name.text alike) List.prefix_rfl) rfl

theorem agrees_assign (h : m.Matches K ρ σs m') {r r' : Reference} (alike : r.Alike K σs r')
    {value value' : Value} (values : value.Alike K ρ value') :
    Agrees K ρ σs Same (assign r value m) (assign r' value' m') := by
  obtain ⟨d, linked, text⟩ := alike.linked
  obtain ⟨recorded, recorded'⟩ := h.linked linked
  unfold assign
  rw [recorded, recorded']
  cases d with
  | none => exact agrees_assignRoot h alike.line text values
  | some distance =>
    have bound : (m.store.assignAt m.environment distance r.name.text value).Alike K ρ
        (m'.store.assignAt m'.environment distance r'.name.text value') := by
      rw [h.environment, text]
      exact h.store.bindAt (h.follows.ancestor h.root distance) r.name.text values
    exact .ok List.prefix_rfl (h.withStore bound List.prefix_rfl) rfl

end Run

end ScopeScript
