import ScopeScript.Proofs.Likeness.Values

set_option autoImplicit false

namespace ScopeScript

structure Store.Alike (K : Link) (ρ : World) (s s' : Store) : Prop where
  root : ρ[Environment.root.innermost]? = some .same
  renames : ∀ σ ∈ ρ, σ = .same ∨ K.renames σ
  scopes : s.scopes.size = ρ.length
  scopes' : s'.scopes.size = ρ.length
  lookups : ∀ (address : Nat) (σ : Renaming) (name : String), ρ[address]? = some σ →
    Option.Rel (Value.Alike K ρ) (s.lookup address name) (s'.lookup address (σ name))
  objects : s'.objects.size = s.objects.size
  fields : ∀ (i i' : Instance) (name : String), i'.address = i.address →
    Option.Rel (Value.Alike K ρ) (s.field? i name) (s'.field? i' name)
  identities : s'.identities = s.identities

theorem Value.optionAlike_mono {K K' : Link} {ρ ρ' : World} {value value' : Option Value}
    (h : Option.Rel (Value.Alike K ρ) value value') (below : K.Below K') (grows : ρ <+: ρ') :
    Option.Rel (Value.Alike K' ρ') value value' := by
  cases h with
  | none => exact .none
  | some alike => exact .some (alike.mono below grows)

namespace Store.Alike

variable {K K' : Link} {ρ : World} {s s' : Store} {σ : Renaming} {name : String}
  {value value' : Value}

theorem mono (h : s.Alike K ρ s') (below : K.Below K') : s.Alike K' ρ s' where
  root := h.root
  renames σ mem := (h.renames σ mem).imp_right below.renames
  scopes := h.scopes
  scopes' := h.scopes'
  lookups address σ name found :=
    Value.optionAlike_mono (h.lookups address σ name found) below List.prefix_rfl
  objects := h.objects
  fields i i' name same := Value.optionAlike_mono (h.fields i i' name same) below List.prefix_rfl
  identities := h.identities

theorem bindAt (h : s.Alike K ρ s') {address : Nat} (found : ρ[address]? = some σ)
    (name : String) (alike : value.Alike K ρ value') :
    (s.bindAt address name value).Alike K ρ (s'.bindAt address (σ name) value') where
  root := h.root
  renames := h.renames
  scopes := by simpa [Store.bindAt] using h.scopes
  scopes' := by simpa [Store.bindAt] using h.scopes'
  lookups other τ key found' := by
    have inside : address < ρ.length := (List.getElem?_eq_some_iff.mp found).1
    rw [Store.lookup_bindAt, Store.lookup_bindAt, h.scopes, h.scopes']
    by_cases same : other = address
    · subst same
      obtain rfl : σ = τ := Option.some.inj (found.symm.trans found')
      simp only [inside, true_and, σ.injective.eq_iff]
      split
      · exact .some alike
      · exact h.lookups other σ key found
    · simpa [same] using h.lookups other τ key found'
  objects := h.objects
  fields := h.fields
  identities := h.identities

theorem enclose (h : s.Alike K ρ s') (env : Environment) (known : σ = .same ∨ K.renames σ) :
    (s'.enclose env).1 = (s.enclose env).1 ∧
      (s.enclose env).2.Alike K (ρ ++ [σ]) (s'.enclose env).2 := by
  refine ⟨by simp [Store.enclose, h.scopes, h.scopes'], ?_⟩
  have kept {value value' : Option Value} (alike : Option.Rel (Value.Alike K ρ) value value') :
      Option.Rel (Value.Alike K (ρ ++ [σ])) value value' :=
    Value.optionAlike_mono alike (.refl K) (List.prefix_append ρ [σ])
  refine ⟨World.getElem?_mono h.root (List.prefix_append ρ [σ]), fun τ mem => ?_, ?_, ?_,
    fun address τ name found => ?_, h.objects, fun i i' name same => kept (h.fields i i' name same),
    h.identities⟩
  · rcases List.mem_append.mp mem with before | last
    · exact h.renames τ before
    · exact List.mem_singleton.mp last ▸ known
  · simp [Store.enclose, h.scopes]
  · simp [Store.enclose, h.scopes']
  · rw [Store.lookup_enclose, Store.lookup_enclose]
    by_cases inside : address < ρ.length
    · rw [List.getElem?_append_left inside] at found
      exact kept (h.lookups address τ name found)
    · have outside : s.scopes.size ≤ address ∧ s'.scopes.size ≤ address := by
        rw [h.scopes, h.scopes']
        omega
      simp [Store.lookup, outside.1, outside.2]

theorem newIdentity (h : s.Alike K ρ s') :
    s'.newIdentity.1 = s.newIdentity.1 ∧ s.newIdentity.2.Alike K ρ s'.newIdentity.2 :=
  ⟨h.identities, h.root, h.renames, h.scopes, h.scopes', h.lookups, h.objects, h.fields,
    congrArg (· + 1) h.identities⟩

theorem newInstance (h : s.Alike K ρ s') {c c' : Class} (alike : c.Alike K ρ c') :
    (s.newInstance c).1.Alike K ρ (s'.newInstance c').1 ∧
      (s.newInstance c).2.Alike K ρ (s'.newInstance c').2 := by
  refine ⟨⟨h.objects, alike⟩, h.root, h.renames, h.scopes, h.scopes', h.lookups,
    by simp [Store.newInstance, h.objects], fun i i' name same => ?_, h.identities⟩
  have old := h.fields i i' name same
  unfold Store.field? at old ⊢
  simp only [Store.newInstance, Array.getElem?_push, h.objects, same]
  split
  · exact .none
  · rwa [same] at old

theorem setField (h : s.Alike K ρ s') {i i' : Instance} (same : i'.address = i.address)
    (name : String) (alike : value.Alike K ρ value') :
    (s.setField i name value).Alike K ρ (s'.setField i' name value') := by
  refine ⟨h.root, h.renames, h.scopes, h.scopes', h.lookups, by simp [Store.setField, h.objects],
    fun j j' key same' => ?_, h.identities⟩
  have old := h.fields j j' key same'
  have size := h.objects
  unfold Store.field? at old ⊢
  simp only [Store.setField, Array.getElem?_modify, same, same'] at old ⊢
  by_cases here : i.address = j.address
  · by_cases inside : j.address < s.objects.size
    · have inside' : j.address < s'.objects.size := size ▸ inside
      simp only [here, inside, inside', Array.getElem?_eq_getElem, if_true, Option.map_some,
        Option.bind_some, Bindings.get?_insert] at old ⊢
      split
      · exact .some alike
      · exact old
    · simp [here, inside, size]
  · simpa [here] using old

end Store.Alike

theorem Follows.innermost {ρ : World} (root : ρ[Environment.root.innermost]? = some .same)
    {env : Environment} {σs : List Renaming} (h : Follows ρ env.chain σs) :
    ρ[env.innermost]? = some (Renaming.innermost σs) := by
  have found := h.ancestor root 0
  cases σs <;> exact found

structure Machine.Matches (K : Link) (ρ : World) (σs : List Renaming) (m m' : Machine) : Prop where
  store : m.store.Alike K ρ m'.store
  rest : m' = { m with store := m'.store, resolution := m'.resolution }
  follows : Follows ρ m.environment.chain σs
  linked : ∀ {i j d}, K.linked i j d → m.resolution[i]? = d ∧ m'.resolution[j]? = d
  oblivious : ∀ f ∈ m.hosts, HostFunction.Oblivious f

namespace Machine.Matches

variable {K : Link} {ρ ρ' : World} {σs : List Renaming} {m m' : Machine}

theorem environment (h : m.Matches K ρ σs m') : m'.environment = m.environment := by
  rw [h.rest]

theorem output (h : m.Matches K ρ σs m') : m'.output = m.output := by
  rw [h.rest]

theorem input (h : m.Matches K ρ σs m') : m'.input = m.input := by
  rw [h.rest]

theorem clock (h : m.Matches K ρ σs m') : m'.clock = m.clock := by
  rw [h.rest]

theorem readings (h : m.Matches K ρ σs m') : m'.readings = m.readings := by
  rw [h.rest]

theorem hosts (h : m.Matches K ρ σs m') : m'.hosts = m.hosts := by
  rw [h.rest]

theorem withStore (h : m.Matches K ρ σs m') {s s' : Store} (alike : s.Alike K ρ' s')
    (grows : ρ <+: ρ') : { m with store := s }.Matches K ρ' σs { m' with store := s' } := by
  refine ⟨alike, ?_, h.follows.mono grows, h.linked, h.oblivious⟩
  conv_lhs => rw [h.rest]

theorem record {K' : Link} (h : m.Matches K ρ σs m') (below : K.Below K') {r r' : Resolution}
    (linked : ∀ {i j d}, K'.linked i j d → r[i]? = d ∧ r'[j]? = d) :
    { m with resolution := r }.Matches K' ρ σs { m' with resolution := r' } := by
  refine ⟨h.store.mono below, ?_, h.follows, linked, h.oblivious⟩
  conv_lhs => rw [h.rest]

theorem within (h : m.Matches K ρ σs m') {env : Environment} {τs : List Renaming}
    (follows : Follows ρ env.chain τs) :
    { m with environment := env }.Matches K ρ τs { m' with environment := env } := by
  refine ⟨h.store, ?_, follows, h.linked, h.oblivious⟩
  conv_lhs => rw [h.rest]

theorem withOutput (h : m.Matches K ρ σs m') (output : Sink) :
    { m with output := output }.Matches K ρ σs { m' with output := output } := by
  refine ⟨h.store, ?_, h.follows, h.linked, h.oblivious⟩
  conv_lhs => rw [h.rest]

theorem withInput (h : m.Matches K ρ σs m') (input : Input) :
    { m with input := input }.Matches K ρ σs { m' with input := input } := by
  refine ⟨h.store, ?_, h.follows, h.linked, h.oblivious⟩
  conv_lhs => rw [h.rest]

theorem withReadings (h : m.Matches K ρ σs m') (readings : Nat) :
    { m with readings := readings }.Matches K ρ σs { m' with readings := readings } := by
  refine ⟨h.store, ?_, h.follows, h.linked, h.oblivious⟩
  conv_lhs => rw [h.rest]

theorem root (h : m.Matches K ρ σs m') : ρ[Environment.root.innermost]? = some .same :=
  h.store.root

theorem defineNative (h : m.Matches K ρ σs m') (name : String) (arity : Nat) (body : NativeBody) :
    (m.defineNative name arity body).Matches K ρ σs (m'.defineNative name arity body) := by
  have alike : (Value.native ⟨m.store.identities, name, arity, body⟩).Alike K ρ
      (.native ⟨m'.store.identities, name, arity, body⟩) := by
    rw [h.store.identities]
    exact .plain trivial
  exact h.withStore (h.store.newIdentity.2.bindAt h.root name alike) List.prefix_rfl

end Machine.Matches

end ScopeScript
