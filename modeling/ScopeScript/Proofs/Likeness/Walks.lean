import ScopeScript.Proofs.Likeness.Tree
import ScopeScript.Proofs.Scope.Lexical

set_option autoImplicit false

namespace ScopeScript

def Link.Allows (K : Link) (σ : Renaming) : Prop := σ = .same ∨ K.renames σ

structure Link.Resolves (K : Link) (table : Resolution) : Prop where
  -- Two names that differ are not changed to the same one, each in a scope of its own.
  apart : ∀ {σ τ name name'}, K.Allows σ → K.Allows τ → K.names name → K.names name' →
    σ name = τ name' → name = name'
  oneToOne : ∀ {i j d i' j' d'}, K.linked i j d → K.linked i' j' d' → (i = i' ↔ j = j')
  keywords : K.names "this" ∧ K.names "super"
  settled : K.Plain ∨ ∀ {i j d}, K.linked i j d → table[i]? = d

theorem Link.Plain.allows {K : Link} (plain : K.Plain) {σ : Renaming} (allowed : K.Allows σ) :
    σ = .same :=
  allowed.elim id (plain σ)

theorem Link.Plain.resolves {K : Link} (plain : K.Plain) (table : Resolution)
    (oneToOne : ∀ {i j d i' j' d'}, K.linked i j d → K.linked i' j' d' → (i = i' ↔ j = j'))
    (keywords : K.names "this" ∧ K.names "super") : K.Resolves table where
  apart allowed allowed' _ _ same := by
    rw [plain.allows allowed, plain.allows allowed'] at same
    exact same
  oneToOne := oneToOne
  keywords := keywords
  settled := .inl plain

structure Bindings.Alike (K : Link) (σ : Renaming) (b b' : Bindings Status) : Prop where
  allowed : K.Allows σ
  status : ∀ name, b'.get? (σ name) = b.get? name
  known : ∀ name, b.contains name = true → K.names name

inductive ScopesAlike (K : Link) :
    List Renaming → List (Bindings Status) → List (Bindings Status) → Prop
  | nil : ScopesAlike K [] [] []
  | cons {σ σs scope scope' outer outer'} : scope.Alike K σ scope' → ScopesAlike K σs outer outer' →
      ScopesAlike K (σ :: σs) (scope :: outer) (scope' :: outer')

inductive Diagnostic.Alike (K : Link) : Diagnostic → Diagnostic → Prop
  | scoping {line line' : Nat} {text text' : String} {fault : ScopeFault} : K.lines line line' →
      (K.Plain → text' = text) →
      Diagnostic.Alike K (.scoping ⟨line, some text⟩ fault) (.scoping ⟨line', some text'⟩ fault)

def Link.Locates (K : Link) (s : ScopeState) (r : Reference) : Prop :=
  K.Plain ∨ ∀ {j d}, K.linked r.id j d → s.distance? r.name.text = d

structure ScopeState.Alike (K : Link) (σs : List Renaming) (s s' : ScopeState) : Prop where
  scopes : ScopesAlike K σs s.scopes s'.scopes
  faults : List.Forall₂ (Diagnostic.Alike K) s.faults s'.faults
  entered : ∀ {i j d}, K.linked i j d → s'.resolution[j]? = s.resolution[i]?

section

variable {K : Link} {table : Resolution} {σ : Renaming} {σs : List Renaming}

namespace Bindings.Alike

variable {b b' : Bindings Status}

theorem contains (h : b.Alike K σ b') (name : String) :
    b'.contains (σ name) = b.contains name := by
  unfold Bindings.contains
  rw [h.status]

theorem empty (allowed : K.Allows σ) : Bindings.Alike K σ ∅ ∅ :=
  ⟨allowed, fun _ => rfl, fun _ inside => by simp [Bindings.contains] at inside⟩

theorem insert (h : b.Alike K σ b') {name : String} (known : K.names name) (status : Status) :
    (b.insert name status).Alike K σ (b'.insert (σ name) status) := by
  refine ⟨h.allowed, fun other => ?_, fun other inside => ?_⟩
  · simp only [Bindings.get?_insert, σ.injective.eq_iff, h.status]
  · rw [Bindings.contains_insert, Bool.or_eq_true, decide_eq_true_iff] at inside
    exact inside.elim (fun same => same ▸ known) (h.known other)

end Bindings.Alike

namespace ScopesAlike

variable {scopes scopes' : List (Bindings Status)}

theorem allowed (h : ScopesAlike K σs scopes scopes') (d : Option Nat) :
    K.Allows (Renaming.reached σs d) := by
  cases d with
  | none => exact .inl rfl
  | some d =>
    induction h generalizing d with
    | nil => exact .inl rfl
    | cons inner _ ih =>
      cases d with
      | zero => exact inner.allowed
      | succ d => exact ih d

theorem findIdx? (resolves : K.Resolves table) (h : ScopesAlike K σs scopes scopes')
    {name name' : String} (known : K.names name)
    (text : name' =
      Renaming.reached σs (scopes.findIdx? fun scope => scope.contains name) name) :
    (scopes'.findIdx? fun scope => scope.contains name') =
      scopes.findIdx? fun scope => scope.contains name := by
  induction h with
  | nil => rfl
  | @cons σ σs scope scope' outer outer' inner rest ih =>
    simp only [List.findIdx?_cons] at text ⊢
    cases here : scope.contains name with
    | true =>
      simp only [here, if_true] at text ⊢
      have same : name' = σ name := text
      rw [same, inner.contains, here, if_pos rfl]
    | false =>
      have outside : name' =
          Renaming.reached σs (outer.findIdx? fun scope => scope.contains name) name := by
        rw [text, here]
        cases outer.findIdx? fun scope => scope.contains name <;> rfl
      have missing : scope'.contains name' = false := by
        by_contra inside
        obtain ⟨other, rfl⟩ := σ.perm.surjective name'
        rw [inner.contains, Bool.not_eq_false] at inside
        have same := resolves.apart inner.allowed (rest.allowed _) (inner.known _ inside) known
          outside
        rw [same, here] at inside
        cases inside
      rw [missing, ih outside]

end ScopesAlike

end

namespace ScopeState.Alike

variable {K : Link} {table : Resolution} {σ : Renaming} {σs : List Renaming} {s s' : ScopeState}

theorem note (h : s.Alike K σs s') {name name' : Name} (line : K.lines name.line name'.line)
    (text : K.Plain → name'.text = name.text) (fault : ScopeFault) :
    (s.note name fault).Alike K σs (s'.note name' fault) :=
  ⟨h.scopes, List.rel_append h.faults (.cons (.scoping line text) .nil), h.entered⟩

theorem enter (h : s.Alike K σs s') (allowed : K.Allows σ) :
    s.enter.Alike K (σ :: σs) s'.enter :=
  ⟨.cons (.empty allowed) h.scopes, h.faults, h.entered⟩

theorem leave (h : s.Alike K (σ :: σs) s') : s.leave.Alike K σs s'.leave := by
  have scopes := h.scopes
  refine ⟨?_, h.faults, h.entered⟩
  unfold ScopeState.leave
  generalize s.scopes = inner at scopes
  generalize s'.scopes = inner' at scopes
  cases scopes with
  | cons _ outer => exact outer

theorem mark (h : s.Alike K σs s') {name name' : String} (known : K.names name)
    (text : name' = Renaming.innermost σs name) (status : Status) :
    (s.mark name status).Alike K σs (s'.mark name' status) := by
  subst text
  have scopes := h.scopes
  unfold ScopeState.mark
  cases inner : s.scopes with
  | nil =>
    cases inner' : s'.scopes with
    | nil => exact h
    | cons => rw [inner, inner'] at scopes; cases scopes
  | cons scope outer =>
    cases inner' : s'.scopes with
    | nil => rw [inner, inner'] at scopes; cases scopes
    | cons scope' outer' =>
      rw [inner, inner'] at scopes
      cases scopes with
      | cons first rest => exact ⟨.cons (first.insert known status) rest, h.faults, h.entered⟩

theorem define (h : s.Alike K σs s') {name name' : Name}
    (declared : name.Declared K (.innermost σs) name') :
    (s.define name).Alike K σs (s'.define name') :=
  h.mark declared.known declared.text .defined

theorem declare (h : s.Alike K σs s') {name name' : Name}
    (declared : name.Declared K (.innermost σs) name') :
    (s.declare name).Alike K σs (s'.declare name') := by
  have scopes := h.scopes
  unfold ScopeState.declare
  cases inner : s.scopes with
  | nil =>
    cases inner' : s'.scopes with
    | nil => exact h
    | cons => rw [inner, inner'] at scopes; cases scopes
  | cons scope outer =>
    cases inner' : s'.scopes with
    | nil => rw [inner, inner'] at scopes; cases scopes
    | cons scope' outer' =>
      rw [inner, inner'] at scopes
      cases scopes with
      | @cons σ σs _ _ _ _ first rest =>
        have same : scope'.contains name'.text = scope.contains name.text := by
          rw [declared.text]
          exact first.contains name.text
        dsimp only
        rw [same]
        split
        · refine h.note declared.line (fun plain => ?_) .redeclared
          rw [declared.text]
          exact congrArg (fun τ : Renaming => τ name.text) (plain.allows first.allowed)
        · exact h.mark declared.known declared.text .declared

theorem declareAll {parameters parameters' : List Name}
    (declared : List.Forall₂ (Name.Declared K (.innermost σs)) parameters parameters')
    (h : s.Alike K σs s') :
    (parameters.foldl (fun s name => (s.declare name).define name) s).Alike K σs
      (parameters'.foldl (fun s name => (s.declare name).define name) s') := by
  induction declared generalizing s s' with
  | nil => exact h
  | cons first _ ih => exact ih ((h.declare first).define first)

theorem enterFunction (h : s.Alike K σs s') (allowed : K.Allows σ)
    {parameters parameters' : List Name}
    (declared : List.Forall₂ (Name.Declared K σ) parameters parameters') :
    (s.enterFunction parameters).Alike K (σ :: σs) (s'.enterFunction parameters') :=
  have inside : List.Forall₂ (Name.Declared K (.innermost (σ :: σs))) parameters parameters' :=
    declared
  declareAll inside (h.enter allowed)

theorem checkReturn (h : s.Alike K σs s') (context : ScopeContext) {line line' : Nat}
    (same : K.lines line line') (hasValue : Bool) :
    (s.checkReturn context line hasValue).Alike K σs (s'.checkReturn context line' hasValue) := by
  have noted (fault : ScopeFault) :
      (s.note ⟨"return", line⟩ fault).Alike K σs (s'.note ⟨"return", line'⟩ fault) := by
    refine h.note same (fun _ => ?_) fault
    rfl
  unfold ScopeState.checkReturn
  split
  · exact noted .returnAtTopLevel
  · split
    · exact noted .returnValueFromInitializer
    · exact h
  all_goals exact h

-- References.

variable {r r' : Reference}

theorem text (h : s.Alike K σs s') (alike : r.Alike K σs r')
    (located : K.Locates s r) :
    r'.name.text = Renaming.reached σs (s.distance? r.name.text) r.name.text := by
  obtain ⟨d, linked, text⟩ := alike.linked
  rcases located with plain | found
  · have reached (d : Option Nat) := plain.allows (h.scopes.allowed d)
    rw [reached] at text ⊢
    exact text
  · rw [found linked]
    exact text

theorem distance? (resolves : K.Resolves table) (h : s.Alike K σs s') (alike : r.Alike K σs r')
    (located : K.Locates s r) :
    s'.distance? r'.name.text = s.distance? r.name.text :=
  h.scopes.findIdx? resolves alike.known (h.text alike located)

theorem resolve (resolves : K.Resolves table) (h : s.Alike K σs s') (alike : r.Alike K σs r')
    (located : K.Locates s r) : (s.resolve r).Alike K σs (s'.resolve r') := by
  unfold ScopeState.resolve
  rw [h.distance? resolves alike located]
  cases s.distance? r.name.text with
  | none => exact h
  | some distance =>
    refine ⟨h.scopes, h.faults, fun {i j d} linked => ?_⟩
    obtain ⟨_, own, -⟩ := alike.linked
    have both := resolves.oneToOne own linked
    simp only [Std.TreeMap.getElem?_insert, Std.LawfulEqCmp.compare_eq_iff_eq, both,
      h.entered linked]

theorem isPending (resolves : K.Resolves table) (h : s.Alike K σs s') (alike : r.Alike K σs r')
    (located : K.Locates s r) :
    s'.isPending r'.name.text = s.isPending r.name.text := by
  have scopes := h.scopes
  have same := h.distance? resolves alike located
  have text := h.text alike located
  unfold ScopeState.isPending
  unfold ScopeState.distance? at same text
  generalize s.scopes = inner at scopes same text ⊢
  generalize s'.scopes = inner' at scopes same ⊢
  cases scopes with
  | nil => rfl
  | @cons σ σs scope scope' outer outer' first rest =>
    simp only [List.findIdx?_cons] at same text
    simp only [List.head?_cons, Option.bind_some]
    cases here : scope.contains r.name.text with
    | true =>
      have renamed : r'.name.text = σ r.name.text := by
        rw [text, here]
        rfl
      rw [renamed, first.status]
    | false =>
      have missing : scope'.contains r'.name.text = false := by
        by_contra inside
        rw [Bool.not_eq_false] at inside
        simp [here, inside] at same
      simp only [Bindings.contains, Option.isSome_eq_false_iff, Option.isNone_iff_eq_none]
        at here missing
      rw [here, missing]

theorem use (resolves : K.Resolves table) (h : s.Alike K σs s') (alike : r.Alike K σs r')
    (located : K.Locates s r) : (s.use r).Alike K σs (s'.use r') := by
  unfold ScopeState.use
  rw [h.isPending resolves alike located]
  cases s.isPending r.name.text with
  | false => exact h.resolve resolves alike located
  | true =>
    refine (h.note alike.line (fun plain => ?_) .readInOwnInitializer).resolve
      resolves alike located
    rw [h.text alike located, plain.allows (h.scopes.allowed _), Renaming.same_apply]

end ScopeState.Alike

-- Expressions.

section

variable {K : Link} {table : Resolution} {σs : List Renaming} {context : ScopeContext}

theorem Link.Locates.congr {s s₁ : ScopeState} {r : Reference} (located : K.Locates s r)
    (same : s₁.scopes = s.scopes) : K.Locates s₁ r := by
  unfold Link.Locates ScopeState.distance? at located ⊢
  rwa [same]

theorem Link.Locates.behind {s : ScopeState} {references : List Reference} (e : Expr)
    (located : ∀ r ∈ references, K.Locates s r) :
    ∀ r ∈ references, K.Locates (e.scopes context s) r :=
  fun r mem => (located r mem).congr (e.scopes_scopes context s)

mutual

theorem Expr.Alike.scopes (resolves : K.Resolves table) (context : ScopeContext) :
    ∀ {e e' : Expr} {s s' : ScopeState},
    e.Alike K σs e' → s.Alike K σs s' → (∀ r ∈ e.references, K.Locates s r) →
      (e.scopes context s).Alike K σs (e'.scopes context s')
  | _, _, _, _, .literal, h, _ => h
  | _, _, _, _, .grouping e, h, located | _, _, _, _, .unary _ e, h, located
  | _, _, _, _, .get _ e, h, located => e.scopes resolves context h located
  | .binary _ _ left right, _, _, _, .binary _ e e', h, located
  | .logical _ left right, _, _, _, .logical e e', h, located => by
    have first := e.scopes resolves context h fun r mem =>
      located r (List.mem_append_left _ mem)
    exact e'.scopes resolves context first (Link.Locates.behind left fun r mem =>
      located r (List.mem_append_right _ mem))
  | .set object name value, _, _, _, .set _ e e', h, located => by
    have first := e'.scopes resolves context h fun r mem =>
      located r (List.mem_append_right _ mem)
    exact e.scopes resolves context first (Link.Locates.behind value fun r mem =>
      located r (List.mem_append_left _ mem))
  | _, _, _, _, .var r, h, located => h.use resolves r (located _ List.mem_cons_self)
  | .assign _ value, _, _, _, .assign r e, h, located => by
    have first := e.scopes resolves context h fun r mem =>
      located r (List.mem_cons_of_mem _ mem)
    exact first.resolve resolves r
      ((located _ List.mem_cons_self).congr (value.scopes_scopes context _))
  | .call callee _ _, _, _, _, .call _ e es, h, located => by
    have first := e.scopes resolves context h fun r mem =>
      located r (List.mem_append_left _ mem)
    exact es.scopes resolves context first (Link.Locates.behind callee fun r mem =>
      located r (List.mem_append_right _ mem))
  | .self reference, _, s, _, .self r, h, located => by
    have here := located reference List.mem_cons_self
    unfold Expr.scopes
    cases context.owner with
    | outside =>
      refine h.note r.line (fun plain => ?_) .thisOutsideClass
      rw [h.text r here, plain.allows (h.scopes.allowed _), Renaming.same_apply]
    | base | derived => exact h.resolve resolves r here
  | .super reference _, _, s, _, .super r _, h, located => by
    have here := located reference List.mem_cons_self
    unfold Expr.scopes
    cases context.owner with
    | outside =>
      refine h.note r.line (fun plain => ?_) .superOutsideClass
      rw [h.text r here, plain.allows (h.scopes.allowed _), Renaming.same_apply]
    | base =>
      refine h.note r.line (fun plain => ?_) .superWithoutSuperclass
      rw [h.text r here, plain.allows (h.scopes.allowed _), Renaming.same_apply]
    | derived => exact h.resolve resolves r here

theorem Expr.AllAlike.scopes (resolves : K.Resolves table) (context : ScopeContext) :
    ∀ {es es' : List Expr} {s s' : ScopeState},
      Expr.AllAlike K σs es es' → s.Alike K σs s' →
        (∀ r ∈ Expr.referencesAll es, K.Locates s r) →
          (Expr.scopesAll context es s).Alike K σs (Expr.scopesAll context es' s')
  | _, _, _, _, .nil, h, _ => h
  | e :: _, _, _, _, .cons first rest, h, located => by
    have before := first.scopes resolves context h fun r mem =>
      located r (List.mem_append_left _ mem)
    exact rest.scopes resolves context before (Link.Locates.behind e fun r mem =>
      located r (List.mem_append_right _ mem))

end

end

theorem Expr.optionAlike_scopes {K : Link} {table : Resolution} {σs : List Renaming}
    (resolves : K.Resolves table) (context : ScopeContext) {e e' : Option Expr} {s s' : ScopeState}
    (alike : Option.Rel (Expr.Alike K σs) e e') (h : s.Alike K σs s')
    (located : ∀ inner ∈ e, ∀ r ∈ inner.references, K.Locates s r) :
    (Expr.scopes? context e s).Alike K σs (Expr.scopes? context e' s') := by
  cases alike with
  | none => exact h
  | some alike => exact alike.scopes resolves context h (located _ rfl)

-- Classes.

section

variable {K : Link} {table : Resolution} {σs : List Renaming} {s s' : ScopeState}

theorem ScopeState.distance?_mark (s : ScopeState) (name : String) (status : Status) :
    (s.mark name status).distance? name = (s.mark name status).scopes.head?.map fun _ => 0 := by
  unfold distance? mark
  cases scopes : s.scopes with
  | nil => simp [scopes]
  | cons scope outer => simp [List.findIdx?_cons, Bindings.contains_insert]

theorem ScopeState.Alike.inherits_iff (resolves : K.Resolves table)
    {name name' : Name} {r r' : Reference} (named : name.Declared K (.innermost σs) name')
    (fixed : name'.text = name.text)
    (h : ((s.declare name).define name).Alike K σs ((s'.declare name').define name'))
    (alike : r.Alike K σs r') (located : K.Locates ((s.declare name).define name) r) :
    r'.name.text = name'.text ↔ r.name.text = name.text := by
  have text := h.text alike located
  constructor
  · intro same
    have changed : Renaming.reached σs _ r.name.text = Renaming.same name.text :=
      text.symm.trans (same.trans fixed)
    exact resolves.apart (h.scopes.allowed _) (.inl rfl) alike.known named.known changed
  · intro same
    -- The name of the class is found in the innermost scope, if there is one.
    have innermost : Renaming.reached σs (((s.declare name).define name).distance? name.text) =
        .innermost σs := by
      have scopes := h.scopes
      have found := (s.declare name).distance?_mark name.text .defined
      unfold ScopeState.define at scopes ⊢
      rw [found]
      generalize ((s.declare name).mark name.text .defined).scopes = inner at scopes ⊢
      generalize ((s'.declare name').mark name'.text .defined).scopes = inner' at scopes
      cases scopes <;> rfl
    rw [text, same, innermost, named.text]

theorem ScopeState.Alike.enterClass (resolves : K.Resolves table) (h : s.Alike K σs s')
    {name name' : Name} (named : name.Declared K (.innermost σs) name')
    (fixed : name'.text = name.text) {above above' : Option Reference}
    (alike : Option.Rel (Reference.Alike K σs) above above')
    (located : ∀ r ∈ above, K.Locates ((s.declare name).define name) r) :
    (s.enterClass name above).Alike K (Renaming.ofMethod above σs)
    (s'.enterClass name' above') := by
  have defined := (h.declare named).define named
  cases alike with
  | none => exact (defined.enter (.inl rfl)).mark resolves.keywords.1 rfl .defined
  | @some r r' alike =>
    have here := located r rfl
    have derived {noted noted' : ScopeState} (h : noted.Alike K σs noted')
        (located : K.Locates noted r) :
        (((noted.use r).enter.mark "super" .defined).enter.mark "this" .defined).Alike K
          (.same :: .same :: σs)
          (((noted'.use r').enter.mark "super" .defined).enter.mark "this" .defined) := by
      have above := (h.use resolves alike located).enter (.inl rfl)
      have named := (above.mark resolves.keywords.2 rfl .defined).enter (.inl rfl)
      exact named.mark resolves.keywords.1 rfl .defined
    have same := ScopeState.Alike.inherits_iff resolves named fixed defined alike here
    unfold ScopeState.enterClass
    by_cases inherits : r.name.text = name.text
    · simp only [inherits, same.mpr inherits, if_true]
      refine derived (defined.note alike.line (fun plain => ?_) .inheritsFromItself) here
      rw [same.mpr inherits, inherits, fixed]
    · have inherits' : r'.name.text ≠ name'.text := fun found => inherits (same.mp found)
      simp only [inherits, inherits', if_false]
      exact derived defined here

theorem ScopeState.Alike.leaveClass {above above' : Option Reference}
    (alike : Option.Rel (Reference.Alike K σs) above above')
    (h : s.Alike K (Renaming.ofMethod above σs) s') :
    (s.leaveClass above).Alike K σs (s'.leaveClass above') := by
  cases alike with
  | none => exact h.leave
  | some => exact h.leave.leave

end

-- Statements.

/-- What is known of a part of the first tree: nothing if no names are changed, and else that the
resolver accepts it. -/
def Link.Settled (K : Link) (table : Resolution) (part : Part) (context : ScopeContext)
    (s : ScopeState) : Prop :=
  K.Plain ∨ ∃ frames, Settles table frames part context s

theorem Link.Settled.imp {K : Link} {table : Resolution} {whole part : Part}
    {context context' : ScopeContext} {s s' : ScopeState} (h : K.Settled table whole context s)
    (inner : ∀ frames, Settles table frames whole context s →
      ∃ frames', Settles table frames' part context' s') :
    K.Settled table part context' s' :=
  Or.imp_right (fun ⟨frames, settles⟩ => inner frames settles) h

theorem Link.Settled.locates {K : Link} {table : Resolution} {e : Expr} {context : ScopeContext}
    {s : ScopeState} (resolves : K.Resolves table)
    (h : K.Settled table (.expression e) context s) : ∀ r ∈ e.references, K.Locates s r := by
  intro r mem
  rcases resolves.settled with plain | recorded
  · exact .inl plain
  rcases h with plain | ⟨frames, settles⟩
  · exact .inl plain
  obtain ⟨inside, entered⟩ := e.enters_scopes settles.names settles.free settles.clean r mem
  refine .inr fun linked => ?_
  have address := (settles.final r.id inside).trans entered
  rw [settles.names.distance?_eq, ← address, recorded linked]

theorem Link.Settled.superclass {K : Link} {table : Resolution} {name : Name} {above : Reference}
    {methods : List FunctionDecl} {context : ScopeContext} {s : ScopeState}
    (resolves : K.Resolves table)
    (h : K.Settled table (.statement (.classDecl name (some above) methods)) context s) :
    K.Locates ((s.declare name).define name) above := by
  rcases resolves.settled with plain | recorded
  · exact .inl plain
  rcases h with plain | ⟨frames, settles⟩
  · exact .inl plain
  refine .inr fun linked => ?_
  rw [(settles.names.define name).distance?_eq, ← settles.superclass, recorded linked]

section

variable {table : Resolution} {frames : List Frame} {context : ScopeContext} {s : ScopeState}
  {first : Stmt} {rest : List Stmt}

theorem Settles.head (h : Settles table frames (.row (first :: rest)) context s) :
    Settles table frames (.statement first) context s := by
  have settles := @Settles.statement table frames context s [] rest first h
  rwa [Stmt.introducedAll, List.flatMap_nil, Frame.declare_nil] at settles

theorem Settles.tail (h : Settles table frames (.row (first :: rest)) context s) :
    Settles table (Frame.declare first.introduced frames) (.row rest) context
      (first.scopes context s) :=
  h.inner first.ids [] (by simp [Part.ids, Stmt.idsAll]) (Stmt.names_scopes first context h.names)
    (fun i => Stmt.getElem?_scopes first context s) (fun _ _ => rfl) (.refl _)

end

mutual

theorem Stmt.Alike.scopes {K : Link} {table : Resolution} (resolves : K.Resolves table) :
    ∀ {σs : List Renaming} (context : ScopeContext) {stmt stmt' : Stmt} {s s' : ScopeState},
      stmt.Alike K σs stmt' → s.Alike K σs s' → K.Settled table (.statement stmt) context s →
        (stmt.scopes context s).Alike K σs (stmt'.scopes context s')
  | _, context, .expression value, _, s, _, .expression e, h, settled
  | _, context, .print value, _, s, _, .print e, h, settled => by
    have inner : K.Settled table (.expression value) context s :=
      settled.imp fun _ whole => ⟨_, whole.only rfl rfl⟩
    exact e.scopes resolves context h (inner.locates resolves)
  | _, context, .varDecl name initial, _, s, _, .varDecl named e, h, settled => by
    have walked := Expr.optionAlike_scopes resolves context e (h.declare named)
      fun inner mem => by
        obtain rfl := mem
        exact (settled.imp fun _ whole => ⟨_, whole.initial⟩).locates resolves
    exact walked.define named
  | _, context, .block _, _, _, _, .block known body, h, settled => by
    have walked := body.scopes resolves context (h.enter (.inr known))
      (settled.imp fun _ whole => ⟨_, whole.block⟩)
    exact walked.leave
  | _, context, .ifElse _ _ none, _, _, _, .ifElse e stmt, h, settled => by
    have tested := e.scopes resolves context h
      ((settled.imp fun _ whole => ⟨_, whole.test⟩).locates resolves)
    exact stmt.scopes resolves context tested (settled.imp fun _ whole => ⟨_, whole.consequent⟩)
  | _, context, .ifElse _ _ (some _), _, _, _, .ifBoth e stmt stmt', h, settled => by
    have tested := e.scopes resolves context h
      ((settled.imp fun _ whole => ⟨_, whole.test⟩).locates resolves)
    have first :=
      stmt.scopes resolves context tested (settled.imp fun _ whole => ⟨_, whole.consequent⟩)
    exact stmt'.scopes resolves context first (settled.imp fun _ whole => ⟨_, whole.alternative⟩)
  | _, context, .loop _ _ step, _, _, _, .loop e stmt next, h, settled => by
    have tested := e.scopes resolves context h
      ((settled.imp fun _ whole => ⟨_, whole.condition⟩).locates resolves)
    have body := stmt.scopes resolves context tested (settled.imp fun _ whole => ⟨_, whole.body⟩)
    refine Expr.optionAlike_scopes resolves context next body fun inner mem => ?_
    obtain rfl := mem
    exact (settled.imp fun _ whole => ⟨_, whole.step⟩).locates resolves
  | _, context, .funDecl f, .funDecl f', s, _, .funDecl fixed alike, h, settled => by
    have named : f.name.Declared K (.innermost _) f'.name :=
      ⟨alike.declared.line, alike.name.trans fixed.symm, alike.declared.known⟩
    exact alike.scopes resolves _ ((h.declare named).define named)
      (settled.imp fun _ whole => ⟨_, whole.function⟩)
  | _, context, .classDecl name above methods, .classDecl _ above' _, _, _,
      .classDecl named fixed superclass alike, h, settled => by
    have same : ClassContext.of above' = .of above := by cases superclass <;> rfl
    have entered := h.enterClass resolves named fixed superclass fun r mem => by
      obtain rfl := mem
      exact settled.superclass resolves
    have walked := alike.scopes resolves { context with owner := .of above } entered
      fun before f after split => by
        subst split
        exact settled.imp fun _ whole => ⟨_, whole.method rfl⟩
    rw [Stmt.scopes, Stmt.scopes, same]
    exact walked.leaveClass superclass
  | _, context, .returning _ value, .returning _ value', s, s', .returning line e, h, settled => by
    have same : value'.isSome = value.isSome := by cases e <;> rfl
    rw [Stmt.scopes, Stmt.scopes, same]
    refine Expr.optionAlike_scopes resolves context e
      (h.checkReturn context line _) fun inner mem => ?_
    obtain rfl := mem
    exact (settled.imp fun _ whole => ⟨_, whole.result⟩).locates resolves
  | _, _, _, _, _, _, .jump, h, _ => h

theorem Stmt.AllAlike.scopes {K : Link} {table : Resolution} (resolves : K.Resolves table) :
    ∀ {σs : List Renaming} (context : ScopeContext) {body body' : List Stmt} {s s' : ScopeState},
      Stmt.AllAlike K σs body body' → s.Alike K σs s' → K.Settled table (.row body) context s →
        (Stmt.scopesAll context body s).Alike K σs (Stmt.scopesAll context body' s')
  | _, _, _, _, _, _, .nil, h, _ => h
  | _, context, stmt :: _, _, s, _, .cons first rest, h, settled => by
    have walked := first.scopes resolves context h
      (settled.imp fun _ whole => ⟨_, whole.head⟩)
    exact rest.scopes resolves context walked (settled.imp fun _ whole => ⟨_, whole.tail⟩)

theorem FunctionDecl.Alike.scopes {K : Link} {table : Resolution} (resolves : K.Resolves table) :
    ∀ {σs : List Renaming} (context : ScopeContext) {f f' : FunctionDecl} {s s' : ScopeState},
      f.Alike K σs f' → s.Alike K σs s' → K.Settled table (.function f) context s →
        (f.scopes context s).Alike K σs (f'.scopes context s')
  | _, context, .mk _ _ _, _, _, _, .mk _ known parameters body, h, settled => by
    have walked := body.scopes resolves context
      (h.enterFunction (.inr known) parameters) (settled.imp fun _ whole => ⟨_, whole.calling⟩)
    exact walked.leave

theorem FunctionDecl.AllAlike.scopes {K : Link} {table : Resolution} (resolves : K.Resolves table) :
    ∀ {σs : List Renaming} (inside : ScopeContext) {fs fs' : List FunctionDecl}
      {s s' : ScopeState}, FunctionDecl.AllAlike K σs fs fs' → s.Alike K σs s' →
        (∀ before f after, fs = before ++ f :: after →
          K.Settled table (.function f) { inside with function := .ofMethod f }
            (FunctionDecl.scopesAll inside before s)) →
          (FunctionDecl.scopesAll inside fs s).Alike K σs (FunctionDecl.scopesAll inside fs' s')
  | _, _, _, _, _, _, .nil, h, _ => h
  | _, inside, f :: rest, f' :: _, s, s', .cons alike others, h, settled => by
    have same : FunctionContext.ofMethod f' = .ofMethod f := by
      rw [FunctionContext.ofMethod, FunctionContext.ofMethod, alike.isInitializer]
    have walked :=
      alike.scopes resolves { inside with function := .ofMethod f } h (settled [] f rest rfl)
    rw [FunctionDecl.scopesAll, FunctionDecl.scopesAll, same]
    exact others.scopes resolves inside walked fun before g after split =>
      settled (f :: before) g after (congrArg (f :: ·) split)

end

-- Whole programs.

section

variable {K : Link} {table : Resolution} {body body' : List Stmt}

theorem ScopeState.Alike.initial : ScopeState.Alike K [] .initial .initial :=
  ⟨.nil, .nil, fun _ => rfl⟩

theorem resolve_alike (resolves : K.Resolves table) (alike : Stmt.AllAlike K [] body body')
    (settled : K.Settled table (.row body) .topLevel .initial) :
    (∃ faults faults', resolve body = .error faults ∧ resolve body' = .error faults' ∧
      List.Forall₂ (Diagnostic.Alike K) faults faults') ∨
    ∃ found found', resolve body = .ok found ∧ resolve body' = .ok found' ∧
      ∀ {i j d}, K.linked i j d → found'[j]? = found[i]? := by
  have walked := alike.scopes resolves .topLevel .initial settled
  have same : (Stmt.scopesAll .topLevel body' .initial).faults.isEmpty =
      (Stmt.scopesAll .topLevel body .initial).faults.isEmpty := by
    have faults := walked.faults
    generalize (Stmt.scopesAll .topLevel body .initial).faults = noted at faults ⊢
    generalize (Stmt.scopesAll .topLevel body' .initial).faults = noted' at faults ⊢
    cases faults <;> rfl
  unfold resolve
  simp only [same]
  cases (Stmt.scopesAll .topLevel body .initial).faults.isEmpty with
  | true => exact .inr ⟨_, _, rfl, rfl, walked.entered⟩
  | false => exact .inl ⟨_, _, rfl, rfl, walked.faults⟩

theorem eq_of_alike (plain : K.Plain) (level : ∀ {line line'}, K.lines line line' → line' = line)
    {faults faults' : List Diagnostic} (h : List.Forall₂ (Diagnostic.Alike K) faults faults') :
    faults' = faults := by
  induction h with
  | nil => rfl
  | cons first _ ih =>
    cases first with
    | scoping line text => rw [ih, level line, text plain]

end

end ScopeScript
