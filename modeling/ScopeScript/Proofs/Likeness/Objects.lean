import ScopeScript.Proofs.Likeness.Runs

set_option autoImplicit false

namespace ScopeScript

open Run

variable {K : Link} {ρ : World} {σs : List Renaming} {m m' : Machine}

-- Methods and classes.

namespace Run

theorem agrees_bind (h : m.Matches K ρ σs m') {f f' : Method} (alike : f.Alike K ρ f')
    {i i' : Instance} (receiver : i.Alike K ρ i') :
    Agrees K ρ σs (Closure.Alike K) (bind f i m) (bind f' i' m') := by
  obtain ⟨τs, follows, declaration⟩ := alike.declaration
  have grows := List.prefix_append ρ [Renaming.same]
  obtain ⟨same, scope⟩ := h.store.enclose f.environment (σ := .same) (.inl rfl)
  have last : (ρ ++ [Renaming.same])[m.store.scopes.size]? = some .same := by simp [h.store.scopes]
  have bound := scope.bindAt last "this"
    (Value.Alike.instance (receiver.mono (.refl K) grows))
  have stores : (((m.store.enclose f.environment).2.define (m.store.enclose f.environment).1 "this"
      (.instance i)).newIdentity.2).Alike K (ρ ++ [.same])
      (((m'.store.enclose f'.environment).2.define (m'.store.enclose f'.environment).1 "this"
        (.instance i')).newIdentity.2) := by
    rw [alike.environment, same]
    exact bound.newIdentity.2
  refine .ok grows (h.withStore stores grows) ⟨h.store.identities, ?_, declaration.isInitializer,
    _, .inner last (follows.mono grows), declaration⟩
  rw [alike.environment]
  exact same

theorem agrees_property (h : m.Matches K ρ σs m') {i i' : Instance} (receiver : i.Alike K ρ i')
    {name name' : Name} (named : name.Alike K name') :
    Agrees K ρ σs (Value.Alike K) (property i name m) (property i' name' m') := by
  refine Agrees.get_bind ?_
  have field := h.store.fields i i' name.text receiver.address
  have method := receiver.ofClass.method? name.text
  rw [named.text]
  generalize m.store.field? i name.text = found at field ⊢
  generalize m'.store.field? i' name.text = found' at field ⊢
  cases field with
  | some alike => exact .pure h alike
  | none =>
    generalize i.ofClass.method? name.text = found at method ⊢
    generalize i'.ofClass.method? name.text = found' at method ⊢
    cases method with
    | none => exact .stop h named.line
    | some alike =>
      refine (agrees_bind h alike receiver).bind fun _ f f' _ _ _ _ machines closure => ?_
      exact .pure machines (.function closure)

theorem agrees_inherited (h : m.Matches K ρ σs m') {r r' : Reference} (alike : r.Alike K σs r')
    {name name' : Name} (named : name.Alike K name') :
    Agrees K ρ σs (Value.Alike K) (inherited r name m) (inherited r' name' m') := by
  obtain ⟨d, linked, text⟩ := alike.linked
  obtain ⟨recorded, recorded'⟩ := h.linked linked
  refine Agrees.get_bind ?_
  rw [recorded, recorded']
  cases d with
  | none =>
    simp only [Renaming.reached, Renaming.same_apply] at text
    simp only [text]
    exact .stop h alike.line
  | some distance =>
    have above := h.store.lookups _ _ "super" (h.follows.ancestor h.root distance)
    have receiver := h.store.lookups _ _ "this" (h.follows.ancestor h.root (distance - 1))
    rw [Renaming.super] at above
    rw [Renaming.this] at receiver
    simp only [Store.getAt?, h.environment]
    generalize m.store.lookup (m.environment.ancestor distance).innermost "super" = c at above ⊢
    generalize m'.store.lookup (m.environment.ancestor distance).innermost "super" = c' at above ⊢
    generalize m.store.lookup (m.environment.ancestor (distance - 1)).innermost "this" = i
      at receiver ⊢
    generalize m'.store.lookup (m.environment.ancestor (distance - 1)).innermost "this" = i'
      at receiver ⊢
    cases above with
    | none => exact .stop h alike.line
    | @some above above' related =>
      cases related with
      | «class» related =>
        cases receiver with
        | none => exact .stop h alike.line
        | @some receiver receiver' bound =>
          cases bound with
          | «instance» bound =>
            have method := related.method? name.text
            simp only [named.text]
            generalize Class.method? _ name.text = found at method ⊢
            generalize Class.method? _ name.text = found' at method ⊢
            cases method with
            | none => exact .stop h named.line
            | some method =>
              refine (agrees_bind h method bound).bind fun _ f f' _ _ _ _ machines closure => ?_
              exact .pure machines (.function closure)
          | plain plain =>
            cases receiver with
            | «instance» => exact plain.elim
            | _ => exact .stop h alike.line
          | _ => exact .stop h alike.line
      | plain plain =>
        cases above with
        | «class» => exact plain.elim
        | _ => exact .stop h alike.line
      | _ => exact .stop h alike.line

theorem agrees_closure (h : m.Matches K ρ σs m') {f f' : FunctionDecl} (alike : f.Alike K σs f') :
    Agrees K ρ σs (Closure.Alike K) (closure f m) (closure f' m') :=
  .ok List.prefix_rfl (h.withStore h.store.newIdentity.2 List.prefix_rfl)
    ⟨h.store.identities, h.environment, rfl, σs, h.follows, alike⟩

theorem agrees_superclass (h : m.Matches K ρ σs m') {r r' : Reference} (alike : r.Alike K σs r')
    (found : K.Found m r) :
    Agrees K ρ σs (Class.Alike K) (superclass r m) (superclass r' m') := by
  refine (agrees_lookUp h alike found).bind fun ρ' value value' _ _ _ _ machines related => ?_
  cases related with
  | «class» c => exact .pure machines c
  | @plain value plain =>
    cases value with
    | «class» => exact plain.elim
    | _ => exact .stop machines alike.line
  | _ => exact .stop machines alike.line

end Run

def Method.EntryAlike (K : Link) (ρ : World) (entry entry' : String × Method) : Prop :=
  entry'.1 = entry.1 ∧ entry.2.Alike K ρ entry'.2

theorem Method.entries_replace {name : String} {f f' : Method} (alike : f.Alike K ρ f')
    {entries entries' : List (String × Method)}
    (h : List.Forall₂ (Method.EntryAlike K ρ) entries entries') :
    List.Forall₂ (Method.EntryAlike K ρ) (Bindings.replace name f entries)
      (Bindings.replace name f' entries') := by
  induction h with
  | nil => exact .cons ⟨rfl, alike⟩ .nil
  | @cons entry entry' _ _ both rest ih =>
    obtain ⟨key, method⟩ := entry
    obtain ⟨key', method'⟩ := entry'
    obtain ⟨rfl, related⟩ := both
    by_cases same : key' = name
    · simp only [Bindings.replace, same, if_true]
      exact .cons ⟨rfl, alike⟩ rest
    · simp only [Bindings.replace, same, if_false]
      exact .cons ⟨rfl, related⟩ ih

theorem Method.entries_methodTable {env : Environment} {τs : List Renaming}
    (follows : Follows ρ env.chain τs) {fs fs' : List FunctionDecl}
    (h : FunctionDecl.AllAlike K (.same :: τs) fs fs') :
    List.Forall₂ (Method.EntryAlike K ρ) (methodTable fs env).entries
      (methodTable fs' env).entries := by
  have fold : ∀ (fs fs' : List FunctionDecl) (b b' : Bindings Method),
      FunctionDecl.AllAlike K (.same :: τs) fs fs' →
      List.Forall₂ (Method.EntryAlike K ρ) b.entries b'.entries →
      List.Forall₂ (Method.EntryAlike K ρ)
        ((fs.map fun f => (f.name.text, Method.mk f env)).foldl
          (fun b pair => b.insert pair.1 pair.2) b).entries
        ((fs'.map fun f => (f.name.text, Method.mk f env)).foldl
          (fun b pair => b.insert pair.1 pair.2) b').entries := by
    intro fs
    induction fs with
    | nil =>
      intro fs' b b' h start
      cases h
      exact start
    | cons f rest ih =>
      intro fs' b b' h start
      cases h with
      | @cons _ _ f' _ _ alike others =>
        simp only [List.map_cons, List.foldl_cons]
        refine ih _ _ _ others ?_
        rw [alike.name]
        have method : Method.Alike K ρ ⟨f, env⟩ ⟨f', env⟩ := ⟨rfl, τs, follows, alike⟩
        exact entries_replace method start
  exact fold fs fs' ∅ ∅ h .nil

namespace Run

def methodRenamings (derived : Bool) (σs : List Renaming) : List Renaming :=
  if derived then .same :: σs else σs

theorem agrees_methodEnvironment (h : m.Matches K ρ σs m') {above above' : Option Class}
    (alike : Option.Rel (Class.Alike K ρ) above above') :
    Agrees K ρ σs
      (fun ρ' env env' => env' = env ∧ Follows ρ' env.chain (methodRenamings above.isSome σs))
      (methodEnvironment above m) (methodEnvironment above' m') := by
  refine Agrees.get_bind ?_
  cases alike with
  | none => exact .pure h ⟨h.environment, h.follows⟩
  | @some c c' alike =>
    have grows := List.prefix_append ρ [Renaming.same]
    obtain ⟨same, scope⟩ := h.store.enclose m.environment (σ := .same) (.inl rfl)
    have last : (ρ ++ [Renaming.same])[m.store.scopes.size]? = some .same := by
      simp [h.store.scopes]
    have bound := scope.bindAt last "super" (.class (alike.mono (.refl K) grows))
    have stores : ((m.store.enclose m.environment).2.define (m.store.enclose m.environment).1
        "super" (.class c)).Alike K (ρ ++ [.same])
        ((m'.store.enclose m'.environment).2.define (m'.store.enclose m'.environment).1
          "super" (.class c')) := by
      rw [h.environment, same]
      exact bound
    refine .ok grows (h.withStore stores grows) ⟨?_, .inner last (h.follows.mono grows)⟩
    rw [h.environment]
    exact same

def layerClass (name : Name) (methods : List FunctionDecl) (above : Option Class) : Run Unit := do
  define name.text .nil
  let env ← methodEnvironment above
  let identity ← onStore Store.newIdentity
  let layer : ClassLayer := ⟨identity, name.text, methodTable methods env⟩
  let value := Value.class ⟨layer, (above.map Class.layers).getD []⟩
  assignFrom (← get).environment name value

theorem agrees_layerClass (h : m.Matches K ρ σs m') {name name' : Name}
    (text : name'.text = Renaming.innermost σs name.text) (fixed : name'.text = name.text)
    {c c' : Option Class} (classes : Option.Rel (Class.Alike K ρ) c c')
    {methods methods' : List FunctionDecl}
    (alike : FunctionDecl.AllAlike K (.same :: methodRenamings c.isSome σs) methods methods') :
    Agrees K ρ σs Same (layerClass name methods c m) (layerClass name' methods' c' m') := by
  have unset : Value.Alike K ρ .nil .nil := .plain trivial
  refine (agrees_define h text unset).bind ?_
  intro ρ₁ _ _ m₁ m₁' defined grows₁ machines₁ _
  have classes₁ : Option.Rel (Class.Alike K ρ₁) c c' := by
    cases classes with
    | none => exact .none
    | some related => exact .some (related.mono (.refl K) grows₁)
  refine (agrees_methodEnvironment machines₁ classes₁).bind ?_
  rintro ρ₂ _ env m₂ m₂' entered grows₂ machines₂ ⟨rfl, follows⟩
  -- The name is bound since it was defined, so it is found in the innermost scope.
  have bound : (m₂.store.newIdentity.2.lookup m₂.environment.innermost name.text).isSome := by
    have kept := (closedRuns_keeps.methodEnvironment _).of_ok entered
    cases defined
    refine kept.store.bound _ _ ?_
    rw [kept.environment]
    have inside : m.environment.innermost < m.store.scopes.size := by
      rw [h.store.scopes]
      exact (List.getElem?_eq_some_iff.mp (h.follows.innermost h.root)).1
    simp [Store.lookup_define, inside]
  have layers : List.Forall₂ (ClassLayer.Alike K ρ₂) ((c.map Class.layers).getD [])
      ((c'.map Class.layers).getD []) := by
    cases classes with
    | none => exact .nil
    | some related =>
      have related' := related.mono (.refl K) (grows₁.trans grows₂)
      exact .cons related'.own related'.above
  have layer : ClassLayer.Alike K ρ₂
      ⟨m₂.store.newIdentity.1, name.text, methodTable methods env⟩
      ⟨m₂'.store.newIdentity.1, name'.text, methodTable methods' env⟩ :=
    ⟨machines₂.store.identities, fixed, Method.entries_methodTable follows alike⟩
  have last := machines₂.withStore machines₂.store.newIdentity.2 List.prefix_rfl
  exact agrees_assignInnermost last text bound (.class ⟨layer, layers⟩)

theorem agrees_declareClass (h : m.Matches K ρ σs m') {name name' : Name}
    (named : name.Declared K (.innermost σs) name') (fixed : name'.text = name.text)
    {above above' : Option Reference} (superclass : Option.Rel (Reference.Alike K σs) above above')
    {methods methods' : List FunctionDecl}
    (alike : FunctionDecl.AllAlike K (Renaming.ofMethod above σs) methods methods')
    (found : ∀ r ∈ above, K.Found m r) :
    Agrees K ρ σs Same (declareClass name above methods m)
      (declareClass name' above' methods' m') := by
  cases superclass with
  | none => exact agrees_layerClass h named.text fixed .none alike
  | @some r r' related =>
    change Agrees K ρ σs Same ((some <$> Run.superclass r >>= layerClass name methods) m)
      ((some <$> Run.superclass r' >>= layerClass name' methods') m')
    refine Agrees.bind (R := fun ρ' c c' => Option.Rel (Class.Alike K ρ') c c' ∧ c.isSome = true)
      ((agrees_superclass h related (found r rfl)).map fun _ _ _ c => ⟨.some c, rfl⟩) ?_
    rintro ρ₁ c c' m₁ m₁' - - machines₁ ⟨classes, derived⟩
    refine agrees_layerClass machines₁ named.text fixed classes ?_
    rw [derived]
    exact alike

-- Native functions.

theorem agrees_plain (h : m.Matches K ρ σs m') {value : Value} (plain : value.Plain) :
    Agrees K ρ σs (Value.Alike K) ((pure value : Run Value) m) ((pure value : Run Value) m') :=
  .pure h (.plain plain)

theorem agrees_readLine (h : m.Matches K ρ σs m') {line line' : Nat} (same : K.lines line line') :
    Agrees K ρ σs (Value.Alike K) (readLine line m) (readLine line' m') := by
  refine Agrees.get_bind ?_
  rw [h.input]
  cases m.input.line with
  | awaiting => exact .throw h .awaitingInput
  | atEnd => exact agrees_plain h trivial
  | read bytes rest =>
    have moved : Agrees K ρ σs Same
        ((modify fun m => { m with input := rest } : Run Unit) m)
        ((modify fun m => { m with input := rest } : Run Unit) m') :=
      .ok List.prefix_rfl (h.withInput rest) rfl
    refine moved.bind fun ρ' _ _ _ _ _ _ machines _ => ?_
    cases Input.decode? bytes with
    | some text =>
      dsimp only
      generalize given : Value.ofInput (Input.chomp text) = value

      exact agrees_plain machines (Value.plain_of_ofInput_eq given)
    | none => exact .stop machines same

theorem agrees_clockReading (h : m.Matches K ρ σs m') :
    Agrees K ρ σs Same (clockReading m) (clockReading m') := by
  refine .ok List.prefix_rfl ?_ h.readings
  rw [h.readings]
  exact h.withReadings (m.readings + 1)

theorem agrees_write (h : m.Matches K ρ σs m') (text : String) :
    Agrees K ρ σs Same (write text m) (write text m') := by
  unfold write
  rw [h.output]
  exact .ok List.prefix_rfl (h.withOutput _) rfl

theorem agrees_greet (h : m.Matches K ρ σs m') {name name' : Value} (same : name.Resembles name')
    {line line' : Nat} (lines : K.lines line line') :
    Agrees K ρ σs (Value.Alike K) (greet name line m) (greet name' line' m') := by
  unfold greet
  rw [same.text]
  refine (agrees_write h _).bind ?_
  rintro ρ' _ fits m₁ m₁' - - machines rfl
  cases fits with
  | true => exact agrees_plain machines trivial
  | false => exact .stop machines lines

theorem agrees_callHost (h : m.Matches K ρ σs m') {arguments arguments' : List Value}
    (alike : List.Forall₂ (Value.Alike K ρ) arguments arguments') (slot : Nat) {line line' : Nat}
    (lines : K.lines line line') :
    Agrees K ρ σs (Value.Alike K) (callHost slot arguments line m)
      (callHost slot arguments' line' m') := by
  have hosts : m'.hosts[slot]? = m.hosts[slot]? := by rw [h.hosts]
  unfold callHost
  rw [hosts, h.output]
  cases found : m.hosts[slot]? with
  | none => exact agrees_plain h trivial
  | some f =>
    have resembling := alike.imp fun _ _ related => related.resembles
    rcases h.oblivious f (List.mem_of_getElem? found) arguments arguments' m.output resembling with
      ⟨value, output, plain, did, did'⟩ | ⟨i, value, value', output, at_, at', did, did'⟩ |
      ⟨message, output, did, did'⟩
    · simp only [did, did']
      exact .ok List.prefix_rfl (h.withOutput output) (.plain plain)
    · simp only [did, did']
      refine .ok List.prefix_rfl (h.withOutput output) ?_
      obtain ⟨inside, rfl⟩ := List.getElem?_eq_some_iff.mp at_
      obtain ⟨inside', rfl⟩ := List.getElem?_eq_some_iff.mp at'
      exact alike.get inside inside'
    · simp only [did, did']
      exact .stop (h.withOutput output) lines

theorem agrees_callNative (h : m.Matches K ρ σs m') {arguments arguments' : List Value}
    (alike : List.Forall₂ (Value.Alike K ρ) arguments arguments') (body : NativeBody)
    {line line' : Nat} (lines : K.lines line line') :
    Agrees K ρ σs (Value.Alike K) (callNative body arguments line m)
      (callNative body arguments' line' m') := by
  have first : (arguments.headD .nil).Resembles (arguments'.headD .nil) := by
    cases alike with
    | nil => exact .refl _
    | cons related => exact related.resembles
  cases body with
  | clock | tick =>
    refine Agrees.get_bind ((agrees_clockReading h).bind ?_)
    rintro ρ' reading _ m₁ m₁' - - machines rfl
    rw [h.clock]
    exact agrees_plain machines trivial
  | read => exact agrees_readLine h lines
  | typeOf =>
    change Agrees K ρ σs (Value.Alike K)
      ((pure (.string (arguments.headD .nil).typeName) : Run Value) m)
      ((pure (.string (arguments'.headD .nil).typeName) : Run Value) m')
    rw [first.typeName]
    exact agrees_plain h trivial
  | greet => exact agrees_greet h first lines
  | host slot => exact agrees_callHost h alike slot lines

-- Calls.

theorem agrees_checkArity (h : m.Matches K ρ σs m') {line line' : Nat} (lines : K.lines line line')
    (expected got : Nat) :
    Agrees K ρ σs Same (checkArity expected got line m) (checkArity expected got line' m') := by
  unfold checkArity
  split
  · exact .pure h rfl
  · exact .stop h lines

end Run

theorem Store.Alike.defineAll {s s' : Store} {σ : Renaming} {parameters parameters' : List Name}
    (h : s.Alike K ρ s') (env : Environment) (found : ρ[env.innermost]? = some σ)
    (named : List.Forall₂ (Name.Declared K σ) parameters parameters')
    {arguments arguments' : List Value}
    (alike : List.Forall₂ (Value.Alike K ρ) arguments arguments') :
    (s.defineAll env (parameters.zip arguments)).Alike K ρ
      (s'.defineAll env (parameters'.zip arguments')) := by
  induction named generalizing s s' arguments arguments' with
  | nil => exact h
  | @cons name name' _ _ same _ ih =>
    cases alike with
    | nil => exact h
    | @cons value value' _ _ related others =>
      have defined :
        (s.define env name.text value).Alike K ρ (s'.define env name'.text value') := by
        rw [same.text]
        exact h.bindAt found name.text related
      exact ih defined others

namespace Run

def Inside (K : Link) (f f' : Closure) (ρ : World) (env : Environment) : Prop :=
  ∃ τs, Follows ρ env.chain τs ∧
    Stmt.AllAlike K τs f.declaration.body f'.declaration.body

theorem agrees_activation (h : m.Matches K ρ σs m') {f f' : Closure} (alike : f.Alike K ρ f')
    {arguments arguments' : List Value}
    (values : List.Forall₂ (Value.Alike K ρ) arguments arguments') :
    Agrees K ρ σs (fun ρ' env env' => env' = env ∧ Inside K f f' ρ' env)
      (activation f arguments m) (activation f' arguments' m') := by
  obtain ⟨τs, follows, declaration⟩ := alike.declaration
  obtain ⟨σ, known, named, inside⟩ := declaration.inside
  obtain ⟨same, scope⟩ := h.store.enclose f.environment (σ := σ) (.inr known)
  have grows := List.prefix_append ρ [σ]
  have last : (ρ ++ [σ])[m.store.scopes.size]? = some σ := by simp [h.store.scopes]
  have values' : List.Forall₂ (Value.Alike K (ρ ++ [σ])) arguments arguments' :=
    values.imp fun _ _ related => related.mono (.refl K) grows
  have bound := scope.defineAll (m.store.enclose f.environment).1 last named values'
  have stores : ((m.store.enclose f.environment).2.defineAll (m.store.enclose f.environment).1
      (f.declaration.parameters.zip arguments)).Alike K (ρ ++ [σ])
      ((m'.store.enclose f'.environment).2.defineAll (m'.store.enclose f'.environment).1
        (f'.declaration.parameters.zip arguments')) := by
    rw [alike.environment, same]
    exact bound
  refine .ok grows (h.withStore stores grows)
    ⟨?_, σ :: τs, .inner last (follows.mono grows), inside⟩
  rw [alike.environment]
  exact same

end Run

inductive Completion.Alike (K : Link) (ρ : World) : Completion → Completion → Prop
  | normal : Completion.Alike K ρ .normal .normal
  | returned {value value' : Value} : value.Alike K ρ value' →
      Completion.Alike K ρ (.returned value) (.returned value')
  | jumped {kind : Jump} : Completion.Alike K ρ (.jumped kind) (.jumped kind)

namespace Run

theorem agrees_callResult (h : m.Matches K ρ σs m') {f f' : Closure} (alike : f.Alike K ρ f')
    {completion completion' : Completion} (ends : completion.Alike K ρ completion') :
    Agrees K ρ σs (Value.Alike K) (callResult f completion m) (callResult f' completion' m') := by
  unfold callResult
  rw [alike.isInitializer]
  by_cases initial : f.isInitializer = true
  · simp only [initial, if_true]
    refine Agrees.get_bind ?_
    obtain ⟨τs, follows, -⟩ := alike.declaration
    have receiver := h.store.lookups _ _ "this" (follows.ancestor h.root 0)
    rw [Renaming.this] at receiver
    simp only [Store.getAt?, alike.environment]
    generalize m.store.lookup (f.environment.ancestor 0).innermost "this" = value at receiver ⊢
    generalize m'.store.lookup (f.environment.ancestor 0).innermost "this" = value' at receiver ⊢
    cases receiver with
    | none => exact agrees_plain h trivial
    | some related => exact .pure h related
  · simp only [initial]
    cases ends with
    | normal | jumped => exact agrees_plain h trivial
    | returned related => exact .pure h related

theorem agrees_printLine (h : m.Matches K ρ σs m') {value value' : Value}
    (alike : value.Alike K ρ value') :
    Agrees K ρ σs Same (printLine value m) (printLine value' m') := by
  unfold printLine
  rw [alike.resembles.text]
  refine (agrees_write h _).bind ?_
  rintro ρ' _ fits m₁ m₁' - - machines rfl
  cases fits with
  | true => exact .pure machines rfl
  | false => exact .throw machines .output

end Run

end ScopeScript
