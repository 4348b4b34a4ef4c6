import ScopeScript.Proofs.Execution.Sound
import ScopeScript.Proofs.Likeness.Tree

set_option autoImplicit false

namespace ScopeScript

abbrev World := List Renaming

theorem World.getElem?_mono {ρ ρ' : World} {address : Nat} {σ : Renaming}
    (found : ρ[address]? = some σ) (grows : ρ <+: ρ') : ρ'[address]? = some σ := by
  obtain ⟨more, rfl⟩ := grows
  have inside : address < ρ.length := (List.getElem?_eq_some_iff.mp found).1
  rw [List.getElem?_append_left inside, found]

inductive Follows (ρ : World) : List Nat → List Renaming → Prop
  | root : Follows ρ [Environment.root.innermost] []
  | inner {address : Nat} {chain : List Nat} {σ : Renaming} {σs : List Renaming} :
      ρ[address]? = some σ → Follows ρ chain σs → Follows ρ (address :: chain) (σ :: σs)

theorem Follows.mono {ρ ρ' : World} {chain : List Nat} {σs : List Renaming}
    (h : Follows ρ chain σs) (grows : ρ <+: ρ') : Follows ρ' chain σs := by
  induction h with
  | root => exact .root
  | inner found _ ih => exact .inner (World.getElem?_mono found grows) ih

theorem Follows.ancestor {ρ : World} (root : ρ[Environment.root.innermost]? = some .same)
    {env : Environment} {σs : List Renaming} (h : Follows ρ env.chain σs) (distance : Nat) :
    ρ[(env.ancestor distance).innermost]? = some (Renaming.reached σs (some distance)) := by
  induction distance generalizing env σs with
  | zero =>
    obtain ⟨innermost, outer⟩ := env
    cases h with
    | root => exact root
    | inner found _ => exact found
  | succ distance ih =>
    obtain ⟨innermost, outer⟩ := env
    cases h with
    | root => exact root
    | inner found rest =>
      cases outer with
      | nil => cases rest
      | cons a outer => exact @ih ⟨a, outer⟩ _ rest

section

variable (K : Link) (ρ : World)

structure Closure.Alike (f f' : Closure) : Prop where
  identity : f'.identity = f.identity
  environment : f'.environment = f.environment
  isInitializer : f'.isInitializer = f.isInitializer
  declaration : ∃ σs, Follows ρ f.environment.chain σs ∧ f.declaration.Alike K σs f'.declaration

structure Method.Alike (f f' : Method) : Prop where
  environment : f'.environment = f.environment
  declaration : ∃ σs, Follows ρ f.environment.chain σs ∧
    f.declaration.Alike K (.same :: σs) f'.declaration

structure ClassLayer.Alike (c c' : ClassLayer) : Prop where
  identity : c'.identity = c.identity
  name : c'.name = c.name
  methods : List.Forall₂ (fun entry entry' => entry'.1 = entry.1 ∧ entry.2.Alike K ρ entry'.2)
    c.methods.entries c'.methods.entries

structure Class.Alike (c c' : Class) : Prop where
  own : c.own.Alike K ρ c'.own
  above : List.Forall₂ (ClassLayer.Alike K ρ) c.above c'.above

structure Instance.Alike (i i' : Instance) : Prop where
  address : i'.address = i.address
  ofClass : i.ofClass.Alike K ρ i'.ofClass

inductive Value.Alike : Value → Value → Prop
  | plain {value : Value} : value.Plain → Value.Alike value value
  | function {f f' : Closure} : f.Alike K ρ f' → Value.Alike (.function f) (.function f')
  | class {c c' : Class} : c.Alike K ρ c' → Value.Alike (.class c) (.class c')
  | instance {i i' : Instance} : i.Alike K ρ i' → Value.Alike (.instance i) (.instance i')

end

section

variable {K K' : Link} {ρ ρ' : World}

theorem Closure.Alike.mono {f f' : Closure} (h : f.Alike K ρ f') (below : K.Below K')
    (grows : ρ <+: ρ') : f.Alike K' ρ' f' := by
  obtain ⟨σs, follows, alike⟩ := h.declaration
  exact ⟨h.identity, h.environment, h.isInitializer, σs, follows.mono grows, alike.mono below⟩

theorem Method.Alike.mono {f f' : Method} (h : f.Alike K ρ f') (below : K.Below K')
    (grows : ρ <+: ρ') : f.Alike K' ρ' f' := by
  obtain ⟨σs, follows, alike⟩ := h.declaration
  exact ⟨h.environment, σs, follows.mono grows, alike.mono below⟩

theorem ClassLayer.Alike.mono {c c' : ClassLayer} (h : c.Alike K ρ c') (below : K.Below K')
    (grows : ρ <+: ρ') : c.Alike K' ρ' c' :=
  ⟨h.identity, h.name, h.methods.imp fun _ _ entry => ⟨entry.1, entry.2.mono below grows⟩⟩

theorem Class.Alike.mono {c c' : Class} (h : c.Alike K ρ c') (below : K.Below K')
    (grows : ρ <+: ρ') : c.Alike K' ρ' c' :=
  ⟨h.own.mono below grows, h.above.imp fun _ _ layer => layer.mono below grows⟩

theorem Instance.Alike.mono {i i' : Instance} (h : i.Alike K ρ i') (below : K.Below K')
    (grows : ρ <+: ρ') : i.Alike K' ρ' i' :=
  ⟨h.address, h.ofClass.mono below grows⟩

theorem Value.Alike.mono {value value' : Value} (h : value.Alike K ρ value') (below : K.Below K')
    (grows : ρ <+: ρ') : value.Alike K' ρ' value' := by
  cases h with
  | plain h => exact .plain h
  | function h => exact .function (h.mono below grows)
  | «class» h => exact .class (h.mono below grows)
  | «instance» h => exact .instance (h.mono below grows)

theorem Link.Below.refl (K : Link) : K.Below K := ⟨id, id, id, id⟩

-- What values that are alike have in common.

theorem Closure.Alike.arity {f f' : Closure} (h : f.Alike K ρ f') : f'.arity = f.arity := by
  obtain ⟨σs, -, alike⟩ := h.declaration
  exact alike.arity

theorem ClassLayer.Alike.get? {c c' : ClassLayer} (h : c.Alike K ρ c') (name : String) :
    Option.Rel (Method.Alike K ρ) (c.methods.get? name) (c'.methods.get? name) := by
  unfold Bindings.get?
  have entries := h.methods
  generalize c.methods.entries = xs at entries ⊢
  generalize c'.methods.entries = ys at entries ⊢
  induction entries with
  | nil => exact .none
  | @cons entry entry' _ _ alike _ ih =>
    obtain ⟨key, method⟩ := entry
    obtain ⟨key', method'⟩ := entry'
    obtain ⟨same, alike⟩ := alike
    simp only at same
    subst same
    by_cases found : key' = name
    · simpa [Bindings.lookup, found] using Option.Rel.some alike
    · simpa [Bindings.lookup, found] using ih

theorem Class.Alike.method? {c c' : Class} (h : c.Alike K ρ c') (name : String) :
    Option.Rel (Method.Alike K ρ) (c.method? name) (c'.method? name) := by
  have layers : List.Forall₂ (ClassLayer.Alike K ρ) c.layers c'.layers := .cons h.own h.above
  unfold Class.method?
  generalize c.layers = xs at layers ⊢
  generalize c'.layers = ys at layers ⊢
  induction layers with
  | nil => exact .none
  | @cons layer layer' _ _ alike _ ih =>
    have found := alike.get? name
    simp only [List.findSome?_cons]
    generalize layer.methods.get? name = own at found ⊢
    generalize layer'.methods.get? name = own' at found ⊢
    cases found with
    | none => exact ih
    | some alike => exact .some alike

theorem Method.Alike.arity {f f' : Method} (h : f.Alike K ρ f') :
    f'.declaration.parameters.length = f.declaration.parameters.length := by
  obtain ⟨σs, -, alike⟩ := h.declaration
  exact alike.arity

theorem Class.Alike.arity {c c' : Class} (h : c.Alike K ρ c') : c'.arity = c.arity := by
  have init := h.method? "init"
  unfold Class.arity
  generalize c.method? "init" = found at init ⊢
  generalize c'.method? "init" = found' at init ⊢
  cases init with
  | none => rfl
  | some alike => exact alike.arity

end

/-- What can be told from a value without running it is the same. -/
inductive Value.Resembles : Value → Value → Prop
  | plain {value : Value} : value.Plain → Value.Resembles value value
  | function {f f' : Closure} : f'.identity = f.identity → f'.name = f.name →
      f'.arity = f.arity → Value.Resembles (.function f) (.function f')
  | class {c c' : Class} : c'.own.identity = c.own.identity → c'.name = c.name →
      c'.arity = c.arity → Value.Resembles (.class c) (.class c')
  | instance {i i' : Instance} : i'.address = i.address → i'.ofClass.name = i.ofClass.name →
      Value.Resembles (.instance i) (.instance i')

theorem Value.Alike.resembles {K : Link} {ρ : World} {value value' : Value}
    (h : value.Alike K ρ value') : value.Resembles value' := by
  cases h with
  | plain plain => exact .plain plain
  | function f =>
    obtain ⟨σs, -, alike⟩ := f.declaration
    exact .function f.identity alike.name f.arity
  | «class» c => exact .class c.own.identity c.own.name c.arity
  | «instance» i => exact .instance i.address i.ofClass.own.name

theorem Value.Resembles.refl (value : Value) : value.Resembles value := by
  cases value with
  | function => exact .function rfl rfl rfl
  | «class» => exact .class rfl rfl rfl
  | «instance» => exact .instance rfl rfl
  | nil | bool _ | number _ | string _ | native _ => exact .plain trivial

namespace Value.Resembles

variable {a a' b b' : Value}

theorem text (h : a.Resembles a') : a'.text = a.text := by
  cases h with
  | plain => rfl
  | function _ name => simp [Value.text, name]
  | «class» _ name => exact name
  | «instance» _ name => simp [Value.text, name]

theorem isTruthy (h : a.Resembles a') : a'.isTruthy = a.isTruthy := by
  cases h <;> rfl

theorem typeName (h : a.Resembles a') : a'.typeName = a.typeName := by
  cases h <;> rfl

theorem equals (h : a.Resembles a') (h' : b.Resembles b') : a'.equals b' = a.equals b := by
  cases h with
  | @plain a plain =>
    cases h' with
    | plain => rfl
    | _ => cases a <;> first | rfl | exact plain.elim
  | function identity =>
    cases h' with
    | @plain b plain => cases b <;> first | rfl | exact plain.elim
    | function identity' => simp [Value.equals, identity, identity']
    | _ => rfl
  | «class» identity =>
    cases h' with
    | @plain b plain => cases b <;> first | rfl | exact plain.elim
    | «class» identity' => simp [Value.equals, identity, identity']
    | _ => rfl
  | «instance» address =>
    cases h' with
    | @plain b plain => cases b <;> first | rfl | exact plain.elim
    | «instance» address' => simp [Value.equals, address, address']
    | _ => rfl

theorem plus (h : a.Resembles a') (h' : b.Resembles b') : a'.plus b' = a.plus b := by
  have left := h.text
  have right := h'.text
  cases h with
  | @plain a plain =>
    cases h' with
    | plain => rfl
    | _ =>
      cases a with
      | string => simp only [Value.plus, right]
      | function | «class» | «instance» => exact plain.elim
      | _ => rfl
  | _ =>
    cases h' with
    | @plain b plain =>
      cases b with
      | string => simp only [Value.plus, left]
      | function | «class» | «instance» => exact plain.elim
      | _ => rfl
    | _ => rfl

theorem onNumbers (f : Float → Float → Value) (h : a.Resembles a') (h' : b.Resembles b') :
    Value.onNumbers f a' b' = Value.onNumbers f a b := by
  cases h with
  | @plain a plain =>
    cases h' with
    | plain => rfl
    | _ => cases a <;> rfl
  | _ => rfl

theorem unary (op : UnaryOp) (h : a.Resembles a') : op.apply a' = op.apply a := by
  cases op with
  | not => simp only [UnaryOp.apply, h.isTruthy]
  | negate => cases h <;> rfl

theorem binary (op : BinaryOp) (h : a.Resembles a') (h' : b.Resembles b') :
    op.apply a' b' = op.apply a b := by
  cases op with
  | add => exact h.plus h'
  | equal | notEqual => simp only [BinaryOp.apply, h.equals h']
  | _ => exact onNumbers _ h h'

end Value.Resembles

theorem Value.plain_unary {op : UnaryOp} {a value : Value} (h : op.apply a = .ok value) :
    value.Plain := by
  unfold UnaryOp.apply at h
  split at h <;> cases h <;> trivial

theorem Value.plain_onNumbers {f : Float → Float → Value} {a b value : Value}
    (plain : ∀ x y, (f x y).Plain) (h : Value.onNumbers f a b = .ok value) : value.Plain := by
  unfold Value.onNumbers at h
  split at h <;> cases h
  exact plain _ _

theorem Value.plain_plus {a b value : Value} (h : a.plus b = .ok value) : value.Plain := by
  unfold Value.plus at h
  split at h <;> cases h <;> trivial

theorem Value.plain_binary {op : BinaryOp} {a b value : Value} (h : op.apply a b = .ok value) :
    value.Plain := by
  cases op with
  | add => exact plain_plus h
  | equal | notEqual => cases h; trivial
  | _ =>
    refine plain_onNumbers ?_ h
    exact fun _ _ => trivial

/--
The function tells only apart what a program can tell apart: given arguments that resemble each
other it does the same, and gives the same plain value or the same of its arguments.
-/
def HostFunction.Oblivious (f : HostFunction) : Prop :=
  ∀ (arguments arguments' : List Value) (output : Sink),
    List.Forall₂ Value.Resembles arguments arguments' →
    (∃ value output', value.Plain ∧ f arguments output = (.ok value, output') ∧
      f arguments' output = (.ok value, output')) ∨
    (∃ (i : Nat) (value value' : Value) (output' : Sink),
      arguments[i]? = some value ∧ arguments'[i]? = some value' ∧
      f arguments output = (.ok value, output') ∧ f arguments' output = (.ok value', output')) ∨
    (∃ message output', f arguments output = (.error message, output') ∧
      f arguments' output = (.error message, output'))

end ScopeScript
