import ScopeScript.Proofs.Execution.Footprint
import ScopeScript.Proofs.Execution.Point
import ScopeScript.Proofs.Syntax.Form

set_option autoImplicit false

/-!
Machines on which the scopes of the program text are there at run time.

The scopes of an environment mirror the frames around a point of the text: each was made for the
site of its frame, and binds all that is declared there. Whatever can run later is kept together
with such an environment, in closures and in the methods of classes.
-/

namespace ScopeScript

namespace Environment

theorem innermost_ancestor {env : Environment} {distance address : Nat}
    (found : env.chain[distance]? = some address) :
    (env.ancestor distance).innermost = address := by
  induction distance generalizing env with
  | zero =>
    cases env
    exact Option.some.inj found
  | succ distance ih =>
    obtain ⟨a, outer⟩ := env
    cases outer with
    | nil => simp [chain] at found
    | cons b outer => exact @ih ⟨b, outer⟩ found

end Environment

structure Setting where
  activated : Nat → Site → Prop
  known : Occurrence → Prop

def Setting.Knows (S : Setting) (occurrences : List Occurrence) : Prop :=
  ∀ o ∈ occurrences, S.known o

namespace Setting.Knows

variable {S : Setting} {os os' : List Occurrence}

theorem left (h : S.Knows (os ++ os')) : S.Knows os := fun o mem => h o (List.mem_append_left _ mem)

theorem right (h : S.Knows (os ++ os')) : S.Knows os' :=
  fun o mem => h o (List.mem_append_right _ mem)

end Setting.Knows

inductive Mirrors (S : Setting) (s : Store) : List Nat → List Frame → Prop
  | root : Mirrors S s [Environment.root.innermost] []
  | inner {address : Nat} {chain : List Nat} {frame : Frame} {frames : List Frame} :
      S.activated address frame.site → address < s.scopes.size →
      (∀ name ∈ frame.names, (s.lookup address name).isSome) → Mirrors S s chain frames →
      Mirrors S s (address :: chain) (frame :: frames)

namespace Mirrors

variable {S : Setting} {s s' : Store} {env : Environment} {chain : List Nat} {frame : Frame}
  {frames : List Frame} {m m' : Machine}

theorem mono (h : Mirrors S s chain frames) (grows : s.Grows s') : Mirrors S s' chain frames := by
  induction h with
  | root => exact .root
  | inner activated inside bound _ ih =>
    exact .inner activated (Nat.lt_of_lt_of_le inside grows.scopes)
      (fun name mem => grows.bound _ name (bound name mem)) ih

theorem kept (h : Mirrors S m.store m.environment.chain frames) (kept : m.Kept m') :
    Mirrors S m'.store m'.environment.chain frames :=
  kept.environment ▸ h.mono kept.store

theorem enclose (h : Mirrors S s env.chain frames) {site : Site}
    (activated : S.activated s.scopes.size site) :
    Mirrors S (s.enclose env).2 (s.enclose env).1.chain (⟨site, []⟩ :: frames) :=
  .inner activated (by simp [Store.enclose]) (by simp) (h.mono (s.grows_enclose env))

theorem define (h : Mirrors S s env.chain frames) (name : String) (value : Value) :
    Mirrors S (s.define env name value) env.chain (Frame.declare [name] frames) := by
  obtain ⟨innermost, links⟩ := env
  cases h with
  | root => exact .root
  | inner activated inside bound outer =>
    have grows := s.grows_define ⟨innermost, links⟩ name value
    refine .inner activated (Nat.lt_of_lt_of_le inside grows.scopes) (fun other mem => ?_)
      (outer.mono grows)
    rw [Store.lookup_define _ _ _ _ _ _ inside]
    by_cases same : name = other
    · simp [same]
    · have old : other ∈ _ := (List.mem_cons.mp mem).resolve_left (Ne.symm same)
      simp [same, bound other old]

theorem fewer (h : Mirrors S s chain (frame :: frames)) {names : List String}
    (fewer : ∀ name ∈ names, name ∈ frame.names) :
    Mirrors S s chain (⟨frame.site, names⟩ :: frames) := by
  cases h with
  | inner activated inside bound outer =>
    exact .inner activated inside (fun name mem => bound name (fewer name mem)) outer

theorem bound_of_address? (h : Mirrors S s chain frames) {name : String} {distance : Nat}
    (found : Frame.address? frames name = some distance) :
    ∃ (address : Nat) (frame : Frame) (value : Value), chain[distance]? = some address ∧
      frames[distance]? = some frame ∧ S.activated address frame.site ∧
      s.lookup address name = some value := by
  induction h generalizing distance with
  | root => simp [Frame.address?] at found
  | @inner address chain frame frames activated inside bound outer ih =>
    rw [Frame.address?_cons] at found
    by_cases mem : name ∈ frame.names
    · simp only [mem, if_true, Option.some.injEq] at found
      subst found
      obtain ⟨value, found⟩ := Option.isSome_iff_exists.mp (bound name mem)
      exact ⟨address, frame, value, rfl, rfl, activated, found⟩
    · simp only [mem, if_false, Option.map_eq_some_iff] at found
      obtain ⟨further, found, rfl⟩ := found
      exact ih found

end Mirrors

-- What can be run.

section

variable (S : Setting) (s : Store)

def Closure.Sound (f : Closure) : Prop :=
  f.declaration.Enclosed ∧ ∃ frames, Mirrors S s f.environment.chain frames ∧
    S.Knows (f.declaration.occurrences frames)

def Method.Sound (method : Method) : Prop :=
  method.declaration.Enclosed ∧ ∃ frames, Mirrors S s method.environment.chain frames ∧
    S.Knows (method.declaration.occurrences (Frame.ofMethod method.declaration frames))

def Class.Sound (c : Class) : Prop :=
  ∀ layer ∈ c.layers, ∀ name method, layer.methods.get? name = some method → method.Sound S s

def Value.Sound : Value → Prop
  | .function f => f.Sound S s
  | .class c => c.Sound S s
  | .instance i => i.ofClass.Sound S s
  | .nil | .bool _ | .number _ | .string _ | .native _ => True

end

section

variable {S : Setting} {s s' : Store}

theorem Closure.Sound.mono {f : Closure} (h : f.Sound S s) (grows : s.Grows s') : f.Sound S s' := by
  obtain ⟨enclosed, frames, mirrors, knows⟩ := h
  exact ⟨enclosed, frames, mirrors.mono grows, knows⟩

theorem Class.Sound.mono {c : Class} (h : c.Sound S s) (grows : s.Grows s') : c.Sound S s' := by
  intro layer mem name method found
  obtain ⟨enclosed, frames, mirrors, knows⟩ := h layer mem name method found
  exact ⟨enclosed, frames, mirrors.mono grows, knows⟩

theorem Value.Sound.mono {value : Value} (h : value.Sound S s) (grows : s.Grows s') :
    value.Sound S s' :=
  match value, h with
  | .function _, h => Closure.Sound.mono h grows
  | .class _, h | .instance _, h => Class.Sound.mono h grows
  | .nil, _ | .bool _, _ | .number _, _ | .string _, _ | .native _, _ => trivial

theorem Class.Sound.method {c : Class} (h : c.Sound S s) {name : String} {method : Method}
    (found : c.method? name = some method) : method.Sound S s := by
  obtain ⟨layer, mem, found⟩ := List.exists_of_findSome?_eq_some found
  exact h layer mem name method found

theorem Value.sound_toValue (value : Literal) : value.toValue.Sound S s := by
  cases value <;> trivial

end

def Value.Plain : Value → Prop
  | .nil | .bool _ | .number _ | .string _ | .native _ => True
  | .function _ | .class _ | .instance _ => False

/-- The function makes no closures, classes and instances of its own. -/
def HostFunction.Honest (f : HostFunction) : Prop :=
  ∀ arguments output value output', f arguments output = (.ok value, output') →
    value.Plain ∨ value ∈ arguments

theorem Value.Plain.sound {S : Setting} {s : Store} {value : Value} (h : value.Plain) :
    value.Sound S s := by
  cases value <;> trivial

theorem Value.plain_of_ofInput_eq {input : String} {value : Value}
    (given : Value.ofInput input = value) : value.Plain := by
  subst given
  unfold Value.ofInput
  simp only
  split
  · trivial
  split
  · trivial
  split <;> trivial

structure Machine.Sound (S : Setting) (m : Machine) : Prop where
  recorded : ∀ o, S.known o → m.resolution[o.reference.id]? = o.address? ∧ o.Ready
  scopes : ∀ address name value, m.store.lookup address name = some value → value.Sound S m.store
  fields : ∀ i name value, m.store.field? i name = some value → value.Sound S m.store
  hosts : ∀ f ∈ m.hosts, HostFunction.Honest f

namespace Machine.Sound

variable {S : Setting} {m : Machine} {env : Environment} {name : String} {value : Value}

theorem congr (h : m.Sound S) {m' : Machine} (resolution : m'.resolution = m.resolution)
    (store : m'.store = m.store) (hosts : m'.hosts = m.hosts) : m'.Sound S := by
  obtain ⟨recorded, scopes, fields, honest⟩ := h
  exact ⟨resolution ▸ recorded, store ▸ scopes, store ▸ fields, hosts ▸ honest⟩

theorem environment (h : m.Sound S) (env : Environment) : { m with environment := env }.Sound S :=
  h.congr rfl rfl rfl

theorem ofGrows (h : m.Sound S) {s : Store} (grows : m.store.Grows s)
    (scopes : ∀ address name value, s.lookup address name = some value →
      value.Sound S s ∨ m.store.lookup address name = some value)
    (fields : ∀ i name value, s.field? i name = some value →
      value.Sound S s ∨ ∃ i, m.store.field? i name = some value) :
    { m with store := s }.Sound S := by
  refine ⟨h.recorded, fun address name value found => ?_, fun i name value found => ?_, h.hosts⟩
  · exact (scopes address name value found).elim id fun old =>
      (h.scopes address name value old).mono grows
  · exact (fields i name value found).elim id fun ⟨i, old⟩ =>
      (h.fields i name value old).mono grows

theorem bindAt (h : m.Sound S) (address : Nat)
    (sound : value.Sound S (m.store.bindAt address name value)) :
    { m with store := m.store.bindAt address name value }.Sound S := by
  refine h.ofGrows (m.store.grows_bindAt address name value) (fun other key found old => ?_)
    fun i key _ found => .inr ⟨i, found⟩
  rw [Store.lookup_bindAt] at old
  split at old
  · exact .inl (Option.some.inj old ▸ sound)
  · exact .inr old

theorem define (h : m.Sound S) (env : Environment) (sound : value.Sound S m.store) :
    { m with store := m.store.define env name value }.Sound S :=
  h.bindAt env.innermost (sound.mono (m.store.grows_define env name value))

theorem enclose (h : m.Sound S) (env : Environment) :
    { m with store := (m.store.enclose env).2 }.Sound S := by
  refine h.ofGrows (m.store.grows_enclose env) (fun address name value found => .inr ?_)
    fun i name _ found => .inr ⟨i, found⟩
  rwa [Store.lookup_enclose] at found

theorem newIdentity (h : m.Sound S) : { m with store := m.store.newIdentity.2 }.Sound S :=
  h.ofGrows m.store.grows_newIdentity (fun _ _ _ => .inr) fun i _ _ found => .inr ⟨i, found⟩

theorem newInstance (h : m.Sound S) (c : Class) :
    { m with store := (m.store.newInstance c).2 }.Sound S :=
  h.ofGrows (m.store.grows_newInstance c) (fun _ _ _ => .inr) fun i _ _ found =>
    .inr ⟨i, Store.field?_newInstance found⟩

theorem setField (h : m.Sound S) (i : Instance) (sound : value.Sound S m.store) :
    { m with store := m.store.setField i name value }.Sound S := by
  have grows := m.store.grows_setField i name value
  refine h.ofGrows grows (fun _ _ _ => .inr) fun other key value' found => ?_
  rcases Store.field?_setField found with rfl | old
  · exact .inl (sound.mono grows)
  · exact .inr ⟨other, old⟩

end Machine.Sound

end ScopeScript
