import ScopeScript.Proofs.Execution.ClassDeclaration
import ScopeScript.Proofs.Execution.Sound

set_option autoImplicit false

namespace ScopeScript

namespace Run

variable {α β : Type} {S : Setting} {m : Machine}

def Ensures (S : Setting) (p : Run α) (m : Machine) (Q : α → Machine → Prop) : Prop :=
  (ending (p m)).Sound S ∧ ∀ a m', p m = .ok a m' → Q a m'

namespace Ensures

variable {p : Run α} {f : α → Run β} {Q : α → Machine → Prop} {R : β → Machine → Prop}

theorem ok (h : Ensures S p m Q) {a : α} {m' : Machine} (ran : p m = .ok a m') :
    m'.Sound S ∧ Q a m' :=
  ⟨by simpa [ran, ending] using h.1, h.2 a m' ran⟩

theorem of_eq {a : α} {m' : Machine} (ran : p m = .ok a m') (sound : m'.Sound S)
    (h : Q a m') : Ensures S p m Q := by
  refine ⟨by simpa [ran, ending] using sound, fun a' m'' ran' => ?_⟩
  obtain ⟨rfl, rfl⟩ := EStateM.Result.ok.inj (ran.symm.trans ran')
  exact h

theorem pure {a : α} (sound : m.Sound S) (h : Q a m) : Ensures S (Pure.pure a) m Q :=
  of_eq rfl sound h

theorem throw {halt : Halt} (sound : m.Sound S) : Ensures S (throw halt) m Q :=
  ⟨sound, nofun⟩

theorem stop {line : Nat} {fault : RuntimeFault} (sound : m.Sound S) :
    Ensures S (Run.stop line fault) m Q :=
  ⟨sound, nofun⟩

theorem weaken (h : Ensures S p m Q) {R : α → Machine → Prop}
    (weaker : ∀ a m', Q a m' → R a m') : Ensures S p m R :=
  ⟨h.1, fun a m' ran => weaker a m' (h.2 a m' ran)⟩

theorem bind (first : Ensures S p m Q)
    (second : ∀ a m', p m = .ok a m' → m'.Sound S → Q a m' → Ensures S (f a) m' R) :
    Ensures S (p >>= f) m R := by
  cases ran : p m with
  | ok a m₁ =>
    have whole := second a m₁ ran (first.ok ran).1 (first.ok ran).2
    unfold Ensures
    rwa [bind_of_ok ran]
  | error halt m₁ =>
    have sound := first.1
    unfold Ensures
    rw [bind_of_error ran]
    exact ⟨by simpa [ran, ending] using sound, nofun⟩

theorem get_bind {f : Machine → Run β} (h : Ensures S (f m) m R) :
    Ensures S (MonadState.get >>= f) m R := h

theorem ofOperation {line : Nat} {result : Except RuntimeFault α} (sound : m.Sound S)
    (h : ∀ a, result = .ok a → Q a m) : Ensures S (Run.ofOperation line result) m Q := by
  cases result with
  | ok a => exact .pure sound (h a rfl)
  | error fault => exact .stop sound

theorem within {env : Environment} {R : α → Machine → Prop}
    (h : Ensures S p { m with environment := env } Q)
    (after : ∀ a m', Q a m' → R a { m' with environment := m.environment }) :
    Ensures S (Run.within env p) m R := by
  have sound := h.1
  unfold Ensures Run.within
  cases ran : p { m with environment := env } with
  | ok a m₁ =>
    rw [ran] at sound
    refine ⟨sound.environment _, ?_⟩
    rintro _ _ ⟨⟩
    exact after a m₁ (h.ok ran).2
  | error halt m₁ =>
    rw [ran] at sound
    exact ⟨sound.environment _, nofun⟩

end Ensures

-- Variables.

theorem ensures_define {name : String} {value : Value} {Q : Unit → Machine → Prop}
    (sound : m.Sound S) (kept : value.Sound S (m.store.define m.environment name value))
    (h : Q () { m with store := m.store.define m.environment name value }) :
    Ensures S (define name value) m Q :=
  .of_eq rfl (sound.bindAt m.environment.innermost kept) h

theorem readAt_eq_ok {s : Store} {env : Environment} {distance : Nat} {name : Name} {value : Value}
    (h : s.readAt env distance name = .ok value) :
    ∃ address, s.lookup address name.text = some value := by
  unfold Store.readAt Store.getAt? at h
  split at h
  next found => exact ⟨_, found.trans (congrArg some (Except.ok.inj h))⟩
  · cases h

theorem read_eq_ok {s : Store} {env : Environment} {name : Name} {value : Value}
    (h : s.read env name = .ok value) : ∃ address, s.lookup address name.text = some value := by
  unfold Store.read Store.get? at h
  split at h
  next found =>
    obtain ⟨address, -, found⟩ := List.exists_of_findSome?_eq_some found
    exact ⟨address, found.trans (congrArg some (Except.ok.inj h))⟩
  · cases h

theorem ensures_ofExcept {result : Except Diagnostic α} {Q : α → Machine → Prop}
    (sound : m.Sound S) (h : ∀ a, result = .ok a → Q a m) :
    Ensures S (ofExcept result) m Q := by
  cases result with
  | ok a => exact .pure sound (h a rfl)
  | error d => exact .throw sound

theorem ensures_lookUp {r : Reference} (sound : m.Sound S) :
    Ensures S (lookUp r) m fun value m' => m' = m ∧ value.Sound S m.store := by
  have kept {result : Except Diagnostic Value} (found : ∀ value, result = .ok value →
      ∃ address, m.store.lookup address r.name.text = some value) :
      Ensures S (ofExcept result) m fun value m' => m' = m ∧ value.Sound S m.store := by
    refine ensures_ofExcept sound fun value read => ⟨rfl, ?_⟩
    obtain ⟨address, found⟩ := found value read
    exact sound.scopes address _ value found
  refine kept fun value read => ?_
  split at read
  · exact readAt_eq_ok read
  · exact read_eq_ok read

theorem ensures_assignFrom {env : Environment} {name : Name} {value : Value} (sound : m.Sound S)
    (kept : value.Sound S m.store) : Ensures S (assignFrom env name value) m fun _ _ => True := by
  unfold Ensures assignFrom
  cases m.store.binder? env name.text with
  | some address =>
    exact ⟨sound.bindAt address (kept.mono (m.store.grows_bindAt _ _ _)), fun _ _ _ => trivial⟩
  | none => exact ⟨sound, nofun⟩

theorem ensures_assign {r : Reference} {value : Value} (sound : m.Sound S)
    (kept : value.Sound S m.store) : Ensures S (assign r value) m fun _ _ => True := by
  unfold Ensures assign
  cases m.resolution[r.id]? with
  | some distance =>
    exact ⟨sound.bindAt _ (kept.mono (m.store.grows_bindAt _ _ _)), fun _ _ _ => trivial⟩
  | none => exact ensures_assignFrom sound kept

-- Methods and classes.

theorem ensures_bind {method : Method} {i : Instance} (sound : m.Sound S)
    (runs : method.Sound S m.store) (receiver : i.ofClass.Sound S m.store)
    (activated : S.activated m.store.scopes.size (.receiver method.declaration)) :
    Ensures S (bind method i) m fun f m' => f.Sound S m'.store := by
  obtain ⟨enclosed, frames, mirrors, knows⟩ := runs
  have entered := mirrors.enclose activated
  have bound := entered.define "this" (.instance i)
  have value : (Value.instance i).Sound S (m.store.enclose method.environment).2 :=
    receiver.mono (m.store.grows_enclose method.environment)
  refine .of_eq rfl ((sound.enclose method.environment).define _ value).newIdentity ?_
  exact ⟨enclosed, _, bound.mono (Store.grows_newIdentity _), knows⟩

theorem ensures_property {i : Instance} {name : Name} (sound : m.Sound S)
    (receiver : i.ofClass.Sound S m.store)
    (activated : ∀ method, m.store.field? i name.text = none →
      i.ofClass.method? name.text = some method →
      S.activated m.store.scopes.size (.receiver method.declaration)) :
    Ensures S (property i name) m fun value m' => value.Sound S m'.store := by
  refine Ensures.get_bind ?_
  split
  next value found => exact .pure sound (sound.fields i _ value found)
  next missing =>
    split
    next method found =>
      exact (ensures_bind sound (receiver.method found) receiver
        (activated method missing found)).bind fun f m' _ sound' runs => .pure sound' runs
    · exact .stop sound

theorem ensures_inherited {r : Reference} {name : Name} (sound : m.Sound S)
    (activated : ∀ distance c i method, m.resolution[r.id]? = some distance →
      m.store.getAt? m.environment distance "super" = some (.class c) →
      m.store.getAt? m.environment (distance - 1) "this" = some (.instance i) →
      c.method? name.text = some method →
      S.activated m.store.scopes.size (.receiver method.declaration)) :
    Ensures S (inherited r name) m fun value m' => value.Sound S m'.store := by
  refine Ensures.get_bind ?_
  split
  · exact .stop sound
  next distance resolved =>
    split
    next c i isClass isInstance =>
      split
      next method found =>
        have runs : c.Sound S m.store := sound.scopes _ _ _ isClass
        have receiver : i.ofClass.Sound S m.store := sound.scopes _ _ _ isInstance
        exact (ensures_bind sound (runs.method found) receiver
          (activated distance c i method resolved isClass isInstance found)).bind
            fun f m' _ sound' runs => .pure sound' runs
      · exact .stop sound
    · exact .stop sound

theorem ensures_superclass {r : Reference} (sound : m.Sound S) :
    Ensures S (superclass r) m fun c m' => m' = m ∧ c.Sound S m.store := by
  refine (ensures_lookUp sound).bind ?_
  rintro value _ - - ⟨rfl, kept⟩
  split
  · exact .pure sound ⟨rfl, kept⟩
  · exact .stop sound

theorem mem_of_get?_ofList {α : Type} {pairs : List (String × α)} {name : String} {value : α}
    (found : (Bindings.ofList pairs).get? name = some value) : ∃ pair ∈ pairs, pair.2 = value := by
  have fold (pairs : List (String × α)) : ∀ b : Bindings α,
      (pairs.foldl (fun b pair => b.insert pair.1 pair.2) b).get? name = some value →
        (∃ pair ∈ pairs, pair.2 = value) ∨ b.get? name = some value := by
    induction pairs with
    | nil => exact fun b found => .inr found
    | cons pair rest ih =>
      intro b found
      rcases ih _ found with ⟨pair', mem, same⟩ | old
      · exact .inl ⟨pair', List.mem_cons_of_mem _ mem, same⟩
      · rw [Bindings.get?_insert] at old
        split at old
        · exact .inl ⟨pair, List.mem_cons_self, Option.some.inj old⟩
        · exact .inr old
  exact (fold pairs ∅ found).resolve_right (by simp)

theorem sound_methodTable {s : Store} {env : Environment} {frames : List Frame}
    {methods : List FunctionDecl} (mirrors : Mirrors S s env.chain frames)
    (knows : S.Knows (FunctionDecl.occurrencesAll frames methods))
    (enclosed : FunctionDecl.AllEnclosed methods) {name : String} {method : Method}
    (found : (methodTable methods env).get? name = some method) : method.Sound S s := by
  obtain ⟨pair, listed, rfl⟩ := mem_of_get?_ofList found
  obtain ⟨f, mem, rfl⟩ := List.mem_map.mp listed
  clear found listed
  induction methods with
  | nil => cases mem
  | cons first rest ih =>
    cases mem with
    | head => exact ⟨enclosed.1, frames, mirrors, knows.left⟩
    | tail _ mem => exact ih knows.right enclosed.2 mem

theorem sound_surroundings (name : Name) {r : Option Reference} {above : Option Class}
    {frames : List Frame} (sound : m.Sound S) (known : above.isSome = r.isSome)
    (mirrors : Mirrors S m.store m.environment.chain frames)
    (kept : ∀ c ∈ above, c.Sound S m.store)
    (activated : ∀ r' ∈ r, S.activated m.store.scopes.size (.superclass r')) :
    Machine.Sound S { m with store := (surroundings m name above).2 } ∧
      Mirrors S (surroundings m name above).2 (surroundings m name above).1.chain
        (Frame.ofClass name r frames) := by
  have unset : Machine.Sound S { m with store := m.store.define m.environment name.text .nil } :=
    sound.define m.environment trivial
  have mirrors₁ := mirrors.define name.text .nil
  cases above with
  | none =>
    cases r with
    | none => exact ⟨unset, mirrors₁⟩
    | some r => cases known
  | some c =>
    cases r with
    | none => cases known
    | some r =>
      have size := m.store.size_define m.environment name.text .nil
      have entered := mirrors₁.enclose (size ▸ activated r rfl)
      have value : (Value.class c).Sound S _ :=
        ((kept c rfl).mono (m.store.grows_define m.environment name.text .nil)).mono
          (Store.grows_enclose _ m.environment)
      exact ⟨(unset.enclose m.environment).define _ value, entered.define "super" (.class c)⟩

theorem ensures_declareClass {name : Name} {above : Option Reference} {methods : List FunctionDecl}
    {frames : List Frame} (sound : m.Sound S)
    (mirrors : Mirrors S m.store m.environment.chain frames)
    (knows : S.Knows (FunctionDecl.occurrencesAll (Frame.ofClass name above frames) methods))
    (enclosed : FunctionDecl.AllEnclosed methods)
    (activated : ∀ r c, above = some r → superclass r m = .ok c m →
      S.activated m.store.scopes.size (.superclass r)) :
    Ensures S (declareClass name above methods) m fun _ m' =>
      Mirrors S m'.store m'.environment.chain (Frame.declare [name.text] frames) := by
  have rest (c : Option Class) (known : c.isSome = above.isSome)
      (ran : ∀ r ∈ above, ∀ c' ∈ c, superclass r m = .ok c' m)
      (kept : ∀ c' ∈ c, c'.Sound S m.store)
      (activated : ∀ r ∈ above, S.activated m.store.scopes.size (.superclass r)) :
      Ensures S (declareClass name above methods) m fun _ m' =>
        Mirrors S m'.store m'.environment.chain (Frame.declare [name.text] frames) := by
    obtain ⟨around, inside⟩ := sound_surroundings name sound known mirrors kept activated
    have grows := (grows_surroundings m name c).trans (Store.grows_newIdentity _)
    have value : (Value.class (declared m name methods c)).Sound S
        (surroundings m name c).2.newIdentity.2 := by
      intro layer mem key method found
      rcases List.mem_cons.mp mem with rfl | mem
      · exact sound_methodTable (inside.mono (Store.grows_newIdentity _)) knows enclosed found
      · cases c with
        | none => cases mem
        | some c =>
          exact ((kept c rfl).mono (Store.grows_define _ _ _ _)).mono grows
            layer mem key method found
    have assigned : Ensures S (assignFrom m.environment name _) _ _ :=
      ensures_assignFrom around.newIdentity value
    unfold Ensures
    rw [declareClass_eq known ran]
    refine ⟨assigned.1, fun _ m' ends => ?_⟩
    exact ((mirrors.define name.text .nil).mono grows).kept
      (m := { m with store := (surroundings m name c).2.newIdentity.2 })
        (Keeps.assignFrom.of_ok ends)
  cases above with
  | none => exact rest none rfl nofun nofun nofun
  | some r =>
    have found := ensures_superclass (r := r) sound
    cases ran : superclass r m with
    | ok c m' =>
      obtain ⟨-, rfl, kept⟩ := found.ok ran
      exact rest (some c) rfl (by rintro _ ⟨⟩ _ ⟨⟩; exact ran) (by rintro _ ⟨⟩; exact kept)
        (by rintro _ ⟨⟩; exact activated r c rfl ran)
    | error halt m' =>
      have ended := found.1
      unfold Ensures
      rw [declareClass_of_error ran]
      exact ⟨by simpa [ran, ending] using ended, nofun⟩

-- Calls.

theorem ensures_newInstance (c : Class) (sound : m.Sound S) :
    Ensures S (onStore fun s => s.newInstance c) m fun i m' => i.ofClass = c ∧
      m.store.Grows m'.store ∧ m.store.scopes.size = m'.store.scopes.size :=
  .of_eq rfl (sound.newInstance c) ⟨rfl, m.store.grows_newInstance c, rfl⟩

theorem ensures_callResult {f : Closure} {completion : Completion} (sound : m.Sound S)
    (kept : ∀ value, completion = .returned value → value.Sound S m.store) :
    Ensures S (callResult f completion) m fun value m' => value.Sound S m'.store := by
  unfold callResult
  split
  · refine Ensures.get_bind (.pure sound ?_)
    cases receiver : m.store.getAt? f.environment 0 "this" with
    | none => trivial
    | some value => exact sound.scopes _ _ value receiver
  · split
    next value => exact .pure sound (kept value rfl)
    all_goals exact .pure sound trivial

theorem ensures_checkArity {expected got line : Nat} (sound : m.Sound S) :
    Ensures S (checkArity expected got line) m fun _ m' => m' = m ∧ expected = got := by
  unfold checkArity
  split
  next same => exact .pure sound ⟨rfl, same⟩
  · exact .stop sound

theorem ensures_write {text : String} (sound : m.Sound S) :
    Ensures S (write text) m fun _ _ => True :=
  .of_eq rfl (sound.congr rfl rfl rfl) trivial

theorem ensures_readLine {line : Nat} (sound : m.Sound S) :
    Ensures S (readLine line) m fun value m' => value.Sound S m'.store := by
  refine Ensures.get_bind ?_
  split
  · exact .throw sound
  · exact .pure sound trivial
  next bytes rest _ =>
    have left : Machine.Sound S { m with input := rest } := sound.congr rfl rfl rfl
    refine Ensures.bind (Ensures.of_eq (Q := fun _ _ => True) rfl left trivial) ?_
    intro _ m₁ _ sound₁ _
    split
    next text _ =>
      generalize given : Value.ofInput (Input.chomp text) = value
      exact .pure sound₁ (Value.plain_of_ofInput_eq given).sound
    · exact .stop sound₁

theorem ensures_callHost {slot : Nat} {arguments : List Value} {line : Nat} (sound : m.Sound S)
    (kept : ∀ value ∈ arguments, value.Sound S m.store) :
    Ensures S (callHost slot arguments line) m fun value m' => value.Sound S m'.store := by
  unfold Ensures callHost
  cases host : m.hosts[slot]? with
  | none =>
    refine ⟨sound, ?_⟩
    rintro _ _ ⟨⟩
    trivial
  | some f =>
    have honest := sound.hosts f (List.mem_of_getElem? host)
    simp only
    split
    next value output answer =>
      refine ⟨sound.congr rfl rfl rfl, ?_⟩
      rintro _ _ ⟨⟩
      exact (honest _ _ _ _ answer).elim Value.Plain.sound (kept value)
    · exact ⟨sound.congr rfl rfl rfl, nofun⟩

theorem ensures_callNative {body : NativeBody} {arguments : List Value} {line : Nat}
    (sound : m.Sound S) (kept : ∀ value ∈ arguments, value.Sound S m.store) :
    Ensures S (callNative body arguments line) m fun value m' => value.Sound S m'.store := by
  cases body with
  | clock | tick => exact .of_eq rfl (sound.congr rfl rfl rfl) trivial
  | read => exact ensures_readLine sound
  | typeOf => exact .pure sound trivial
  | greet =>
    refine (ensures_write sound).bind fun fits m₁ _ sound₁ _ => ?_
    split
    · exact .pure sound₁ trivial
    · exact .stop sound₁
  | host slot => exact ensures_callHost sound kept

theorem ensures_printLine {value : Value} (sound : m.Sound S) :
    Ensures S (printLine value) m fun _ _ => True := by
  refine (ensures_write sound).bind fun fits m₁ _ sound₁ _ => ?_
  split
  · exact .pure sound₁ trivial
  · exact .throw sound₁

theorem mirrors_defineAll {env : Environment} {site : Site} {frames : List Frame} :
    ∀ (parameters : List Name) (arguments : List Value) (names : List String) (s : Store),
      parameters.length = arguments.length →
      Mirrors S s env.chain (⟨site, names⟩ :: frames) →
      Mirrors S (s.defineAll env (parameters.zip arguments)) env.chain
        (⟨site, parameters.map Name.text ++ names⟩ :: frames)
  | [], _, _, _, _, mirrors => mirrors
  | name :: rest, value :: values, names, s, same, mirrors => by
    have whole := mirrors_defineAll rest values (name.text :: names) _
      (Nat.succ.inj same) (mirrors.define name.text value)
    exact whole.fewer (by simp [or_left_comm])

theorem sound_defineAll {env : Environment} (bindings : List (Name × Value)) :
    ∀ {m : Machine}, m.Sound S → (∀ binding ∈ bindings, binding.2.Sound S m.store) →
      { m with store := m.store.defineAll env bindings }.Sound S := by
  induction bindings with
  | nil => exact fun sound _ => sound
  | cons binding rest ih =>
    intro m sound kept
    have grows := m.store.grows_define env binding.1.text binding.2
    exact ih (sound.define env (kept binding List.mem_cons_self)) fun other mem =>
      (kept other (List.mem_cons_of_mem _ mem)).mono grows

theorem ensures_activation {f : Closure} {arguments : List Value} {frames : List Frame}
    (sound : m.Sound S) (same : f.arity = arguments.length)
    (mirrors : Mirrors S m.store f.environment.chain frames)
    (kept : ∀ value ∈ arguments, value.Sound S m.store)
    (activated : S.activated m.store.scopes.size (.call f.declaration)) :
    Ensures S (activation f arguments) m fun env m' =>
      Mirrors S m'.store env.chain (Frame.ofCall f.declaration frames) := by
  have entered := mirrors.enclose activated
  have bound := mirrors_defineAll f.declaration.parameters arguments [] _ same entered
  rw [List.append_nil] at bound
  refine .of_eq rfl (sound_defineAll _ (sound.enclose f.environment) fun binding mem => ?_) bound
  exact (kept _ (List.of_mem_zip mem).2).mono (m.store.grows_enclose f.environment)

end Run

end ScopeScript
