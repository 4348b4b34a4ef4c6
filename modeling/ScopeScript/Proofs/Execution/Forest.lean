import Mathlib.Data.List.Nodup
import Mathlib.Data.Nat.Find
import ScopeScript.Machine

set_option autoImplicit false

namespace ScopeScript

namespace Environment

def enclosing? : Environment → Option Environment
  | ⟨_, []⟩ => none
  | ⟨_, address :: outer⟩ => some ⟨address, outer⟩

inductive Links : Environment → Nat → Environment → Prop
  | refl (env : Environment) : Links env 0 env
  | out {env outer target : Environment} {distance : Nat} : env.enclosing? = some outer →
      Links outer distance target → Links env (distance + 1) target

variable {env outer target : Environment} {distance : Nat}

@[simp]
theorem ancestor_zero (env : Environment) : env.ancestor 0 = env := by
  rw [ancestor]

theorem ancestor_succ (link : env.enclosing? = some outer) (distance : Nat) :
    env.ancestor (distance + 1) = outer.ancestor distance := by
  obtain ⟨a, _ | ⟨b, rest⟩⟩ := env
  · cases link
  · cases link
    rw [ancestor]

theorem ancestor_of_outermost (last : env.enclosing? = none) (distance : Nat) :
    env.ancestor distance = env := by
  obtain ⟨a, _ | ⟨b, rest⟩⟩ := env
  · cases distance <;> rw [ancestor]
  · cases last

theorem Links.ancestor_eq (links : env.Links distance target) : env.ancestor distance = target := by
  induction links with
  | refl env => exact ancestor_zero env
  | out link _ ih => exact (ancestor_succ link _).trans ih

theorem ancestor_add (env : Environment) (a b : Nat) :
    env.ancestor (a + b) = (env.ancestor a).ancestor b := by
  induction a generalizing env with
  | zero => rw [Nat.zero_add, ancestor_zero]
  | succ a ih =>
    cases link : env.enclosing? with
    | none => simp only [ancestor_of_outermost link]
    | some outer => rw [Nat.succ_add, ancestor_succ link, ancestor_succ link, ih]

theorem exists_links (env : Environment) (distance : Nat) :
    ∃ d ≤ distance, env.Links d (env.ancestor distance) ∧
      (d < distance → (env.ancestor distance).enclosing? = none) := by
  induction distance generalizing env with
  | zero => exact ⟨0, Nat.le_refl 0, ancestor_zero env ▸ .refl env, nofun⟩
  | succ distance ih =>
    cases link : env.enclosing? with
    | none =>
      rw [ancestor_of_outermost link]
      exact ⟨0, Nat.zero_le _, .refl env, fun _ => link⟩
    | some outer =>
      obtain ⟨d, le, links, last⟩ := ih outer
      rw [ancestor_succ link]
      exact ⟨d + 1, Nat.succ_le_succ le, .out link links,
        fun lt => last (Nat.lt_of_succ_lt_succ lt)⟩

end Environment

namespace Store

def plant (s : Store) : Environment × Store :=
  (⟨s.scopes.size, []⟩, { s with scopes := s.scopes.push ∅ })

def Binds (s : Store) (env : Environment) (name : String) : Prop :=
  (s.lookup env.innermost name).isSome

/-- Some environment so many links out binds the name, and none that is fewer links out does. -/
structure BoundNearest (s : Store) (env : Environment) (name : String) (distance : Nat) : Prop where
  bound : ∃ target, env.Links distance target ∧ s.Binds target name
  least : ∀ d target, d < distance → env.Links d target → ¬ s.Binds target name

def Unbound (s : Store) (env : Environment) (name : String) : Prop :=
  ∀ d target, env.Links d target → ¬ s.Binds target name

section

variable {s : Store} {env outer : Environment} {name : String} {distance : Nat}

theorem get?_of_binds (bound : s.Binds env name) :
    s.get? env name = s.lookup env.innermost name := by
  obtain ⟨value, found⟩ := Option.isSome_iff_exists.mp bound
  simp [get?, Environment.chain, found]

theorem binder?_of_binds (bound : s.Binds env name) : s.binder? env name = some env.innermost :=
  List.find?_cons_of_pos bound

theorem get?_of_not_binds (unbound : ¬ s.Binds env name) (link : env.enclosing? = some outer) :
    s.get? env name = s.get? outer name := by
  obtain ⟨a, _ | ⟨b, rest⟩⟩ := env
  · cases link
  · cases link
    have missing : s.lookup a name = none := Option.not_isSome_iff_eq_none.mp unbound
    simp [get?, Environment.chain, missing]

theorem binder?_of_not_binds (unbound : ¬ s.Binds env name) (link : env.enclosing? = some outer) :
    s.binder? env name = s.binder? outer name := by
  obtain ⟨a, _ | ⟨b, rest⟩⟩ := env
  · cases link
  · cases link
    exact List.find?_cons_of_neg unbound

theorem BoundNearest.of_out (nearest : s.BoundNearest env name (distance + 1))
    (link : env.enclosing? = some outer) : s.BoundNearest outer name distance := by
  obtain ⟨⟨target, links, bound⟩, least⟩ := nearest
  cases links with
  | out link' links =>
    obtain rfl := Option.some.inj (link.symm.trans link')
    exact ⟨⟨target, links, bound⟩, fun d target lt links =>
      least (d + 1) target (Nat.succ_lt_succ lt) (.out link links)⟩

theorem BoundNearest.found (nearest : s.BoundNearest env name distance) :
    (∃ value, s.get? env name = some value ∧ s.getAt? env distance name = some value) ∧
      s.binder? env name = some (env.ancestor distance).innermost := by
  induction distance generalizing env with
  | zero =>
    obtain ⟨⟨target, links, bound⟩, -⟩ := nearest
    cases links
    obtain ⟨value, found⟩ := Option.isSome_iff_exists.mp bound
    rw [getAt?, Environment.ancestor_zero, get?_of_binds bound, binder?_of_binds bound]
    exact ⟨⟨value, found, found⟩, rfl⟩
  | succ distance ih =>
    have unbound : ¬ s.Binds env name := nearest.least 0 env (Nat.succ_pos _) (.refl env)
    cases link : env.enclosing? with
    | none =>
      obtain ⟨⟨target, links, -⟩, -⟩ := nearest
      cases links with
      | out link' _ => cases link.symm.trans link'
    | some outer =>
      rw [getAt?, Environment.ancestor_succ link, get?_of_not_binds unbound link,
        binder?_of_not_binds unbound link]
      exact ih (nearest.of_out link)

theorem Unbound.get?_eq (unbound : s.Unbound env name) : s.get? env name = none := by
  obtain ⟨a, outer⟩ := env
  induction outer generalizing a with
  | nil =>
    have missing : s.lookup a name = none :=
      Option.not_isSome_iff_eq_none.mp (unbound 0 _ (.refl _))
    simp [get?, Environment.chain, missing]
  | cons b rest ih =>
    rw [get?_of_not_binds (unbound 0 _ (.refl _)) rfl]
    exact ih b fun d target links => unbound (d + 1) target (.out rfl links)

theorem Unbound.binder?_eq (unbound : s.Unbound env name) : s.binder? env name = none := by
  have missing := unbound.get?_eq
  simp only [get?, List.findSome?_eq_none_iff] at missing
  exact List.find?_eq_none.mpr fun address mem => by simp [missing address mem]

theorem exists_boundNearest (bound : ¬ s.Unbound env name) : ∃ d, s.BoundNearest env name d := by
  classical
  simp only [Unbound, not_forall, not_not] at bound
  have some_distance : ∃ d target, env.Links d target ∧ s.Binds target name := by
    obtain ⟨d, target, links, bound⟩ := bound
    exact ⟨d, target, links, bound⟩
  exact ⟨Nat.find some_distance, Nat.find_spec some_distance, fun d target lt links bound =>
    Nat.find_min some_distance lt ⟨target, links, bound⟩⟩

theorem get?_eq_none_iff : s.get? env name = none ↔ s.Unbound env name := by
  refine ⟨fun missing => ?_, Unbound.get?_eq⟩
  by_contra bound
  obtain ⟨d, nearest⟩ := exists_boundNearest bound
  obtain ⟨value, found, -⟩ := nearest.found.1
  cases missing.symm.trans found

end

/--
The forests that there are: a store, and the environments in it in the order of their making. Each
step but the making of an outermost environment is about one that is there.
-/
inductive Forest : Store → List Environment → Prop
  | initial : Forest .initial [.root]
  | plant {s : Store} {envs : List Environment} : Forest s envs →
      Forest s.plant.2 (envs ++ [s.plant.1])
  | child {s : Store} {envs : List Environment} {env : Environment} : Forest s envs → env ∈ envs →
      Forest (s.enclose env).2 (envs ++ [(s.enclose env).1])
  | define {s : Store} {envs : List Environment} {env : Environment} (name : String)
      (value : Value) : Forest s envs → env ∈ envs → Forest (s.define env name value) envs
  | assign {s s' : Store} {envs : List Environment} {env : Environment} {name : Name}
      {value : Value} : Forest s envs → env ∈ envs → s.write env name value = .ok s' →
      Forest s' envs
  | assignAt {s : Store} {envs : List Environment} {env : Environment} (distance : Nat)
      (name : String) (value : Value) : Forest s envs → env ∈ envs →
      Forest (s.assignAt env distance name value) envs

structure ChangesOnly (s : Store) (envs : List Environment) (target : Environment) (name : String)
    (value : Value) (s' : Store) : Prop where
  there : target ∈ envs
  lookup : ∀ env ∈ envs, ∀ key, s'.lookup env.innermost key =
    if env = target ∧ name = key then some value else s.lookup env.innermost key
  size : s'.scopes.size = s.scopes.size
  objects : s'.objects = s.objects
  identities : s'.identities = s.identities

namespace Forest

variable {s s' : Store} {envs : List Environment} {env : Environment}

structure Ordered (s : Store) (envs : List Environment) : Prop where
  addresses : envs.map Environment.innermost = List.range s.scopes.size
  outward : ∀ env ∈ envs, ∀ outer, env.enclosing? = some outer →
    outer ∈ envs ∧ outer.innermost < env.innermost

namespace Ordered

theorem inside (ordered : Ordered s envs) (mem : env ∈ envs) : env.innermost < s.scopes.size := by
  have address := List.mem_map_of_mem (f := Environment.innermost) mem
  rw [ordered.addresses] at address
  exact List.mem_range.mp address

theorem eq_of_innermost (ordered : Ordered s envs) {other : Environment} (mem : env ∈ envs)
    (mem' : other ∈ envs) (same : env.innermost = other.innermost) : env = other := by
  have distinct : (envs.map Environment.innermost).Nodup :=
    ordered.addresses ▸ List.nodup_range
  exact List.inj_on_of_nodup_map distinct mem mem' same

theorem mem_of_links (ordered : Ordered s envs) {target : Environment} {distance : Nat}
    (mem : env ∈ envs) (links : env.Links distance target) : target ∈ envs := by
  induction links with
  | refl env => exact mem
  | out link _ ih => exact ih (ordered.outward _ mem _ link).1

theorem mem_ancestor (ordered : Ordered s envs) (mem : env ∈ envs) (distance : Nat) :
    env.ancestor distance ∈ envs := by
  obtain ⟨d, -, links, -⟩ := env.exists_links distance
  exact ordered.mem_of_links mem links

theorem append (ordered : Ordered s envs) (fresh : env.innermost = s.scopes.size)
    (size : s'.scopes.size = s.scopes.size + 1)
    (inner : ∀ outer, env.enclosing? = some outer → outer ∈ envs) : Ordered s' (envs ++ [env]) := by
  refine ⟨?_, fun other mem outer link => ?_⟩
  · rw [List.map_append, ordered.addresses, size, List.range_succ, List.map_singleton, fresh]
  · rcases List.mem_append.mp mem with old | new
    · obtain ⟨mem, lt⟩ := ordered.outward other old outer link
      exact ⟨List.mem_append_left _ mem, lt⟩
    · obtain rfl := List.mem_singleton.mp new
      have mem := inner outer link
      exact ⟨List.mem_append_left _ mem, fresh ▸ ordered.inside mem⟩

theorem congr (ordered : Ordered s envs) (size : s'.scopes.size = s.scopes.size) :
    Ordered s' envs :=
  ⟨size ▸ ordered.addresses, ordered.outward⟩

theorem changesOnly_bindAt (ordered : Ordered s envs) (mem : env ∈ envs) (name : String)
    (value : Value) : s.ChangesOnly envs env name value (s.bindAt env.innermost name value) := by
  refine ⟨mem, fun other there key => ?_, by simp [bindAt], rfl, rfl⟩
  have same : other.innermost = env.innermost ↔ other = env :=
    ⟨ordered.eq_of_innermost there mem, congrArg _⟩
  simp only [lookup_bindAt, ordered.inside mem, same, true_and]

end Ordered

theorem write_eq_ok {name : Name} {value : Value} (written : s.write env name value = .ok s') :
    ∃ d, s.BoundNearest env name.text d ∧ s' = s.assignAt env d name.text value := by
  by_cases unbound : s.Unbound env name.text
  · simp only [write, assign?, unbound.binder?_eq, Option.map_none] at written
    cases written
  · obtain ⟨d, nearest⟩ := exists_boundNearest unbound
    simp only [write, assign?, nearest.found.2, Option.map_some] at written
    cases written
    exact ⟨d, nearest, rfl⟩

theorem ordered (forest : Forest s envs) : Ordered s envs := by
  induction forest with
  | initial =>
    refine ⟨rfl, fun env mem outer link => ?_⟩
    obtain rfl := List.mem_singleton.mp mem
    cases link
  | plant _ ih => exact ih.append rfl (by simp [Store.plant]) nofun
  | @child s envs env _ mem ih =>
    refine ih.append rfl (by simp [enclose]) fun outer link => ?_
    cases link
    exact mem
  | define name value _ _ ih => exact ih.congr (by simp [Store.define, bindAt])
  | assign _ _ written ih =>
    obtain ⟨d, -, rfl⟩ := write_eq_ok written
    exact ih.congr (by simp [Store.assignAt, bindAt])
  | assignAt distance name value _ _ ih => exact ih.congr (by simp [Store.assignAt, bindAt])

/-- How names are found and changed from the environments of a forest. -/
structure Agreement (s : Store) (envs : List Environment) : Prop where
  /-- Links lead to environments that were made earlier. -/
  outward : ∀ env ∈ envs, ∀ outer, env.enclosing? = some outer →
    outer ∈ envs ∧ outer.innermost < env.innermost
  /-- An ancestor is reached by its number of links, or it is the outermost environment. -/
  ancestor : ∀ env ∈ envs, ∀ distance, env.ancestor distance ∈ envs ∧
    (∀ target, env.Links distance target → env.ancestor distance = target) ∧
    ((∀ target, ¬ env.Links distance target) → (env.ancestor distance).enclosing? = none)
  ancestor_add : ∀ env ∈ envs, ∀ a b, env.ancestor (a + b) = (env.ancestor a).ancestor b
  /-- Looking from the inside out is looking the least distance out at which the name is bound. -/
  read : ∀ env ∈ envs, ∀ name d, s.BoundNearest env name.text d →
    ∃ value, s.read env name = .ok value ∧ s.readAt env d name = .ok value
  unread : ∀ env ∈ envs, ∀ name,
    s.read env name = .error (undefined name) ↔ s.Unbound env name.text
  /-- To assign from the inside out is to assign at this distance. -/
  assign : ∀ env ∈ envs, ∀ name value d, s.BoundNearest env name.text d →
    s.write env name value = .ok (s.assignAt env d name.text value) ∧
    ∀ m : Machine, m.store = s → Run.assignFrom env name value m =
      .ok () { m with store := s.assignAt env d name.text value }
  /-- If there is none, the assignment fails and nothing is written. -/
  unassigned : ∀ env ∈ envs, ∀ name value, s.Unbound env name.text →
    s.write env name value = .error (undefined name) ∧
    ∀ m : Machine, m.store = s →
      Run.assignFrom env name value m = .error (.fault (undefined name)) m
  /-- What is written is one name of one environment. -/
  define : ∀ env ∈ envs, ∀ name value,
    s.ChangesOnly envs env name value (s.define env name value)
  assigned : ∀ env ∈ envs, ∀ name value s', s.write env name value = .ok s' →
    ∃ target d, env.Links d target ∧ s.BoundNearest env name.text d ∧
      s.ChangesOnly envs target name.text value s'
  assignAt : ∀ env ∈ envs, ∀ d name value,
    s.ChangesOnly envs (env.ancestor d) name value (s.assignAt env d name value)

/--
In a forest that any steps have built, looking a name up from the inside out and looking it up some
links out agree, and so do the two ways to assign to it. Every step that writes changes the value of
one name in one environment.
-/
theorem agreement (forest : Forest s envs) : Agreement s envs := by
  have ordered := forest.ordered
  refine ⟨ordered.outward, fun env mem distance => ⟨ordered.mem_ancestor mem distance,
    fun target links => links.ancestor_eq, fun short => ?_⟩, fun env _ => env.ancestor_add,
    fun env _ name d nearest => ?_, fun env _ name => ?_, fun env _ name value d nearest => ?_,
    fun env _ name value unbound => ?_, fun env mem => ordered.changesOnly_bindAt mem,
    fun env mem name value s' written => ?_, fun env mem d =>
      ordered.changesOnly_bindAt (ordered.mem_ancestor mem d)⟩
  · obtain ⟨d, le, links, last⟩ := env.exists_links distance
    rcases Nat.lt_or_eq_of_le le with lt | rfl
    · exact last lt
    · exact absurd links (short _)
  · obtain ⟨⟨value, found, foundAt⟩, -⟩ := nearest.found
    exact ⟨value, by rw [Store.read, found], by rw [readAt, foundAt]⟩
  · rw [← get?_eq_none_iff, Store.read]
    cases s.get? env name.text <;> simp
  · have binder := nearest.found.2
    refine ⟨by rw [write, assign?, binder]; rfl, ?_⟩
    rintro m rfl
    rw [Run.assignFrom, binder]
    rfl
  · have binder := unbound.binder?_eq
    refine ⟨by rw [write, assign?, binder]; rfl, ?_⟩
    rintro m rfl
    rw [Run.assignFrom, binder]
  · obtain ⟨d, nearest, rfl⟩ := write_eq_ok written
    obtain ⟨target, links, -⟩ := nearest.bound
    refine ⟨target, d, links, nearest, ?_⟩
    rw [← links.ancestor_eq]
    exact ordered.changesOnly_bindAt (ordered.mem_ancestor mem d) _ _

theorem agreement_hidden :
    let outer := Environment.root
    let s₁ := Store.initial.define outer "x" (.string "outer")
    let middle := (s₁.enclose outer).1
    let s₂ := (s₁.enclose outer).2.define middle "x" (.string "middle")
    let inner := (s₂.enclose middle).1
    let s := (s₂.enclose middle).2
    Forest s [outer, middle, inner] ∧ s.readAt inner 2 ⟨"x", 1⟩ = .ok (.string "outer") ∧
      s.read inner ⟨"x", 1⟩ = s.readAt inner 1 ⟨"x", 1⟩ ∧
      ∃ s', s.write inner ⟨"x", 1⟩ .nil = .ok s' ∧ s'.lookup middle.innermost "x" = some .nil ∧
        s'.lookup outer.innermost "x" = some (.string "outer") := by
  intro outer s₁ middle s₂ inner s
  have first : Forest s₁ [outer] := .define "x" _ .initial List.mem_cons_self
  have second : Forest s₂ [outer, middle] :=
    .define "x" _ (first.child List.mem_cons_self) (List.mem_cons_of_mem _ List.mem_cons_self)
  have forest : Forest s [outer, middle, inner] :=
    second.child (List.mem_cons_of_mem _ List.mem_cons_self)
  have nearest : s.BoundNearest inner "x" 1 := by
    refine ⟨⟨middle, .out rfl (.refl middle), rfl⟩, fun d target lt links => ?_⟩
    obtain rfl := Nat.lt_one_iff.mp lt
    cases links
    exact Bool.false_ne_true
  obtain ⟨value, read, readAt⟩ := (agreement forest).read inner (by simp) ⟨"x", 1⟩ 1 nearest
  have written := ((agreement forest).assign inner (by simp) ⟨"x", 1⟩ .nil 1 nearest).1
  have changes := (agreement forest).assignAt inner (by simp) 1 "x" .nil
  exact ⟨forest, rfl, read.trans readAt.symm, _, written,
    changes.lookup middle (by simp) "x", changes.lookup outer (by simp) "x"⟩

end Forest

end Store

end ScopeScript
