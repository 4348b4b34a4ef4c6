import Mathlib.Data.List.Chain
import ScopeScript.Proofs.Execution.Writes

set_option autoImplicit false

namespace ScopeScript

inductive Moment where
  | enter (p : Point)
  | leave (p : Point)

def Point.leftover (s : Store) (parts : List Point) : Store := parts.foldl (fun _ q => q.after) s

def Point.onset (p : Point) : Store := leftover p.machine.store p.parts

namespace Moment

def point : Moment → Point
  | enter p | leave p => p

def store : Moment → Store
  | enter p => p.machine.store
  | leave p => p.after

def Makes (u : Moment) (address : Nat) : Prop := ∃ p site, u = enter p ∧ Opens p address site

/-- The next moment after another one. A point sets names as it ends, and it makes its scope as it
starts or as it ends. -/
structure Follows (u v : Moment) : Prop where
  size : u.store.scopes.size ≤ v.store.scopes.size
  old : ∀ address name, address < u.store.scopes.size →
    v.store.lookup address name ≠ u.store.lookup address name →
    ∃ p, v = leave p ∧ p.Sets address name
  new : ∀ address name, u.store.scopes.size ≤ address → (v.store.lookup address name).isSome →
    ∃ p, (u = enter p ∨ v = leave p) ∧ p.Equips address name
  ends : ∀ p, v = leave p → u.store = p.onset

theorem Follows.enter_of_eq {u : Moment} {p : Point} (same : p.machine.store = u.store) :
    u.Follows (enter p) := by
  refine ⟨Nat.le_of_eq (congrArg (·.scopes.size) same.symm), fun address name _ changed => ?_,
    fun address name outside bound => ?_, nofun⟩
  · exact absurd (congrArg (·.lookup address name) same) changed
  · rw [store, same, Store.lookup_eq_none outside] at bound
    cases bound

theorem Follows.leave_of_moves {u : Moment} {p : Point} (ends : u.store = p.onset)
    (moves : u.store.Moves p.Sets p.Equips p.after) : u.Follows (leave p) := by
  obtain ⟨size, old, new⟩ := moves
  refine ⟨size, fun address name inside changed => ⟨p, rfl, old address name inside changed⟩,
    fun address name outside bound => ⟨p, .inr rfl, new address name outside bound⟩, ?_⟩
  rintro _ ⟨⟩
  exact ends

end Moment

open Moment Run

namespace Point

variable {p q r : Point} {u v : Moment}

/-- The starts and the ends of the point and of whatever it has to run, in the order of time. -/
def moments (p : Point) : List Moment :=
  .enter p :: (p.parts.attach.flatMap fun q => q.1.moments) ++ [.leave p]
termination_by p.size
decreasing_by exact (mem_parts_iff.mp q.2).size_lt

theorem moments_eq (p : Point) :
    p.moments = .enter p :: (p.parts.flatMap moments ++ [.leave p]) := by
  rw [moments, List.flatMap_subtype (g := moments) fun _ _ => rfl, List.unattach_attach]
  rfl

theorem head?_moments (p : Point) : p.moments.head? = some (.enter p) := by
  rw [moments_eq, List.head?_cons]

theorem getLast?_moments (p : Point) : p.moments.getLast? = some (.leave p) := by
  rw [moments_eq, ← List.cons_append, List.getLast?_concat]

theorem moments_subset (begins : Begins p q) : q.moments ⊆ p.moments := by
  intro u mem
  rw [moments_eq p]
  exact List.mem_cons_of_mem _ (List.mem_append_left _
    (List.mem_flatMap_of_mem (mem_parts_iff.mpr begins) mem))

theorem moments_subset_of_reaches (reaches : Reaches p q) : q.moments ⊆ p.moments := by
  induction reaches with
  | refl => exact fun _ => id
  | next _ begins ih => exact fun _ mem => ih (moments_subset begins mem)

theorem reaches_of_mem : ∀ p : Point, u ∈ p.moments → Reaches p u.point := by
  refine Begins.induction fun p parts mem => ?_
  rw [moments_eq] at mem
  rcases List.mem_cons.mp mem with rfl | mem
  · exact .refl
  rcases List.mem_append.mp mem with inside | last
  · obtain ⟨q, part, mem⟩ := List.mem_flatMap.mp inside
    have begins := mem_parts_iff.mp part
    exact .of_begins begins (parts q begins mem)
  · obtain rfl := List.mem_singleton.mp last
    exact .refl

theorem mem_moments : u ∈ p.moments ↔ Reaches p u.point := by
  refine ⟨reaches_of_mem p, fun reaches => moments_subset_of_reaches reaches ?_⟩
  rw [moments_eq]
  cases u with
  | enter q => exact List.mem_cons_self
  | leave q => exact List.mem_cons_of_mem _ (List.mem_append_right _ List.mem_cons_self)

-- What changes from one moment to the next.

theorem Goes.isChain {s s' : Store} {parts : List Point} (goes : p.Goes s' s parts)
    (ends : s' = p.after) (onset : p.onset = leftover s parts)
    (chains : ∀ q ∈ parts, q.moments.IsChain Follows) :
    (parts.flatMap moments ++ [leave p]).IsChain Follows ∧
      ∀ u : Moment, u.store = s → ∀ v ∈ (parts.flatMap moments ++ [leave p]).head?,
        u.Follows v := by
  induction parts generalizing s with
  | nil =>
    refine ⟨.singleton _, fun u starts v next => ?_⟩
    obtain rfl : leave p = v := by simpa using next
    subst starts ends
    exact .leave_of_moves onset.symm goes
  | cons q rest ih =>
    obtain ⟨starts, goes⟩ := goes
    obtain ⟨chain, next⟩ := ih goes onset fun q mem => chains q (List.mem_cons_of_mem _ mem)
    rw [List.flatMap_cons, List.append_assoc]
    refine ⟨List.isChain_append.mpr ⟨chains q List.mem_cons_self, chain, ?_⟩, ?_⟩
    · intro u last
      obtain rfl : leave q = u := by simpa [getLast?_moments] using last
      exact next _ rfl
    · intro u same v first
      obtain rfl : enter q = v := by simpa [List.head?_append, head?_moments] using first
      exact .enter_of_eq (starts.trans same.symm)

theorem Orderly.isChain (orderly : p.Orderly)
    (chains : ∀ q, Begins p q → q.moments.IsChain Follows) : p.moments.IsChain Follows := by
  have chains (q : Point) (mem : q ∈ p.parts) := chains q (mem_parts_iff.mp mem)
  have onset : p.onset = leftover p.machine.store p.parts := rfl
  rw [moments_eq]
  unfold Orderly at orderly
  cases parts : p.parts with
  | nil =>
    rw [parts] at orderly onset
    exact List.isChain_pair.mpr (.leave_of_moves onset.symm orderly)
  | cons q rest =>
    rw [parts] at orderly chains onset
    obtain ⟨size, old, new⟩ := orderly.1
    obtain ⟨chain, next⟩ := orderly.2.isChain rfl onset
      fun q mem => chains q (List.mem_cons_of_mem _ mem)
    rw [List.flatMap_cons, List.append_assoc]
    refine List.isChain_cons.mpr ⟨fun v first => ?_, List.isChain_append.mpr
      ⟨chains q List.mem_cons_self, chain, fun u last => ?_⟩⟩
    · obtain rfl : enter q = v := by simpa [List.head?_append, head?_moments] using first
      exact ⟨size, fun address name inside changed => (old address name inside changed).elim,
        fun address name outside bound => ⟨p, .inl rfl, new address name outside bound⟩, nofun⟩
    · obtain rfl : leave q = u := by simpa [getLast?_moments] using last
      exact next _ rfl

theorem isChain_moments : ∀ p : Point, (∀ q, Reaches p q → q.Seated) →
    p.moments.IsChain Follows :=
  Begins.induction fun p parts seated =>
    (p.orderly (seated p .refl)).isChain fun q begins =>
      parts q begins fun r reaches => seated r (.of_begins begins reaches)

-- How many scopes there are.

theorem pairwise_size (seated : ∀ q, Reaches p q → q.Seated) :
    p.moments.Pairwise fun u v => u.store.scopes.size ≤ v.store.scopes.size := by
  have sizes : (p.moments.map fun u => u.store.scopes.size).IsChain (· ≤ ·) :=
    (List.isChain_map _).mpr ((isChain_moments p seated).imp fun _ _ follows => follows.size)
  exact List.pairwise_map.mp sizes.pairwise

theorem size_of_reaches (seated : ∀ q, Reaches p q → q.Seated) (reaches : Reaches p u.point) :
    p.machine.store.scopes.size ≤ u.store.scopes.size ∧
      u.store.scopes.size ≤ p.after.scopes.size := by
  have sizes := pairwise_size seated
  have mem := mem_moments.mpr reaches
  rw [moments_eq] at sizes mem
  obtain ⟨first, rest⟩ := List.pairwise_cons.mp sizes
  have last := (List.pairwise_append.mp rest).2.2
  rcases List.mem_cons.mp mem with rfl | mem
  · exact ⟨Nat.le_refl _, first (.leave p) (List.mem_append_right _ List.mem_cons_self)⟩
  rcases List.mem_append.mp mem with inside | ends
  · exact ⟨first u mem, last u inside (.leave p) List.mem_cons_self⟩
  · obtain rfl := List.mem_singleton.mp ends
    exact ⟨first _ mem, Nat.le_refl _⟩

variable {a b : Nat} {site : Site}

theorem size_lt_bind (method : Method) (i : Instance) (m : Machine) :
    m.store.scopes.size < (ending (Run.bind method i m)).store.scopes.size :=
  Store.lt_size_of_lookup (only_bind method i m).self

theorem size_lt_of_bind {method : Method} {i : Instance} {f : Closure} {m m' : Machine}
    (ran : Run.bind method i m = .ok f m') : m.store.scopes.size < m'.store.scopes.size := by
  simpa [ran, ending] using size_lt_bind method i m

theorem opens_bounds (opens : Opens p a site) (seated : ∀ q, Reaches p q → q.Seated) :
    p.machine.store.scopes.size ≤ a ∧ a < p.after.scopes.size := by
  have inside {q : Point} (begins : Begins p q) (there : a < q.machine.store.scopes.size) :
      a < p.after.scopes.size :=
    Nat.lt_of_lt_of_le there (size_of_reaches (u := .enter q) seated (Reaches.refl.next begins)).2
  cases opens with
  | block => exact ⟨Nat.le_refl _, inside (.block rfl) (by simp)⟩
  | call =>
    refine ⟨Nat.le_refl _, inside (.applied rfl) ?_⟩
    exact Nat.lt_of_lt_of_le (by simp) (Store.grows_defineAll _ _ _).scopes
  | property ran noField found =>
    exact ⟨((keeps_evaluate _ _).of_ok ran).store.scopes,
      after_get ran noField found ▸ size_lt_bind _ _ _⟩
  | inherited resolved isClass isInstance found =>
    exact ⟨Nat.le_refl _, after_super resolved isClass isInstance found ▸ size_lt_bind _ _ _⟩
  | initializer same found =>
    exact ⟨Nat.le_refl _, inside (.initializer same found rfl (bind_eq ..)) (size_lt_bind _ _ _)⟩
  | superclass ran =>
    obtain rfl := eq_of_superclass ran
    refine ⟨Nat.le_refl _, ?_⟩
    rw [after_classDecl (seated _ .refl trivial) ran]
    exact Nat.lt_of_lt_of_le (Store.lt_size_of_lookup (only_surroundings _ _ _).self)
      (Store.grows_bindAt _ _ _ _).scopes

theorem opens_outside (opens : Opens p a site) (begins : Begins p q) :
    a < q.machine.store.scopes.size ∨ q.after.scopes.size ≤ a := by
  cases opens with
  | block =>
    cases begins with
    | block ran =>
      cases ran
      exact .inl (by simp)
  | call =>
    cases begins with
    | applied ran =>
      cases ran
      exact .inl (Nat.lt_of_lt_of_le (by simp) (Store.grows_defineAll _ _ _).scopes)
  | property ran noField found =>
    cases begins with
    | owner => exact .inr (by simp [after, ran, ending])
  | inherited | superclass => cases begins
  | initializer same found =>
    cases begins with
    | initializer _ _ made bound =>
      have size := size_lt_of_bind bound
      cases made
      exact .inl size

theorem makes_bounds (seated : ∀ q, Reaches p q → q.Seated) (mem : u ∈ p.moments)
    (makes : u.Makes a) : p.machine.store.scopes.size ≤ a ∧ a < p.after.scopes.size := by
  obtain ⟨r, site, rfl, opens⟩ := makes
  have reaches := mem_moments.mp mem
  have own := opens_bounds opens fun q later => seated q (reaches.trans later)
  have start := (size_of_reaches (u := .enter r) seated reaches).1
  have finish := (size_of_reaches (u := .leave r) seated reaches).2
  exact ⟨Nat.le_trans start own.1, Nat.lt_of_lt_of_le own.2 finish⟩

theorem pairwise_moments : ∀ p : Point, (∀ q, Reaches p q → q.Seated) →
    p.moments.Pairwise fun u v => ∀ a b, u.Makes a → v.Makes b → a ≠ b := by
  refine Begins.induction fun p parts seated => ?_
  have sizes := pairwise_size seated
  have below {q : Point} (mem : q ∈ p.parts) (r : Point) (reaches : Reaches q r) : r.Seated :=
    seated r (.of_begins (mem_parts_iff.mp mem) reaches)
  have none {a : Nat} : ¬ (leave p).Makes a := by
    rintro ⟨_, _, ⟨⟩, -⟩
  rw [moments_eq] at sizes ⊢
  have ordered :=
    List.pairwise_flatMap.mp (List.pairwise_append.mp (List.pairwise_cons.mp sizes).2).1
  refine List.pairwise_cons.mpr ⟨fun v mem a b here there => ?_, List.pairwise_append.mpr
    ⟨List.pairwise_flatMap.mpr ⟨fun q part => ?_, ?_⟩, List.pairwise_singleton _ _, ?_⟩⟩
  -- the scope of the point itself and one that is made in a part
  · rcases List.mem_append.mp mem with inside | last
    · obtain ⟨q, part, mem⟩ := List.mem_flatMap.mp inside
      obtain ⟨_, site, ⟨⟩, opens⟩ := here
      have bound := makes_bounds (below part) mem there
      have outside := opens_outside opens (mem_parts_iff.mp part)
      omega
    · exact absurd (List.mem_singleton.mp last ▸ there) none
  -- two that are made in one part
  · exact parts q (mem_parts_iff.mp part) (below part)
  -- and in different parts
  · refine ordered.2.imp_of_mem fun {q r} part later before u first v second a b here there => ?_
    have early := makes_bounds (below part) first here
    have late := makes_bounds (below later) second there
    have apart := before (leave q) (mem_moments.mpr .refl) (enter r) (mem_moments.mpr .refl)
    simp only [store] at apart
    omega
  · intro u _ v last a b _ there
    exact absurd (List.mem_singleton.mp last ▸ there) none

end Point

end ScopeScript
