import ScopeScript.Proofs.Execution.Moments
import ScopeScript.Proofs.Sessions.Receivers

set_option autoImplicit false

namespace ScopeScript

open Run

namespace Store

structure Persists (s s' : Store) : Prop where
  size : s.scopes.size ≤ s'.scopes.size
  same : ∀ address name, address ≠ Environment.root.innermost → address < s.scopes.size →
    s'.lookup address name = s.lookup address name

theorem Persists.refl (s : Store) : s.Persists s := ⟨Nat.le_refl _, fun _ _ _ _ => rfl⟩

theorem Persists.trans {s s₁ s₂ : Store} (first : s.Persists s₁) (second : s₁.Persists s₂) :
    s.Persists s₂ :=
  ⟨Nat.le_trans first.size second.size, fun address name inner inside =>
    (second.same address name inner (Nat.lt_of_lt_of_le inside first.size)).trans
      (first.same address name inner inside)⟩

theorem persists_define (s : Store) (name : String) (value : Value) :
    s.Persists (s.define .root name value) := by
  refine ⟨Nat.le_of_eq (s.size_define .root name value).symm, fun address key inner _ => ?_⟩
  rw [define, lookup_bindAt, if_neg fun same => inner same.1]

end Store

theorem Machine.persists_defineNative (m : Machine) (name : String) (arity : Nat)
    (body : NativeBody) : m.store.Persists (m.defineNative name arity body).store := by
  have persists := m.store.newIdentity.2.persists_define name
    (.native ⟨m.store.identities, name, arity, body⟩)
  exact ⟨persists.size, persists.same⟩

namespace Moment

def LeadsTo (u v : Moment) : Prop :=
  u.store.scopes.size ≤ v.store.scopes.size ∧
    ∀ address name, address ≠ Environment.root.innermost → address < u.store.scopes.size →
      v.store.lookup address name ≠ u.store.lookup address name →
      ∃ p, v = leave p ∧ p.Sets address name

theorem Follows.leadsTo {u v : Moment} (follows : u.Follows v) : u.LeadsTo v :=
  ⟨follows.size, fun address name _ => follows.old address name⟩

theorem exists_sets {u v : Moment} {between : List Moment} {address : Nat} {name : String}
    (chain : (u :: (between ++ [v])).IsChain LeadsTo) (inner : address ≠ Environment.root.innermost)
    (inside : address < u.store.scopes.size)
    (changed : v.store.lookup address name ≠ u.store.lookup address name) :
    ∃ w, leave w ∈ between ++ [v] ∧ w.Sets address name := by
  induction between generalizing u with
  | nil =>
    obtain ⟨p, rfl, sets⟩ := (List.isChain_pair.mp chain).2 address name inner inside changed
    exact ⟨p, List.mem_cons_self, sets⟩
  | cons next rest ih =>
    obtain ⟨⟨size, old⟩, chain⟩ := List.isChain_cons_cons.mp chain
    by_cases same : next.store.lookup address name = u.store.lookup address name
    · obtain ⟨w, mem, sets⟩ := ih chain (Nat.lt_of_lt_of_le inside size) (same ▸ changed)
      exact ⟨w, List.mem_cons_of_mem _ mem, sets⟩
    · obtain ⟨p, rfl, sets⟩ := old address name inner inside same
      exact ⟨p, List.mem_cons_self, sets⟩

end Moment

open Moment

namespace History

variable {h h' : History}

def moments (h : History) : List Moment := h.roots.flatMap Point.moments

theorem mem_moments {u : Moment} : u ∈ h.moments ↔ h.Visits u.point := by
  unfold moments Visits
  simp only [List.mem_flatMap, Point.mem_moments]

theorem Arises.seated (arises : h.Arises) {p : Point} (visited : h.Visits p) : p.Seated := by
  have grounded := (arises.visited visited).1
  obtain ⟨n, task, m⟩ := p
  intro statement
  cases task with
  | execute _ | executeAll _ => exact grounded.2.1.inside
  | program _ | iterate _ _ _ | evaluate _ | evaluateAll _ | call _ _ _ | apply _ _ =>
    cases statement

theorem Arises.seated_root (arises : h.Arises) {root : Point} (mem : root ∈ h.roots) :
    ∀ q, Reaches root q → q.Seated :=
  fun _ reaches => arises.seated ⟨root, mem, reaches⟩

structure Continuous (h : History) : Prop where
  chain : h.moments.IsChain LeadsTo
  last : ∀ u ∈ h.moments.getLast?, u.store.Persists h.session.machine.store
  ordered : h.roots.Pairwise fun r r' => r.after.scopes.size ≤ r'.machine.store.scopes.size

namespace Continuous

theorem congr (continuous : h.Continuous) (roots : h'.roots = h.roots)
    (persists : h.session.machine.store.Persists h'.session.machine.store) : h'.Continuous := by
  have moments : h'.moments = h.moments := congrArg (List.flatMap Point.moments) roots
  refine ⟨moments ▸ continuous.chain, fun u mem => ?_, roots ▸ continuous.ordered⟩
  exact (continuous.last u (moments ▸ mem)).trans persists

theorem ran (continuous : h.Continuous) (arises : h.Arises) (arises' : h'.Arises) {root : Point}
    (roots : h'.roots = h.roots ++ [root]) (start : root.machine = h.session.machine)
    (store : h'.session.machine.store = root.after) : h'.Continuous := by
  have moments : h'.moments = h.moments ++ root.moments := by
    simp [History.moments, roots]
  have seated := arises'.seated_root (roots ▸ List.mem_append_right _ List.mem_cons_self)
  have own := (Point.isChain_moments root seated).imp fun _ _ follows => follows.leadsTo
  refine ⟨?_, fun u mem => ?_, ?_⟩
  · rw [moments]
    refine List.isChain_append.mpr ⟨continuous.chain, own, fun u last v first => ?_⟩
    obtain rfl : enter root = v := by simpa [Point.head?_moments] using first
    have persists := start ▸ continuous.last u last
    exact ⟨persists.size, fun address name inner inside changed =>
      absurd (persists.same address name inner inside) changed⟩
  · obtain rfl : leave root = u := by
      simpa [moments, Point.getLast?_moments] using mem
    rw [store]
    exact .refl _
  · rw [roots]
    refine List.pairwise_append.mpr ⟨continuous.ordered, List.pairwise_singleton _ _, ?_⟩
    intro r mem r' last
    obtain rfl := List.mem_singleton.mp last
    exact start ▸ (arises.visited ⟨r, mem, .refl⟩).2.2.scopes

end Continuous

theorem Arises.continuous (arises : h.Arises) : h.Continuous := by
  induction arises with
  | start output input clock library => exact ⟨.nil, nofun, .nil⟩
  | @parse h source _ ih =>
    refine ih.congr rfl ?_
    rw [(h.session.parse_snd source).1]
    exact .refl _
  | @compile h source _ ih =>
    have same := congrArg Machine.store (h.session.machine_compile source)
    refine ih.congr rfl ?_
    change h.session.machine.store.Persists (h.session.compile source).2.machine.store
    rw [same]
    exact .refl _
  | @execute h body depth arises mem ih =>
    refine ih.ran arises (arises.execute depth mem) rfl rfl ?_
    rw [History.execute, ending_program]
    rfl
  | @evaluate h body e depth arises mem inside ih =>
    refine ih.ran arises (arises.evaluate depth mem inside) rfl rfl ?_
    rw [History.evaluate, Session.evaluate_snd]
    rfl
  | @host h name arity f _ honest ih =>
    exact ih.congr rfl (h.session.machine.persists_defineNative name arity _)
  | moved library output input clock _ ih => exact ih.congr rfl (.refl _)

variable {u v : Moment} {before between behind : List Moment} {address : Nat} {name : String}

theorem Arises.lookup_eq (arises : h.Arises)
    (order : h.moments = before ++ u :: (between ++ v :: behind))
    (inner : address ≠ Environment.root.innermost) (inside : address < u.store.scopes.size)
    (unset : ∀ w, leave w ∈ between ++ [v] → ¬ w.Sets address name) :
    v.store.lookup address name = u.store.lookup address name := by
  by_contra changed
  have chain := arises.continuous.chain
  rw [order, ← List.singleton_append (l := behind), ← List.append_assoc between,
    ← List.cons_append] at chain
  obtain ⟨w, mem, sets⟩ := exists_sets (List.isChain_append.mp
    (List.isChain_append.mp chain).2.1).1 inner inside changed
  exact unset w mem sets

theorem Arises.pairwise_moments (arises : h.Arises) :
    h.moments.Pairwise fun u v => ∀ a b, u.Makes a → v.Makes b → a ≠ b := by
  refine List.pairwise_flatMap.mpr ⟨fun root mem =>
    Point.pairwise_moments root (arises.seated_root mem), ?_⟩
  refine arises.continuous.ordered.imp_of_mem fun {r r'} early late order u first v second a b
    here there => ?_
  have upper := Point.makes_bounds (arises.seated_root early) first here
  have lower := Point.makes_bounds (arises.seated_root late) second there
  omega

end History

end ScopeScript
