import ScopeScript.Proofs.Execution.Grounded
import ScopeScript.Proofs.Execution.Soundness

set_option autoImplicit false

namespace ScopeScript

open Run

variable {S : Setting} {O : Origins} {s : Store} {chain : List Nat} {frames : List Frame}

namespace Mirrors

theorem split {inside : List Frame} (h : Mirrors S s chain (inside ++ frames)) :
    ∃ front back, chain = front ++ back ∧ front.length = inside.length ∧
      Mirrors S s back frames := by
  induction inside generalizing chain with
  | nil => exact ⟨[], chain, rfl, rfl, h⟩
  | cons frame inside ih =>
    cases h with
    | @inner address _ _ _ _ _ _ outer =>
      obtain ⟨front, back, rfl, same, rest⟩ := ih outer
      exact ⟨address :: front, back, rfl, by simp [same], rest⟩

theorem ne_nil (h : Mirrors S s chain frames) : chain ≠ [] := by
  cases h <;> simp

end Mirrors

theorem Layered.drop {front : List Nat} (h : Layered O s (front ++ chain)) (inner : chain ≠ []) :
    Layered O s chain := by
  induction front with
  | nil => exact h
  | cons address front ih =>
    cases h' : front ++ chain with
    | nil => exact absurd (List.append_eq_nil_iff.mp h').2 inner
    | cons next rest =>
      rw [List.cons_append, h'] at h
      cases h with
      | inner _ _ _ outer => exact ih (h' ▸ outer)

structure SuperScopes (S : Setting) (m : Machine) (r : Reference) (frames : List Frame)
    (inside : List Frame) (method : FunctionDecl) (header : Reference) (receiver superclass : Nat) :
    Prop where
  layout : ∃ outer, frames =
    inside ++ ⟨.receiver method, ["this"]⟩ :: ⟨.superclass header, ["super"]⟩ :: outer
  locals : ∀ frame ∈ inside, frame.Local
  resolved : m.resolution[r.id]? = some (inside.length + 1)
  links : ∃ front back, m.environment.chain = front ++ receiver :: superclass :: back ∧
    front.length = inside.length ∧ back ≠ []
  opened : S.activated receiver (.receiver method) ∧ S.activated superclass (.superclass header)
  bound : (m.store.lookup receiver "this").isSome ∧ (m.store.lookup superclass "super").isSome

theorem Point.Fits.superScopes {v : View} {n : Nat} {r : Reference} {name : Name} {m : Machine}
    (fits : Fits S v ⟨n + 1, .evaluate (.super r name), m⟩) (derived : Frame.Derived v.frames) :
    ∃ inside method header receiver superclass,
      SuperScopes S m r v.frames inside method header receiver superclass := by
  obtain ⟨sound, mirrors, knows⟩ := fits
  obtain ⟨recorded, ready⟩ := sound.recorded _ (knows _ List.mem_cons_self)
  obtain ⟨inside, method, header, outer, layout, locals, found⟩ := derived.split
  have resolved : m.resolution[r.id]? = some (inside.length + 1) := by
    have word : r.name.text = "super" := ready.spelled _ rfl
    rw [recorded, ready.address?_eq (by simp), Occurrence.name, word, found]
  rw [layout] at mirrors
  obtain ⟨front, back, links, same, rest⟩ := mirrors.split
  cases rest with
  | @inner receiver _ _ _ opened _ bound rest =>
    cases rest with
    | @inner superclass back _ _ opened' _ bound' rest =>
      exact ⟨inside, method, header, receiver, superclass, ⟨outer, layout⟩, locals, resolved,
        ⟨front, back, links, same, rest.ne_nil⟩, ⟨opened, opened'⟩,
          bound _ (by simp), bound' _ (by simp)⟩

namespace SuperScopes

variable {m : Machine} {r : Reference} {inside : List Frame} {method : FunctionDecl}
  {header : Reference} {receiver superclass : Nat}

theorem ancestor_receiver (h : SuperScopes S m r frames inside method header receiver superclass) :
    (m.environment.ancestor inside.length).innermost = receiver := by
  obtain ⟨front, back, links, same, -⟩ := h.links
  exact Environment.innermost_ancestor (by simp [links, same])

theorem ancestor_superclass
    (h : SuperScopes S m r frames inside method header receiver superclass) :
    (m.environment.ancestor (inside.length + 1)).innermost = superclass := by
  obtain ⟨front, back, links, same, -⟩ := h.links
  refine Environment.innermost_ancestor ?_
  rw [links, List.getElem?_append_right (by omega)]
  simp [same]

theorem inner (h : SuperScopes S m r frames inside method header receiver superclass)
    (layered : Layered O m.store m.environment.chain) :
    receiver ≠ Environment.root.innermost ∧ superclass ≠ Environment.root.innermost := by
  obtain ⟨front, back, links, -, more⟩ := h.links
  rw [links] at layered
  cases layered.drop (by simp) with
  | inner _ inner _ outer =>
    refine ⟨inner, ?_⟩
    cases outer with
    | root => exact absurd rfl more
    | inner _ inner' => exact inner'

theorem values (h : SuperScopes S m r frames inside method header receiver superclass)
    (grounded : m.Grounded O) (layered : Layered O m.store m.environment.chain) :
    ∃ i d c, m.store.lookup receiver "this" = some (.instance i) ∧
      m.store.lookup superclass "super" = some (.class c) ∧ O.made d ∧ i.ofClass.Descends d ∧
      d.superclass? = some c := by
  obtain ⟨inner, inner'⟩ := h.inner layered
  obtain ⟨front, back, links, -⟩ := h.links
  obtain ⟨value, this⟩ := Option.isSome_iff_exists.mp h.bound.1
  obtain ⟨value', super⟩ := Option.isSome_iff_exists.mp h.bound.2
  obtain ⟨i, rfl, -⟩ := grounded.receiver inner this
  obtain ⟨c, rfl⟩ := grounded.superclass inner' super
  rw [links] at layered
  cases layered.drop (by simp) with
  | inner _ _ method _ =>
    obtain ⟨d, made, descends, behind⟩ := method i this
    exact ⟨i, d, c, this, super, made, descends, behind _ rfl inner' c super⟩

end SuperScopes

end ScopeScript
