import ScopeScript.Proofs.Parsing.Numbering
import ScopeScript.Proofs.Parsing.StatementSoundness
import ScopeScript.Proofs.Parsing.TreeForm
import ScopeScript.Proofs.Scope.Addresses
import ScopeScript.Session

set_option autoImplicit false

namespace ScopeScript

namespace Session

variable {s s' : Session} {source : String} {body : List Stmt} {errors : List Diagnostic}

theorem getElem?_register (m : Machine) (resolution : Resolution) (i : Nat) :
    (register m resolution).resolution[i]? = resolution[i]?.or m.resolution[i]? := by
  have fold (entries : List (Nat × Nat)) : ∀ all : Resolution,
      entries.Pairwise (fun a b => a.1 ≠ b.1) →
      (∀ distance, (i, distance) ∈ entries →
        (entries.foldl (fun all entry => all.insert entry.1 entry.2) all)[i]? = some distance) ∧
      ((∀ distance, (i, distance) ∉ entries) →
        (entries.foldl (fun all entry => all.insert entry.1 entry.2) all)[i]? = all[i]?) := by
    induction entries with
    | nil => exact fun all _ => ⟨nofun, fun _ => rfl⟩
    | cons entry rest ih =>
      intro all distinct
      obtain ⟨apart, distinct⟩ := List.pairwise_cons.mp distinct
      obtain ⟨present, absent⟩ := ih (all.insert entry.1 entry.2) distinct
      refine ⟨fun distance mem => ?_, fun missing => ?_⟩
      · rcases List.mem_cons.mp mem with rfl | later
        · refine (absent fun other mem => apart _ mem rfl).trans ?_
          simp
        · exact present distance later
      · refine (absent fun distance mem => missing distance (List.mem_cons_of_mem _ mem)).trans ?_
        have other : entry.1 ≠ i := by
          rintro rfl
          exact missing entry.2 List.mem_cons_self
        simp [Std.TreeMap.getElem?_insert, other]
  have distinct : resolution.toList.Pairwise fun a b => a.1 ≠ b.1 :=
    resolution.distinct_keys_toList.imp fun h same => h (by simp [same])
  obtain ⟨present, absent⟩ := fold resolution.toList m.resolution distinct
  unfold register
  simp only [Std.TreeMap.foldl_eq_foldl_toList]
  cases found : resolution[i]? with
  | some distance =>
    exact present distance (Std.TreeMap.mem_toList_iff_getElem?_eq_some.mpr found)
  | none =>
    refine absent fun distance mem => ?_
    rw [Std.TreeMap.mem_toList_iff_getElem?_eq_some.mp mem] at found
    cases found

theorem parse_snd (s : Session) (source : String) :
    (s.parse source).2 = { s with nextId := (s.parse source).2.nextId } ∧
      s.nextId ≤ (s.parse source).2.nextId := by
  unfold parse
  split
  · exact ⟨rfl, Nat.le_refl _⟩
  · exact ⟨rfl, le_nextId_parse _ _⟩

theorem of_parse_eq_ok (h : (s.parse source).1 = .ok body) :
    Fresh s.nextId (s.parse source).2.nextId (Stmt.idsAll body) ∧ Stmt.AllWellFormed body ∧
      Stmt.AllEnclosed true false body := by
  unfold parse at h ⊢
  cases expanded : (s.library.process [] source).result with
  | error errors => simp [expanded] at h
  | ok text =>
    simp only [expanded] at h ⊢
    cases parsed : (ScopeScript.parse (scannedTokens (scan text)) s.nextId).result with
    | error errors => simp [parsed] at h
    | ok statements =>
      simp only [parsed] at h
      split at h
      · cases h
        obtain ⟨derived, accepted⟩ := derives_of_parse parsed
        exact ⟨fresh_of_parse parsed, wellFormed_of_derives_scan derived, accepted.enclosed⟩
      · cases h

theorem compile_of_parse {resolution : Resolution} (read : (s.parse source).1 = .ok body)
    (resolved : resolve body = .ok resolution) :
    s.compile source = (.ok body, { s with
      machine := register s.machine resolution, nextId := (s.parse source).2.nextId }) := by
  have same := (s.parse_snd source).1
  unfold compile
  generalize s.parse source = step at read same ⊢
  obtain ⟨result, s₁⟩ := step
  obtain rfl := read
  simp only at same
  simp only [resolved]
  rw [same]

theorem parse_of_compile (accepted : s.compile source = (.ok body, s')) :
    (s.parse source).1 = .ok body := by
  unfold compile at accepted
  generalize s.parse source = step at accepted ⊢
  obtain ⟨result, s₁⟩ := step
  cases result with
  | error errors => simp at accepted
  | ok statements =>
    simp only at accepted
    split at accepted
    · simp at accepted
    · simp only [Prod.mk.injEq, Except.ok.injEq] at accepted
      exact congrArg Except.ok accepted.1

structure Accepted (low high : Nat) (body : List Stmt) (resolution : Resolution) : Prop where
  fresh : Fresh low high (Stmt.idsAll body)
  enclosed : Stmt.AllEnclosed false false body
  others : ∀ i, i ∉ Stmt.idsAll body → resolution[i]? = none
  own : ∀ o ∈ Stmt.occurrencesAll [] body,
    o.reference.id ∈ Stmt.idsAll body ∧ resolution[o.reference.id]? = o.address? ∧ o.Ready

theorem compile_eq_ok (h : s.compile source = (.ok body, s')) :
    ∃ resolution, Accepted s.nextId s'.nextId body resolution ∧ resolve body = .ok resolution ∧
      s' = { s with machine := register s.machine resolution, nextId := s'.nextId } ∧
      s.nextId ≤ s'.nextId := by
  unfold compile at h
  obtain ⟨same, grows⟩ := s.parse_snd source
  have formed := @of_parse_eq_ok s source body
  generalize s.parse source = step at h same grows formed
  obtain ⟨result, s₁⟩ := step
  cases result with
  | error errors => simp at h
  | ok statements =>
    simp only at h
    split at h
    · simp at h
    next resolution resolved =>
      simp only [Prod.mk.injEq, Except.ok.injEq] at h
      obtain ⟨rfl, rfl⟩ := h
      obtain ⟨fresh, wellFormed, enclosed⟩ := formed rfl
      obtain ⟨others, own⟩ := resolves_of_resolve resolved fresh.distinct wellFormed
      refine ⟨resolution, ⟨fresh, allEnclosed_of_resolve resolved enclosed, others, own⟩,
        resolved, ?_, grows⟩
      simp only at same ⊢
      rw [same]

theorem compile_eq_error (h : s.compile source = (.error errors, s')) :
    s' = { s with nextId := s'.nextId } ∧ s.nextId ≤ s'.nextId := by
  unfold compile at h
  have known := s.parse_snd source
  generalize s.parse source = step at h known
  obtain ⟨result, s₁⟩ := step
  cases result with
  | error errors =>
    simp only [Prod.mk.injEq] at h
    exact h.2 ▸ known
  | ok statements =>
    simp only at h
    split at h
    · simp only [Prod.mk.injEq] at h
      exact h.2 ▸ known
    · simp at h

theorem machine_compile (s : Session) (source : String) :
    (s.compile source).2.machine =
      { s.machine with resolution := (s.compile source).2.machine.resolution } := by
  cases step : s.compile source with
  | mk result s' =>
    cases result with
    | error errors => rw [(compile_eq_error step).1]
    | ok body =>
      obtain ⟨resolution, -, -, same, -⟩ := compile_eq_ok step
      rw [same]
      rfl

end Session

end ScopeScript
