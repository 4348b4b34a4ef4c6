import ScopeScript.Proofs.Likeness.Simulation
import ScopeScript.Proofs.Likeness.Walks

set_option autoImplicit false

namespace ScopeScript

section

variable {K K' : Link} {body body' first second : List Stmt} {table table' : Resolution}

theorem resolve_eq_ok_iff : resolve body = .ok table ↔
    (Stmt.scopesAll .topLevel body .initial).faults = [] ∧
      (Stmt.scopesAll .topLevel body .initial).resolution = table := by
  unfold resolve
  by_cases clean : (Stmt.scopesAll .topLevel body .initial).faults = [] <;> simp [clean]

theorem faults_eq_nil_of_alike {faults faults' : List Diagnostic}
    (h : List.Forall₂ (Diagnostic.Alike K) faults faults')
    (clean : faults = []) : faults' = [] := by
  subst clean
  cases h
  rfl

theorem resolve_joined (resolves : K.Resolves ∅) (resolves' : K'.Resolves ∅) (plain : K.Plain)
    (plain' : K'.Plain) (alike : Stmt.AllAlike K [] body first)
    (alike' : Stmt.AllAlike K' [] body' second)
    (distinct : (Stmt.idsAll (first ++ second)).Nodup)
    (own : ∀ {i j d}, K.linked i j d → j ∈ Stmt.idsAll first)
    (own' : ∀ {i j d}, K'.linked i j d → j ∈ Stmt.idsAll second)
    (resolved : resolve body = .ok table) (resolved' : resolve body' = .ok table') :
    ∃ found, resolve (first ++ second) = .ok found ∧
      (∀ {i j d}, K.linked i j d → found[j]? = table[i]?) ∧
      ∀ {i j d}, K'.linked i j d → found[j]? = table'[i]? := by
  obtain ⟨clean, rfl⟩ := resolve_eq_ok_iff.mp resolved
  obtain ⟨clean', rfl⟩ := resolve_eq_ok_iff.mp resolved'
  rw [Stmt.idsAll_append, List.nodup_append] at distinct
  have apart {j : Nat} (here : j ∈ Stmt.idsAll first) (there : j ∈ Stmt.idsAll second) : False :=
    distinct.2.2 j here j there rfl
  have walked := alike.scopes resolves .topLevel .initial (.inl plain)
  -- The walk comes to the second part with no scope open and no violation noted.
  have between : ScopeState.Alike K' [] .initial (Stmt.scopesAll .topLevel first .initial) := by
    refine ⟨?_, ?_, fun linked => ?_⟩
    · have scopes := walked.scopes
      generalize (Stmt.scopesAll .topLevel first .initial).scopes = inner at scopes ⊢
      generalize (Stmt.scopesAll .topLevel body .initial).scopes = outer at scopes
      cases scopes
      exact .nil
    · rw [faults_eq_nil_of_alike walked.faults clean]
      exact .nil
    · exact Stmt.getElem?_scopesAll first .topLevel .initial fun here => apart here (own' linked)
  have walked' := alike'.scopes resolves' .topLevel between (.inl plain')
  have whole := Stmt.scopesAll_append .topLevel first second .initial
  refine ⟨_, resolve_eq_ok_iff.mpr ⟨?_, rfl⟩, fun linked => ?_, fun linked => ?_⟩
  · rw [whole]
    exact faults_eq_nil_of_alike walked'.faults clean'
  · rw [whole, Stmt.getElem?_scopesAll second .topLevel _ fun there => apart (own linked) there]
    exact walked.entered linked
  · rw [whole]
    exact walked'.entered linked

end

namespace Run

variable {depth : Nat} {first second body : List Stmt} {m m' : Machine}

theorem executeProgram_append (ran : executeProgram depth first m = .ok () m') :
    executeProgram depth (first ++ second) m = executeProgram depth second m' := by
  induction first generalizing m with
  | nil =>
    cases ran
    rfl
  | cons s rest ih =>
    have step (body : List Stmt) : executeProgram depth (s :: body) m =
        (execute depth s >>= fun _ => executeProgram depth body) m := rfl
    cases head : execute depth s m with
    | ok completion m₁ =>
      rw [step, bind_of_ok head] at ran
      rw [List.cons_append, step, bind_of_ok head, ih ran]
    | error halt m₁ =>
      rw [step, bind_of_error head] at ran
      cases ran

theorem program_append (ran : executeProgram depth first m = .ok () m') :
    program depth (first ++ second) m = program depth second m' := by
  unfold program
  rw [executeProgram_append ran]

theorem executeProgram_of_program (ran : program depth body m = .ok () m') :
    ∃ m₁, executeProgram depth body m = .ok () m₁ ∧ m' = { m₁ with environment := .root } := by
  unfold program at ran
  cases executed : executeProgram depth body m with
  | ok a m₁ =>
    have kept := ending_flush { m₁ with environment := .root }
    simp only [executed] at ran
    rw [ran] at kept
    exact ⟨m₁, rfl, kept⟩
  | error halt m₁ =>
    simp only [executed] at ran
    cases halt with
    | fault error =>
      simp only at ran
      split at ran <;> cases ran
    | exhausted | awaitingInput => cases ran

end Run

end ScopeScript
