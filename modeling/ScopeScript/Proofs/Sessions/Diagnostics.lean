import ScopeScript.Proofs.Execution.Stopping
import ScopeScript.Proofs.Importing.Lines
import ScopeScript.Proofs.Parsing.Faults
import ScopeScript.Proofs.Scope.Reports
import ScopeScript.Proofs.Sessions.Trails

set_option autoImplicit false

namespace ScopeScript

namespace Diagnostic

/-- The lexical and the syntactic faults of a text in one list: each of them once, line by line, on
one line the lexical ones first, and each sort in its order. -/
structure Merges (lexical syntactic errors : List Diagnostic) : Prop where
  all : errors.Perm (lexical ++ syntactic)
  ordered : errors.Pairwise Precedes
  stable : ∀ line : Nat, errors.filter (·.line? = some line) =
    lexical.filter (·.line? = some line) ++ syntactic.filter (·.line? = some line)

variable {lexical syntactic errors : List Diagnostic}

theorem pairwise_sortByLine (errors : List Diagnostic) : (sortByLine errors).Pairwise Precedes := by
  have sorted : (sortByLine errors).Pairwise fun a b =>
      decide (a.line?.getD 0 ≤ b.line?.getD 0) = true :=
    List.pairwise_mergeSort (fun a b c => by simpa using Nat.le_trans)
      (fun a b => by simpa using Nat.le_total _ _) errors
  exact sorted.imp fun h => of_decide_eq_true h

theorem filter_sortByLine (errors : List Diagnostic) (line : Nat) :
    (sortByLine errors).filter (·.line? = some line) = errors.filter (·.line? = some line) := by
  have level : (errors.filter (·.line? = some line)).Pairwise fun a b =>
      decide (a.line?.getD 0 ≤ b.line?.getD 0) = true := by
    refine List.pairwise_of_forall_mem_list fun a mem b mem' => ?_
    have here := of_decide_eq_true (List.mem_filter.mp mem).2
    have here' := of_decide_eq_true (List.mem_filter.mp mem').2
    rw [here, here']
    exact decide_eq_true (Nat.le_refl _)
  have kept := List.sublist_mergeSort (fun a b c => by simpa using Nat.le_trans)
    (fun a b => by simpa using Nat.le_total _ _) level List.filter_sublist
  have part := kept.filter (·.line? = some line)
  simp only [List.filter_filter, Bool.and_self] at part
  have same := ((List.mergeSort_perm errors fun a b =>
    decide (a.line?.getD 0 ≤ b.line?.getD 0)).filter (·.line? = some line)).length_eq
  exact (part.eq_of_length same.symm).symm

theorem merges_sortByLine (lexical syntactic : List Diagnostic) :
    Merges lexical syntactic (sortByLine (lexical ++ syntactic)) where
  all := List.mergeSort_perm _ _
  ordered := pairwise_sortByLine _
  stable line := by rw [filter_sortByLine, List.filter_append]

theorem merges_lexical (sorted : lexical.Pairwise Precedes) : Merges lexical [] lexical where
  all := by rw [List.append_nil]
  ordered := sorted
  stable line := (List.append_nil _).symm

end Diagnostic

theorem Reported.isCompileTime {ps : List Checkpoint} {errors : List Diagnostic}
    (h : Reported ps errors) : ∀ d ∈ errors, d.isCompileTime = true := by
  induction h with
  | nil => simp
  | broken _ _ ih => exact List.forall_mem_cons.mpr ⟨rfl, ih⟩
  | kept _ _ ih => exact ih

theorem Library.Locates.isCompileTime {library : Library} {text : List Char}
    {rs : List Replacement} (h : library.Locates text rs) :
    ∀ d ∈ rs.filterMap Replacement.fault?, d.isCompileTime = true := by
  intro d mem
  obtain ⟨r, mem, found⟩ := List.mem_filterMap.mp mem
  obtain ⟨i, here⟩ := List.mem_iff_getElem?.mp mem
  have located := h i d (by rw [here]; exact found)
  cases located <;> rfl

theorem Library.of_process_error {library : Library} {seen : List String} {source : String}
    {errors : List Diagnostic} (failed : (library.process seen source).result = .error errors) :
    errors ≠ [] ∧ ∀ d ∈ errors, d.isCompileTime = true := by
  obtain ⟨-, rs, -, shows, here, inside, split⟩ := library.lines_exact seen source
  have outcome := shows.result
  rw [failed] at outcome
  split at outcome
  · cases outcome
  next some_fault =>
    obtain rfl := Except.error.inj outcome
    refine ⟨by simpa using some_fault, fun d mem => ?_⟩
    rcases (split d).mp mem with own | ⟨path, below, included, own⟩
    · exact here.isCompileTime d own
    · obtain ⟨text, -, located⟩ := inside path below included
      exact located.isCompileTime d own

namespace Session

variable {s : Session} {source text : String} {errors : List Diagnostic}

theorem compile_fst (s : Session) (source : String) : (s.compile source).1 =
    match (s.parse source).1 with
    | .error errors => .error errors
    | .ok body => (resolve body).map fun _ => body := by
  unfold compile
  generalize s.parse source = step
  obtain ⟨result, s₁⟩ := step
  cases result with
  | error errors => rfl
  | ok body =>
    simp only
    cases resolve body <;> rfl

theorem parse_of_unreadable (failed : (s.library.process [] source).result = .error errors) :
    (s.parse source).1 = .error errors := by
  unfold parse
  rw [failed]

theorem parse_of_expanded (expanded : (s.library.process [] source).result = .ok text) :
    let lexical := scanFaults (scan text)
    let parsed := ScopeScript.parse (scannedTokens (scan text)) s.nextId
    (lexical ++ parsed.faults ≠ [] → ∃ errors, (s.parse source).1 = .error errors ∧
      Diagnostic.Merges lexical parsed.faults errors) ∧
    (lexical ++ parsed.faults = [] → ∃ body, parsed.result = .ok body ∧
      (s.parse source).1 = .ok body) := by
  intro lexical parsed
  cases read : parsed.result with
  | error errors =>
    have outcome : (s.parse source).1 = .error (Diagnostic.sortByLine (lexical ++ errors)) := by
      simp only [parse, expanded, show (ScopeScript.parse _ _).result = _ from read, lexical]
    have faults : parsed.faults = errors := by rw [Parsed.faults, read]
    refine ⟨fun _ => ⟨_, outcome, faults ▸ Diagnostic.merges_sortByLine lexical errors⟩,
      fun none => ?_⟩
    exact absurd (List.append_eq_nil_iff.mp none).2 (faults ▸ ne_nil_of_parse read)
  | ok body =>
    have outcome : (s.parse source).1 = if lexical.isEmpty then .ok body else .error lexical := by
      simp only [parse, expanded, show (ScopeScript.parse _ _).result = _ from read, lexical]
    have faults : parsed.faults = [] := by rw [Parsed.faults, read]
    rw [faults, List.append_nil]
    refine ⟨fun some_fault => ⟨lexical, ?_, ?_⟩, fun none => ⟨body, rfl, ?_⟩⟩
    · rw [outcome]
      simp [some_fault]
    · exact Diagnostic.merges_lexical (scanFaults_scan text).1
    · rw [outcome]
      simp [none]

theorem isCompileTime_of_compile (refused : (s.compile source).1 = .error errors) :
    errors ≠ [] ∧ ∀ d ∈ errors, d.isCompileTime = true := by
  rw [compile_fst] at refused
  cases expanded : (s.library.process [] source).result with
  | error faults =>
    rw [parse_of_unreadable expanded] at refused
    obtain rfl := Except.error.inj refused
    exact Library.of_process_error expanded
  | ok text =>
    obtain ⟨faulty, clean⟩ := parse_of_expanded (s := s) expanded
    by_cases none : scanFaults (scan text) ++
        (ScopeScript.parse (scannedTokens (scan text)) s.nextId).faults = []
    · obtain ⟨body, -, read⟩ := clean none
      rw [read] at refused
      change (resolve body).map _ = _ at refused
      cases resolved : resolve body with
      | ok resolution =>
        rw [resolved] at refused
        cases refused
      | error faults =>
        rw [resolved] at refused
        obtain rfl := Except.error.inj refused
        obtain ⟨reported, some_fault⟩ := ((resolve_reports body).2.1 faults).mp resolved
        exact ⟨some_fault, reported.isCompileTime⟩
    · obtain ⟨merged, read, merges⟩ := faulty none
      rw [read] at refused
      obtain rfl := Except.error.inj refused
      refine ⟨fun empty => none ?_, fun d mem => ?_⟩
      · exact List.nil_perm.mp (empty ▸ merges.all)
      · rcases List.mem_append.mp (merges.all.mem_iff.mp mem) with lexical | syntactic
        · obtain ⟨_, _, rfl⟩ := (scanFaults_scan text).2 d lexical
          rfl
        · obtain ⟨_, _, rfl⟩ := isSyntactic_of_parse d syntactic
          rfl

theorem isRunTime_of_run {depth : Nat} {d : Diagnostic}
    (failed : (s.run depth source).1 = .runtimeError d) : d.IsRunTime := by
  rw [run_fst] at failed
  split at failed
  · cases failed
  next body s₁ _ =>
    cases ran : Run.program depth body s₁.machine with
    | ok _ m =>
      rw [ran] at failed
      cases failed
    | error halt m =>
      rw [ran] at failed
      cases halt with
      | fault d₁ =>
        cases failed
        exact Run.stopsLate_program depth body s₁.machine d m ran
      | exhausted | awaitingInput => cases failed

/--
What a compilation reports. The faults of the importer are reported alone. Else all faults of the
scanner and of the parser are reported, merged line by line. If there are none, the text is what the
parser read, unless the resolver reports its faults. Whatever is reported, it is something, and has
its line; and a run stops with no fault of this kind.
-/
theorem compile_reports (s : Session) (source : String) :
    (∀ errors, (s.library.process [] source).result = .error errors →
      (s.compile source).1 = .error errors) ∧
    (∀ text, (s.library.process [] source).result = .ok text →
      let lexical := scanFaults (scan text)
      let parsed := ScopeScript.parse (scannedTokens (scan text)) s.nextId
      (lexical ++ parsed.faults ≠ [] → ∃ errors, (s.compile source).1 = .error errors ∧
        Diagnostic.Merges lexical parsed.faults errors) ∧
      (lexical ++ parsed.faults = [] → ∃ body, parsed.result = .ok body ∧
        (s.compile source).1 = (resolve body).map fun _ => body)) ∧
    (∀ errors, (s.compile source).1 = .error errors →
      errors ≠ [] ∧ ∀ d ∈ errors, d.isCompileTime = true ∧ ∃ line, d.line? = some line) ∧
    ∀ depth d, (s.run depth source).1 = .runtimeError d → d.isCompileTime = false := by
  refine ⟨fun errors failed => ?_, fun text expanded => ⟨fun some_fault => ?_, fun none => ?_⟩,
    fun errors refused => ?_, fun depth d => isRunTime_of_run⟩
  · rw [compile_fst, parse_of_unreadable failed]
  · obtain ⟨errors, read, merges⟩ := (parse_of_expanded expanded).1 some_fault
    exact ⟨errors, by rw [compile_fst, read], merges⟩
  · obtain ⟨body, parsed, read⟩ := (parse_of_expanded expanded).2 none
    exact ⟨body, parsed, by rw [compile_fst, read]⟩
  · obtain ⟨some_fault, early⟩ := isCompileTime_of_compile refused
    refine ⟨some_fault, fun d mem => ⟨early d mem, ?_⟩⟩
    have known := early d mem
    cases d with
    | runtime | output => cases known
    | _ => exact ⟨_, rfl⟩

end Session

end ScopeScript
