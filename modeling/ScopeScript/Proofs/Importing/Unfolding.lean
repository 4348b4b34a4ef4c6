import ScopeScript.Proofs.Scanning.Inclusion

set_option autoImplicit false

namespace ScopeScript

/-- What stands in place of a segment. -/
inductive Replacement where
  | kept (text : List Char)
  | malformed (fault : Diagnostic)
  | repeated (path : String)
  | unreadable (path : String) (fault : Diagnostic)
  | included (path : String) (inside : List Replacement)

namespace Replacement

mutual

def text : Replacement → List Char
  | kept text => text
  | malformed _ | repeated _ | unreadable .. => []
  | included _ inside => textAll inside

def textAll : List Replacement → List Char
  | [] => []
  | r :: rest => r.text ++ textAll rest

end

mutual

def trail : Replacement → List Replacement
  | kept text => [.kept text]
  | malformed fault => [.malformed fault]
  | repeated path => [.repeated path]
  | unreadable path fault => [.unreadable path fault]
  | included path inside => .included path inside :: trailAll inside

def trailAll : List Replacement → List Replacement
  | [] => []
  | r :: rest => r.trail ++ trailAll rest

end

def path? : Replacement → Option String
  | repeated path | unreadable path _ | included path _ => some path
  | kept _ | malformed _ => none

def load? : Replacement → Option String
  | unreadable path _ | included path _ => some path
  | kept _ | malformed _ | repeated _ => none

def fault? : Replacement → Option Diagnostic
  | malformed fault | unreadable _ fault => some fault
  | kept _ | repeated _ | included .. => none

def paths (rs : List Replacement) : List String := (trailAll rs).filterMap path?

def loads (rs : List Replacement) : List String := (trailAll rs).filterMap load?

def faults (rs : List Replacement) : List Diagnostic := (trailAll rs).filterMap fault?

variable (r : Replacement) (rs : List Replacement)

theorem paths_cons : paths (r :: rs) = r.trail.filterMap path? ++ paths rs := by
  rw [paths, trailAll, List.filterMap_append, paths]

theorem loads_cons : loads (r :: rs) = r.trail.filterMap load? ++ loads rs := by
  rw [loads, trailAll, List.filterMap_append, loads]

theorem faults_cons : faults (r :: rs) = r.trail.filterMap fault? ++ faults rs := by
  rw [faults, trailAll, List.filterMap_append, faults]

variable {r rs}

mutual

theorem trailAll_subset {path : String} {inside : List Replacement} :
    ∀ {r : Replacement}, .included path inside ∈ r.trail → trailAll inside ⊆ r.trail
  | .kept _, mem | .malformed _, mem | .repeated _, mem | .unreadable .., mem => by
    cases List.mem_singleton.mp mem
  | .included _ _, mem => by
    rcases List.mem_cons.mp mem with same | mem
    · cases same
      exact List.subset_cons_self _ _
    · exact List.Subset.trans (trailAll_subset_all mem) (List.subset_cons_self _ _)

theorem trailAll_subset_all {path : String} {inside : List Replacement} :
    ∀ {rs : List Replacement}, .included path inside ∈ trailAll rs →
      trailAll inside ⊆ trailAll rs
  | [], mem => by cases mem
  | _ :: _, mem => by
    rcases List.mem_append.mp mem with mem | mem
    · exact List.Subset.trans (trailAll_subset mem) (List.subset_append_left _ _)
    · exact List.Subset.trans (trailAll_subset_all mem) (List.subset_append_right _ _)

end

end Replacement

open Replacement

def ImportTarget.fault? : ImportTarget → Option ImportFault
  | .missing => some .missingPath
  | .unclosed _ => some .unterminatedPath
  | .file .. => none

namespace Library

variable (library : Library)

/--
The replacements of some segments, the first of which starts on this line. The lists of paths are
those that were imported before and those that were imported after.
-/
inductive Unfolds : List String → Nat → List Segment → List Replacement → List String → Prop
  | nil {seen line} : Unfolds seen line [] [] seen
  | kept {seen line text segs rs seen'} :
    Unfolds seen (line + lineBreaks text) segs rs seen' →
      Unfolds seen line (.verbatim text :: segs) (.kept text :: rs) seen'
  | malformed {seen line head target fault segs rs seen'} :
    target.fault? = some fault →
      Unfolds seen (line + lineBreaks (head ++ target.text)) segs rs seen' →
        Unfolds seen line (.directive head target :: segs)
          (.malformed (.importing (line + lineBreaks head) fault) :: rs) seen'
  | repeated {seen line head path tail segs rs seen'} :
    String.ofList path ∈ seen →
      Unfolds seen (line + lineBreaks (head ++ (ImportTarget.file path tail).text)) segs rs seen' →
        Unfolds seen line (.directive head (.file path tail) :: segs)
          (.repeated (String.ofList path) :: rs) seen'
  | unreadable {seen line head path tail reason segs rs seen'} :
    String.ofList path ∉ seen → library.load (String.ofList path) = .error reason →
      Unfolds (seen ++ [String.ofList path])
          (line + lineBreaks (head ++ (ImportTarget.file path tail).text)) segs rs seen' →
        Unfolds seen line (.directive head (.file path tail) :: segs)
          (.unreadable (String.ofList path) (.importing (line + lineBreaks head + lineBreaks path)
            (.unreadable (String.ofList path) reason)) :: rs) seen'
  | included {seen line head path tail text inside between segs rs seen'} :
    String.ofList path ∉ seen → library.load (String.ofList path) = .ok text →
      Unfolds (seen ++ [String.ofList path]) 1 (segments text.toList) inside between →
        Unfolds between (line + lineBreaks (head ++ (ImportTarget.file path tail).text)) segs rs
            seen' →
          Unfolds seen line (.directive head (.file path tail) :: segs)
            (.included (String.ofList path) inside :: rs) seen'

variable {library}

theorem Unfolds.unique {seen seen' : List String} {line : Nat} {segs : List Segment}
    {rs : List Replacement} (h : library.Unfolds seen line segs rs seen') :
    ∀ {rs' : List Replacement} {seen'' : List String}, library.Unfolds seen line segs rs' seen'' →
      rs' = rs ∧ seen'' = seen' := by
  induction h with
  | nil =>
    intro _ _ other
    cases other
    exact ⟨rfl, rfl⟩
  | kept _ ih =>
    intro _ _ other
    cases other with
    | kept rest =>
    obtain ⟨rfl, rfl⟩ := ih rest
    exact ⟨rfl, rfl⟩
  | malformed fault _ ih =>
    intro _ _ other
    cases other with
    | malformed fault' rest =>
      obtain rfl := Option.some.inj (fault.symm.trans fault')
      obtain ⟨rfl, rfl⟩ := ih rest
      exact ⟨rfl, rfl⟩
    | repeated | unreadable | included => cases fault
  | repeated old _ ih =>
    intro _ _ other
    cases other with
    | malformed fault' => cases fault'
    | repeated _ rest =>
      obtain ⟨rfl, rfl⟩ := ih rest
      exact ⟨rfl, rfl⟩
    | unreadable new | included new => exact absurd old new
  | unreadable new load _ ih =>
    intro _ _ other
    cases other with
    | malformed fault' => cases fault'
    | repeated old => exact absurd old new
    | unreadable _ load' rest =>
      obtain rfl := Except.error.inj (load.symm.trans load')
      obtain ⟨rfl, rfl⟩ := ih rest
      exact ⟨rfl, rfl⟩
    | included _ load' => cases load.symm.trans load'
  | included new load _ _ inner ih =>
    intro _ _ other
    cases other with
    | malformed fault' => cases fault'
    | repeated old => exact absurd old new
    | unreadable _ load' => cases load.symm.trans load'
    | included _ load' inside rest =>
      obtain rfl := Except.ok.inj (load.symm.trans load')
      obtain ⟨rfl, rfl⟩ := inner inside
      obtain ⟨rfl, rfl⟩ := ih rest
      exact ⟨rfl, rfl⟩

theorem Unfolds.seen_eq {seen seen' : List String} {line : Nat} {segs : List Segment}
    {rs : List Replacement} (h : library.Unfolds seen line segs rs seen') :
    seen' = seen ++ loads rs := by
  induction h with
  | @nil seen => exact (List.append_nil seen).symm
  | kept _ ih | malformed _ _ ih | repeated _ _ ih => exact ih
  | unreadable _ _ _ ih => exact ih.trans (List.append_assoc ..)
  | @included seen _ _ path _ _ inside _ _ rs _ _ _ _ _ inner ih =>
    rw [ih, inner, loads_cons, List.append_assoc, List.append_assoc]
    rfl

theorem Unfolds.named {seen seen' : List String} {line : Nat} {segs : List Segment}
    {rs : List Replacement} (h : library.Unfolds seen line segs rs seen') :
    segs.filterMap Segment.path? ⊆ paths rs := by
  induction h with
  | nil => exact List.Subset.refl _
  | kept _ ih => exact ih
  | @malformed _ _ _ target _ _ _ _ fault _ ih =>
    cases target with
    | missing | unclosed => exact ih
    | file => cases fault
  | repeated _ _ ih | unreadable _ _ _ ih => exact List.cons_subset_cons _ ih
  | included _ _ _ _ _ ih =>
    rw [paths_cons]
    exact List.cons_subset_cons _ (List.Subset.trans ih (List.subset_append_right _ _))

variable (library)

def Performs (line : Nat) (segs : List Segment) (s : ImportState)
    (result : List Char × ImportState) : Prop :=
  ∃ rs, library.Unfolds s.seen line segs rs result.2.seen ∧ result.1 = textAll rs ∧
    result.2.loads = s.loads ++ loads rs ∧ result.2.faults = s.faults ++ faults rs

variable {library}

theorem Performs.nil (line : Nat) (s : ImportState) : library.Performs line [] s ([], s) :=
  ⟨[], .nil, rfl, (List.append_nil s.loads).symm, (List.append_nil s.faults).symm⟩

theorem Performs.directive {expand : Expander} {line : Nat} {head : List Char}
    {target : ImportTarget} {segs : List Segment} {s : ImportState}
    {result : List Char × ImportState}
    (deep : ∀ path ∈ (Segment.directive head target).path?, path ∉ s.seen →
      ∀ text, library.load path = .ok text →
        ∀ s' : ImportState, s.seen ⊆ s'.seen → path ∈ s'.seen →
          library.Performs 1 (segments text.toList) s' (expand text.toList s'))
    (h : library.Performs (line + lineBreaks (head ++ target.text)) segs
      (library.splice expand line head target s).2 result) :
    library.Performs line (.directive head target :: segs) s
      ((library.splice expand line head target s).1 ++ result.1, result.2) := by
  obtain ⟨rs, unfolds, text, loads, faults⟩ := h
  cases target with
  | missing | unclosed =>
    refine ⟨_, .malformed rfl unfolds, text, loads, ?_⟩
    rw [faults, faults_cons]
    exact List.append_assoc ..
  | file path tail =>
    unfold splice fetch at unfolds loads faults ⊢
    by_cases old : String.ofList path ∈ s.seen
    · simp only [if_pos old] at unfolds loads faults ⊢
      exact ⟨_, .repeated old unfolds, text, loads, faults⟩
    simp only [if_neg old] at unfolds loads faults ⊢
    cases load : library.load (String.ofList path) with
    | error reason =>
      simp only [load] at unfolds loads faults
      refine ⟨_, .unreadable old load unfolds, text, ?_, ?_⟩
      · rw [loads, loads_cons]
        exact List.append_assoc ..
      · rw [faults, faults_cons]
        exact List.append_assoc ..
    | ok file =>
      simp only [load] at unfolds loads faults
      obtain ⟨inside, unfolds', text', loads', faults'⟩ := deep _ rfl old file load
        { s with seen := s.seen ++ [String.ofList path], loads := s.loads ++ [String.ofList path] }
        (List.subset_append_left _ _) (List.mem_append_right _ List.mem_cons_self)
      refine ⟨_, .included old load unfolds' unfolds, ?_, ?_, ?_⟩
      · rw [text, text']
        rfl
      · rw [loads, loads', loads_cons, List.append_assoc, List.append_assoc]
        rfl
      · rw [faults, faults', faults_cons, List.append_assoc]
        rfl

theorem performs_spliceAll {expand : Expander} {segs : List Segment} (line : Nat) {s : ImportState}
    (deep : ∀ path ∈ segs.filterMap Segment.path?, path ∉ s.seen →
      ∀ text, library.load path = .ok text →
        ∀ s' : ImportState, s.seen ⊆ s'.seen → path ∈ s'.seen →
          library.Performs 1 (segments text.toList) s' (expand text.toList s')) :
    library.Performs line segs s (library.spliceAll expand line segs s) := by
  induction segs generalizing line s with
  | nil => exact .nil line s
  | cons segment rest ih =>
    cases segment with
    | verbatim text =>
      obtain ⟨rs, unfolds, whole, loads, faults⟩ := ih (line + lineBreaks text) deep
      exact ⟨_, .kept unfolds, congrArg (text ++ ·) whole, loads, faults⟩
    | directive head target =>
      have first := fun path named =>
        deep path (List.mem_filterMap.mpr
          ⟨Segment.directive head target, List.mem_cons_self, named⟩)
      have grows : s.seen ⊆ (library.splice expand line head target s).2.seen := by
        obtain ⟨rs, unfolds, -⟩ := Performs.directive first (.nil _ _)
        exact unfolds.seen_eq ▸ List.subset_append_left _ _
      refine Performs.directive first (ih _ fun path named new text load s' later => ?_)
      obtain ⟨segment, mem, found⟩ := List.mem_filterMap.mp named
      exact deep path (List.mem_filterMap.mpr ⟨segment, List.mem_cons_of_mem _ mem, found⟩)
        (fun old => new (grows old)) text load s' (List.Subset.trans grows later)

theorem performs_expand {depth : Nat} (enough : library.depth ≤ depth) (cs : List Char)
    (s : ImportState) : library.Performs 1 (segments cs) s (library.expand depth cs s) :=
  expand_induction (motive := fun cs s result => library.Performs 1 (segments cs) s result)
    (fun _ _ _ deep => performs_spliceAll 1 deep) enough cs s

theorem Performs.unique {line : Nat} {segs : List Segment} {s : ImportState}
    {result result' : List Char × ImportState} (h : library.Performs line segs s result)
    (h' : library.Performs line segs s result') : result' = result := by
  obtain ⟨rs, unfolds, text, loads, faults⟩ := h
  obtain ⟨rs', unfolds', text', loads', faults'⟩ := h'
  obtain ⟨rfl, same⟩ := unfolds.unique unfolds'
  obtain ⟨cs, seen, _, _⟩ := result
  obtain ⟨cs', seen', _, _⟩ := result'
  dsimp only at text loads faults text' loads' faults' same
  rw [text, loads, faults, text', loads', faults', same]

theorem expand_enough {depth : Nat} (enough : library.depth ≤ depth) (cs : List Char)
    (s : ImportState) : library.expand depth cs s = library.expand library.depth cs s :=
  (performs_expand (Nat.le_refl _) cs s).unique (performs_expand enough cs s)

end Library

end ScopeScript
