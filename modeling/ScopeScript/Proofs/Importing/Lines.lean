import ScopeScript.Proofs.Importing.Recognition
import ScopeScript.Proofs.Scanning.Lines

set_option autoImplicit false

namespace ScopeScript

open Replacement

/-- What is wrong with the directive that stands behind `front` in this text. -/
inductive Library.FaultAt (library : Library) (text front : List Char) : Diagnostic → Prop
  | missing {gap behind} :
    text = front ++ Segment.importWord ++ gap ++ behind → (∀ c ∈ gap, Segment.isGap c = true) →
      (∀ c ∈ behind.head?, Segment.isGap c = false ∧ c ≠ '"') →
        FaultAt library text front
          (.importing (1 + lineBreaks (front ++ Segment.importWord ++ gap)) .missingPath)
  | unterminated {gap path} :
    text = front ++ Segment.importWord ++ gap ++ '"' :: path →
      (∀ c ∈ gap, Segment.isGap c = true) → '"' ∉ path →
        FaultAt library text front
          (.importing (1 + lineBreaks (front ++ Segment.importWord ++ gap)) .unterminatedPath)
  | unreadable {gap path behind reason} :
    text = front ++ Segment.importWord ++ gap ++ ('"' :: path ++ ['"']) ++ behind →
      (∀ c ∈ gap, Segment.isGap c = true) → '"' ∉ path →
        library.load (String.ofList path) = .error reason →
          FaultAt library text front
            (.importing
              (1 + lineBreaks (front ++ Segment.importWord ++ gap ++ ('"' :: path ++ ['"'])))
              (.unreadable (String.ofList path) reason))

namespace Replacement

variable {d : Diagnostic}

mutual

theorem mem_faults_trail : ∀ r : Replacement, d ∈ r.trail.filterMap fault? ↔ r.fault? = some d ∨
    ∃ path inside, .included path inside ∈ r.trail ∧ d ∈ inside.filterMap fault?
  | kept _ | malformed _ | repeated _ | unreadable .. => by simp [trail, fault?, eq_comm]
  | included path inside => by
    have inner := mem_faults_iff inside
    simp only [trail, List.filterMap_cons, fault?, List.mem_cons, included.injEq]
    rw [← faults, inner]
    constructor
    · rintro (here | ⟨path', inside', mem, found⟩)
      · exact .inr ⟨path, inside, .inl ⟨rfl, rfl⟩, here⟩
      · exact .inr ⟨path', inside', .inr mem, found⟩
    · rintro (none | ⟨path', inside', ⟨rfl, rfl⟩ | mem, found⟩)
      · cases none
      · exact .inl found
      · exact .inr ⟨path', inside', mem, found⟩

theorem mem_faults_iff : ∀ rs : List Replacement, d ∈ faults rs ↔ d ∈ rs.filterMap fault? ∨
    ∃ path inside, .included path inside ∈ trailAll rs ∧ d ∈ inside.filterMap fault?
  | [] => by simp [faults, trailAll]
  | r :: rest => by
    have first := mem_faults_trail r
    have others := mem_faults_iff rest
    rw [faults_cons, List.mem_append, first, others]
    simp only [trailAll, List.mem_append, List.mem_filterMap, List.mem_cons]
    constructor
    · rintro ((here | ⟨path, inside, mem, found⟩) | ⟨r', mem, here⟩ | ⟨path, inside, mem, found⟩)
      · exact .inl ⟨r, .inl rfl, here⟩
      · exact .inr ⟨path, inside, .inl mem, found⟩
      · exact .inl ⟨r', .inr mem, here⟩
      · exact .inr ⟨path, inside, .inr mem, found⟩
    · rintro (⟨r', rfl | mem, here⟩ | ⟨path, inside, mem | mem, found⟩)
      · exact .inl (.inl here)
      · exact .inr (.inl ⟨r', mem, here⟩)
      · exact .inl (.inr ⟨path, inside, mem, found⟩)
      · exact .inr (.inr ⟨path, inside, mem, found⟩)

end

end Replacement

def Library.Locates (library : Library) (text : List Char) (rs : List Replacement) : Prop :=
  ∀ (i : Nat) (d : Diagnostic), rs[i]?.bind fault? = some d →
    library.FaultAt text (((segments text).take i).flatMap Segment.text) d

namespace Library

variable {library : Library}

theorem FaultAt.of_malformed {front gap behind : List Char} {target : ImportTarget}
    {fault : ImportFault} (gaps : ∀ c ∈ gap, Segment.isGap c = true) (fits : target.Fits behind)
    (wrong : target.fault? = some fault) :
    library.FaultAt
      (front ++ ((Segment.directive (Segment.importWord ++ gap) target).text ++ behind)) front
      (.importing (1 + lineBreaks front + lineBreaks (Segment.importWord ++ gap)) fault) := by
  have line : 1 + lineBreaks front + lineBreaks (Segment.importWord ++ gap) =
      1 + lineBreaks (front ++ Segment.importWord ++ gap) := by
    simp only [lineBreaks_append, Nat.add_assoc]
  rw [line]
  cases target with
  | missing =>
    obtain rfl := Option.some.inj wrong
    refine .missing ?_ gaps fits
    simp [Segment.text, ImportTarget.text]
  | unclosed =>
    obtain rfl := Option.some.inj wrong
    obtain ⟨rfl, path, rfl, open'⟩ := fits
    refine .unterminated ?_ gaps open'
    simp [Segment.text, ImportTarget.text]
  | file => cases wrong

theorem FaultAt.of_path {front gap path tail behind : List Char} {reason : String}
    (gaps : ∀ c ∈ gap, Segment.isGap c = true)
    (fits : (ImportTarget.file path tail).Fits behind)
    (load : library.load (String.ofList path) = .error reason) :
    library.FaultAt
      (front ++ ((Segment.directive (Segment.importWord ++ gap) (.file path tail)).text ++ behind))
      front
      (.importing (1 + lineBreaks front + lineBreaks (Segment.importWord ++ gap) + lineBreaks path)
        (.unreadable (String.ofList path) reason)) := by
  have line : 1 + lineBreaks front + lineBreaks (Segment.importWord ++ gap) + lineBreaks path =
      1 + lineBreaks (front ++ Segment.importWord ++ gap ++ ('"' :: path ++ ['"'])) := by
    have quoted : lineBreaks ('"' :: path ++ ['"']) = lineBreaks path := by
      simp [lineBreaks]
    simp only [lineBreaks_append, quoted, Nat.add_assoc]
  rw [line]
  have whole : front ++
      ((Segment.directive (Segment.importWord ++ gap) (.file path tail)).text ++ behind) =
        front ++ Segment.importWord ++ gap ++ ('"' :: path ++ ['"']) ++ (tail ++ behind) := by
    simp [Segment.text, ImportTarget.text]
  exact .unreadable whole gaps fits.1 load

theorem Unfolds.faultAt {seen' : List String} (cs : List Char) :
    ∀ {front : List Char} {rs : List Replacement} {seen : List String},
      library.Unfolds seen (1 + lineBreaks front) (segments cs) rs seen' →
        ∀ (i : Nat) (d : Diagnostic), rs[i]?.bind fault? = some d →
          library.FaultAt (front ++ cs)
            (front ++ ((segments cs).take i).flatMap Segment.text) d := by
  fun_induction segments cs with
  | case1 =>
    intro front rs seen unfolds i d found
    cases unfolds
    cases found
  | case2 c rest ih =>
    intro front rs seen unfolds i d found
    have whole := Segment.first_append c rest
    have shape := @Segment.first_eq_directive c rest
    generalize Segment.first c rest = step at *
    obtain ⟨segment, behind⟩ := step
    have line : 1 + lineBreaks front + lineBreaks segment.text =
        1 + lineBreaks (front ++ segment.text) := by
      rw [lineBreaks_append, Nat.add_assoc]
    -- Behind the directive, its text is one more part of what stands before.
    have later {rs : List Replacement} {seen : List String}
        (unfolds : library.Unfolds seen (1 + lineBreaks front + lineBreaks segment.text)
          (segments behind) rs seen') (i : Nat) (found : rs[i]?.bind fault? = some d) :
        library.FaultAt (front ++ c :: rest)
          (front ++ ((segment :: segments behind).take (i + 1)).flatMap Segment.text) d := by
      have inside := ih (line ▸ unfolds) i d found
      rw [← whole]
      simpa only [List.append_assoc, List.take_succ_cons, List.flatMap_cons] using inside
    have here (same : i = 0) :
        (front ++ ((segment :: segments behind).take i).flatMap Segment.text) = front := by
      rw [same]
      exact List.append_nil front
    cases unfolds with
    | kept unfolds | repeated _ unfolds | included _ _ _ unfolds =>
      cases i with
      | zero => cases found
      | succ i => exact later unfolds i found
    | @malformed _ _ head target fault _ _ _ wrong unfolds =>
      cases i with
      | succ i => exact later unfolds i found
      | zero =>
        obtain ⟨gap, rfl, gaps, fits⟩ := shape rfl
        obtain rfl := Option.some.inj found
        rw [here rfl, ← whole]
        exact .of_malformed gaps fits wrong
    | unreadable _ load unfolds =>
      cases i with
      | succ i => exact later unfolds i found
      | zero =>
        obtain ⟨gap, rfl, gaps, fits⟩ := shape rfl
        obtain rfl := Option.some.inj found
        rw [here rfl, ← whole]
        exact .of_path gaps fits load

theorem Unfolds.locates {seen seen' : List String} {text : String} {rs : List Replacement}
    (h : library.Unfolds seen 1 (segments text.toList) rs seen') : library.Locates text.toList rs :=
  @Unfolds.faultAt library seen' text.toList [] rs seen h

/--
The lines of tokens and of faults count the line breaks before them. The items of the scanner have
the lines that counting gives, and the end of the text has the last one. The faults of an expansion
are those of the directives in the text and in the texts that are included, and each has the line of
its own text at which it is found.
-/
theorem lines_exact (library : Library) (seen : List String) (source : String) :
    (scan source = (itemsAt 1 0 (pieces source.toList)).map Prod.snd ++
        [.ok ⟨.eof, "", 1 + lineBreaks source.toList⟩] ∧
      ∀ entry ∈ itemsAt 1 0 (pieces source.toList), Counted source.toList entry.1 entry.2) ∧
    ∃ rs, library.Unfolds seen 1 (segments source.toList) rs (library.process seen source).seen ∧
      (library.process seen source).Shows rs ∧
      library.Locates source.toList rs ∧
      (∀ path inside, .included path inside ∈ trailAll rs →
        ∃ text, library.load path = .ok text ∧ library.Locates text.toList inside) ∧
      ∀ d, d ∈ faults rs ↔ d ∈ rs.filterMap fault? ∨
        ∃ path inside, .included path inside ∈ trailAll rs ∧ d ∈ inside.filterMap fault? := by
  obtain ⟨rs, unfolds, shows⟩ := library.process_shows seen source
  refine ⟨⟨scan_eq_itemsAt source, counted_itemsAt (Lexicon.cut_iff.mpr rfl) []⟩, rs, unfolds,
    shows, unfolds.locates, fun path inside mem => ?_, fun _ => mem_faults_iff rs⟩
  obtain ⟨text, _, _, load, unfolds'⟩ := unfolds.of_included mem
  exact ⟨text, load, unfolds'.locates⟩

example : (Library.process (.ofFiles [("a", "/*\n*/import x")] "") []
    "\"\n\"import \"a\";\nimport").result =
      .error [.importing 2 .missingPath, .importing 3 .missingPath] := by
  decide +kernel

end Library

end ScopeScript
