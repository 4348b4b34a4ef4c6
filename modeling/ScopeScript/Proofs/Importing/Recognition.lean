import ScopeScript.Proofs.Importing.Lifetime

set_option autoImplicit false

namespace ScopeScript

open Replacement

-- How directives look.

/-- A directive ends in the semicolon that follows it on its line, if there is one. -/
inductive Segment.Ends : List Char → List Char → Prop
  | semicolon {gap behind : List Char} :
    (∀ c ∈ gap, isInlineGap c = true) → Ends (gap ++ [';']) behind
  | bare {behind : List Char} :
    (behind.dropWhile isInlineGap).head? ≠ some ';' → Ends [] behind

def ImportTarget.Fits (behind : List Char) : ImportTarget → Prop
  | .missing => ∀ c ∈ behind.head?, Segment.isGap c = false ∧ c ≠ '"'
  | .unclosed text => behind = [] ∧ ∃ path, text = '"' :: path ∧ '"' ∉ path
  | .file path tail => '"' ∉ path ∧ Segment.Ends tail behind

namespace Segment

theorem ends_semicolon (cs : List Char) : Ends (semicolon cs).1 (semicolon cs).2 := by
  unfold semicolon
  split
  · exact .semicolon fun _ => List.mem_takeWhile_imp
  next other =>
    refine .bare fun first => ?_
    obtain ⟨rest, same⟩ := List.head?_eq_some_iff.mp first
    exact other rest same

theorem fits_target {cs : List Char} (start : ∀ c ∈ cs.head?, isGap c = false) :
    (target cs).1.Fits (target cs).2 := by
  rcases target_cases cs with
    ⟨other, same⟩ | ⟨rest, begins, unquoted, same⟩ | ⟨path, tail, -, unquoted, same⟩
  · rw [same]
    exact fun c mem => ⟨start c mem, fun quote => other (quote ▸ mem)⟩
  · rw [same]
    exact ⟨rfl, rest, begins, unquoted⟩
  · rw [same]
    exact ⟨unquoted, ends_semicolon tail⟩

theorem first_eq_directive {c : Char} {rest head behind : List Char} {target : ImportTarget}
    (first : Segment.first c rest = (.directive head target, behind)) :
    ∃ gap, head = importWord ++ gap ∧ (∀ c ∈ gap, isGap c = true) ∧ target.Fits behind := by
  obtain ⟨-, -, same⟩ := first_directive first
  obtain ⟨made, rfl⟩ := Prod.mk.inj same
  obtain ⟨rfl, rfl⟩ := Segment.directive.inj made
  refine ⟨_, rfl, fun _ => List.mem_takeWhile_imp, fits_target fun d mem => ?_⟩
  have stop := List.head?_dropWhile_not (p := isGap) (l := (c :: rest).dropWhile isWordPart)
  rw [mem] at stop
  simpa using stop

end Segment

namespace Replacement

inductive Answers : ImportTarget → Replacement → Prop
  | malformed {target : ImportTarget} {fault : ImportFault} {line : Nat} :
    target.fault? = some fault → Answers target (.malformed (.importing line fault))
  | named {path tail : List Char} {r : Replacement} :
    r.path? = some (String.ofList path) → Answers (.file path tail) r

/-- The replacements of a text that starts at some byte, and the bytes at which directives start.
What is not part of a directive is kept. -/
inductive Covers : Nat → List Char → List Replacement → List Nat → Prop
  | nil {offset : Nat} : Covers offset [] [] []
  | kept {offset : Nat} {text behind : List Char} {rs : List Replacement} {starts : List Nat} :
    Covers (offset + byteLength text) behind rs starts →
      Covers offset (text ++ behind) (.kept text :: rs) starts
  | directive {offset : Nat} {gap behind : List Char} {target : ImportTarget} {r : Replacement}
      {rs : List Replacement} {starts : List Nat} :
    (∀ c ∈ gap, Segment.isGap c = true) → target.Fits behind → Answers target r →
      Covers (offset + byteLength (Segment.importWord ++ gap ++ target.text)) behind rs starts →
        Covers offset (Segment.importWord ++ gap ++ target.text ++ behind) (r :: rs)
          (offset :: starts)

end Replacement

namespace Library

variable {library : Library}

theorem Unfolds.covers {seen' : List String} (cs : List Char) :
    ∀ {seen : List String} {line : Nat} {rs : List Replacement},
      library.Unfolds seen line (segments cs) rs seen' → ∀ offset,
        Covers offset cs rs (starts Segment.text Segment.isDirective offset (segments cs)) := by
  fun_induction segments cs with
  | case1 =>
    intro seen line rs unfolds offset
    cases unfolds
    exact .nil
  | case2 c rest ih =>
    intro seen line rs unfolds offset
    have whole := Segment.first_append c rest
    have shape := @Segment.first_eq_directive c rest
    generalize Segment.first c rest = step at *
    obtain ⟨segment, behind⟩ := step
    rw [← whole]
    cases segment with
    | verbatim text =>
      cases unfolds with
      | kept unfolds => exact .kept (ih unfolds _)
    | directive head target =>
      obtain ⟨gap, rfl, gaps, fits⟩ := shape rfl
      cases unfolds with
      | malformed wrong unfolds => exact .directive gaps fits (.malformed wrong) (ih unfolds _)
      | repeated _ unfolds | unreadable _ _ unfolds | included _ _ _ unfolds =>
        exact .directive gaps fits (.named rfl) (ih unfolds _)

theorem Unfolds.covers_text {seen seen' : List String} {line : Nat} {text : String}
    {rs : List Replacement} (h : library.Unfolds seen line (segments text.toList) rs seen') :
    Covers 0 text.toList rs (importStarts text) :=
  starts_segments text ▸ h.covers text.toList 0

/-- The reader of imports and the scanner see a text in the same way, and so each text that is
included. Directives are replaced where tokens of the word `import` start, and nowhere else. What is
not part of one is kept as it is, once and in its order. Without such a token the text stays what it
is, and nothing is loaded. -/
theorem process_reads_tokens (library : Library) (seen : List String) (source : String) :
    scan source = (itemsAt 1 0 (pieces source.toList)).map Prod.snd ++
        [.ok ⟨.eof, "", 1 + lineBreaks source.toList⟩] ∧
      (∃ rs, library.Unfolds seen 1 (segments source.toList) rs (library.process seen source).seen ∧
        (library.process seen source).Shows rs ∧
        (library.expand library.depth source.toList ⟨seen, [], []⟩).1 = textAll rs ∧
        Covers 0 source.toList rs (importStarts source) ∧
        ∀ path inside, .included path inside ∈ trailAll rs →
          ∃ text, library.load path = .ok text ∧ Covers 0 text.toList inside (importStarts text)) ∧
      (¬MentionsImport source → library.process seen source = ⟨.ok source, [], seen⟩) := by
  obtain ⟨rs, unfolds, shows, text⟩ := library.expand_shows seen source
  refine ⟨scan_eq_itemsAt source, ⟨rs, unfolds, shows, text, unfolds.covers_text, ?_⟩,
    library.process_plain seen⟩
  intro path inside mem
  obtain ⟨text, _, _, load, unfolds'⟩ := unfolds.of_included mem
  exact ⟨text, load, unfolds'.covers_text⟩

end Library

end ScopeScript
