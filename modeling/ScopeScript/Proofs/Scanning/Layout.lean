import ScopeScript.Proofs.Scanning.Verbatim

set_option autoImplicit false

/-!
A text between its import directives.

The reader of imports and the scanner cut a text in their own ways, but both are at the same place
before each directive and behind it: a directive starts where the scanner finds the word `import`,
and nowhere else.
-/

namespace ScopeScript

namespace Segment

def prepend (text : List Char) : List Segment → List Segment
  | [] => [.verbatim text]
  | .verbatim more :: rest => .verbatim (text ++ more) :: rest
  | .directive head target :: rest => .verbatim text :: .directive head target :: rest

def merge : List Segment → List Segment
  | [] => []
  | .verbatim text :: rest => prepend text (merge rest)
  | .directive head target :: rest => .directive head target :: merge rest

theorem prepend_prepend (xs ys : List Char) (segs : List Segment) :
    prepend xs (prepend ys segs) = prepend (xs ++ ys) segs := by
  rcases segs with _ | ⟨_ | _, rest⟩ <;> simp [prepend]

theorem merge_append {segs : List Segment} (some_segment : segs ≠ [])
    (plain : ∀ segment ∈ segs, segment.isDirective = false) (rest : List Segment) :
    merge (segs ++ rest) = prepend (segs.flatMap text) (merge rest) := by
  induction segs with
  | nil => exact absurd rfl some_segment
  | cons segment segs ih =>
    obtain ⟨first, others⟩ := List.forall_mem_cons.mp plain
    cases segment with
    | directive => cases first
    | verbatim cs =>
      rw [List.cons_append, merge, List.flatMap_cons]
      by_cases last : segs = []
      · subst last
        simp [text]
      · rw [ih last others, prepend_prepend]
        rfl

end Segment

/-- A text in the parts before, between and behind its directives. -/
def layout (cs : List Char) : List Segment := Segment.merge (segments cs)

inductive Aligned : List Segment → List Piece → Prop
  | nil : Aligned [] []
  | verbatim {ps segs qs} :
    .importWord ∉ ps → Aligned segs qs →
      Aligned (.verbatim (ps.flatMap Piece.text) :: segs) (ps ++ qs)
  | directive {head target ps segs qs} :
    .importWord ∉ ps →
      (Segment.directive head target).text = Segment.importWord ++ ps.flatMap Piece.text →
        Aligned segs qs → Aligned (.directive head target :: segs) (.importWord :: ps ++ qs)

theorem Aligned.prepend {ps qs : List Piece} {segs : List Segment} (h : Aligned segs qs)
    (other : .importWord ∉ ps) :
    Aligned (Segment.prepend (ps.flatMap Piece.text) segs) (ps ++ qs) := by
  have joined {ps' : List Piece} (other' : .importWord ∉ ps') : .importWord ∉ ps ++ ps' :=
    fun mem => (List.mem_append.mp mem).elim other other'
  cases h with
  | nil => exact .verbatim other .nil
  | verbatim other' rest =>
    rw [Segment.prepend, ← List.flatMap_append, ← List.append_assoc]
    exact .verbatim (joined other') rest
  | directive other' text rest => exact .verbatim other (.directive other' text rest)

-- What the scanner finds in a directive.

def Spans (cs rest : List Char) : Prop :=
  ∃ ps, pieces (cs ++ rest) = ps ++ pieces rest ∧ .importWord ∉ ps

theorem Spans.nil (rest : List Char) : Spans [] rest := ⟨[], rfl, by simp⟩

theorem Spans.append {xs ys rest : List Char} (first : Spans xs (ys ++ rest))
    (second : Spans ys rest) : Spans (xs ++ ys) rest := by
  obtain ⟨ps, whole, other⟩ := first
  obtain ⟨qs, whole', other'⟩ := second
  refine ⟨ps ++ qs, by rw [List.append_assoc, whole, whole', List.append_assoc], fun mem => ?_⟩
  exact (List.mem_append.mp mem).elim other other'

theorem spans_of_first {cs rest tail : List Char} {c : Char} {p : Piece}
    (whole : cs ++ rest = c :: tail) (first : Piece.first c tail = (p, rest))
    (other : p ≠ .importWord) : Spans cs rest := by
  refine ⟨[p], ?_, fun mem => other (List.mem_singleton.mp mem).symm⟩
  rw [whole, pieces, first]
  rfl

theorem spans_gap {c : Char} (gap : Segment.isGap c = true) (rest : List Char) :
    Spans [c] rest := by
  simp only [Segment.isGap, Bool.or_eq_true, decide_eq_true_eq] at gap
  rcases gap with (((rfl | rfl) | rfl) | rfl) | rfl
  -- A form feed is white space to the one reader, and unexpected to the other.
  case inl.inr =>
    have first : Piece.first '\x0c' rest = (.unexpected '\x0c', rest) := by
      cases rest <;> rfl
    exact spans_of_first rfl first (by decide)
  all_goals exact spans_of_first (p := .blank _) rfl rfl (by decide)

theorem spans_gaps {cs : List Char} (gaps : ∀ c ∈ cs, Segment.isGap c = true)
    (rest : List Char) : Spans cs rest := by
  induction cs with
  | nil => exact .nil rest
  | cons c cs ih =>
    obtain ⟨first, others⟩ := List.forall_mem_cons.mp gaps
    exact (spans_gap first (cs ++ rest)).append (ih others)

theorem spans_semicolon (cs : List Char) :
    Spans (Segment.semicolon cs).1 (Segment.semicolon cs).2 := by
  have split := List.takeWhile_append_dropWhile (p := Segment.isInlineGap) (l := cs)
  have gaps : ∀ c ∈ cs.takeWhile Segment.isInlineGap, Segment.isGap c = true := by
    intro c mem
    have inline := List.mem_takeWhile_imp mem
    simp only [Segment.isInlineGap, Bool.or_eq_true, decide_eq_true_eq] at inline
    rcases inline with rfl | rfl <;> rfl
  unfold Segment.semicolon
  split
  next rest found =>
    have mark : Spans [';'] rest := by
      have first : Piece.first ';' rest = (.lexeme (.punctuator .semicolon) [';'], rest) := by
        cases rest <;> rfl
      exact spans_of_first rfl first (by decide)
    exact (spans_gaps gaps _).append mark
  · exact .nil cs

theorem string_ne_importWord (rest : List Char) : (Piece.string rest).1 ≠ .importWord := by
  unfold Piece.string
  split <;> simp [Piece.importWord]

theorem spans_string (rest : List Char) :
    Spans (Piece.string rest).1.text (Piece.string rest).2 :=
  spans_of_first (Piece.string_append rest) rfl (string_ne_importWord rest)

theorem spans_target (cs : List Char) :
    Spans (Segment.target cs).1.text (Segment.target cs).2 := by
  unfold Segment.target
  split
  next rest =>
    have string := spans_string rest
    have split := List.takeWhile_append_dropWhile (p := (· != '"')) (l := rest)
    unfold Piece.string at string
    cases tail : rest.dropWhile (· != '"') with
    | nil =>
      rw [tail] at string
      rw [tail, List.append_nil] at split
      rwa [split] at string
    | cons quote after =>
      rw [tail] at string
      obtain rfl := Piece.eq_quote_of_dropWhile tail
      have path : Spans ('"' :: rest.takeWhile (· != '"') ++ ['"'])
          ((Segment.semicolon after).1 ++ (Segment.semicolon after).2) := by
        rw [Segment.semicolon_append]
        exact string
      have both := path.append (spans_semicolon after)
      rwa [List.append_assoc] at both
  · exact .nil cs

theorem first_of_importWord {c : Char} {rest : List Char}
    (word : (Piece.first c rest).1 = .importWord) :
    Segment.first c rest = Segment.directiveAfter Segment.importWord (Piece.first c rest).2 := by
  have whole := Piece.first_append c rest
  rw [word] at whole
  obtain ⟨rfl, -⟩ := List.cons.inj whole
  have taken : Piece.first 'i' rest = Piece.word ('i' :: rest) := rfl
  rw [taken] at word ⊢
  have same : ('i' :: rest).takeWhile isWordPart = Segment.importWord := by
    have text := congrArg Piece.text word
    exact text
  rw [Segment.first_word _ (by decide), if_pos same, same]
  rfl

theorem spans_directive (word cs : List Char) :
    ∃ ps, pieces cs = ps ++ pieces (Segment.directiveAfter word cs).2 ∧ .importWord ∉ ps ∧
      (Segment.directiveAfter word cs).1.text = word ++ ps.flatMap Piece.text := by
  have split := Segment.directiveAfter_append word cs
  have gaps : Spans (cs.takeWhile Segment.isGap) (cs.dropWhile Segment.isGap) :=
    spans_gaps (fun _ => List.mem_takeWhile_imp) _
  have target := spans_target (cs.dropWhile Segment.isGap)
  rw [← Segment.target_append (cs.dropWhile Segment.isGap)] at gaps
  obtain ⟨ps, whole, other⟩ := gaps.append target
  rw [List.append_assoc, Segment.target_append, List.takeWhile_append_dropWhile] at whole
  refine ⟨ps, whole, other, ?_⟩
  have texts := congrArg (List.flatMap Piece.text) whole
  rw [List.flatMap_append, flatMap_text_pieces, flatMap_text_pieces] at texts
  have same : (Segment.directiveAfter word cs).1.text ++ (Segment.directiveAfter word cs).2 =
      word ++ ps.flatMap Piece.text ++ (Segment.directiveAfter word cs).2 := by
    rw [split, List.append_assoc]
    exact congrArg _ texts
  exact List.append_cancel_right same

theorem aligned (cs : List Char) : Aligned (layout cs) (pieces cs) := by
  -- Both readers take a directive as a whole, or a piece, and are at the same place behind it.
  induction size : cs.length using Nat.strong_induction_on generalizing cs with
  | _ n ih =>
  cases cs with
  | nil =>
    rw [layout, segments, pieces]
    exact .nil
  | cons c rest =>
    subst size
    rw [pieces]
    by_cases word : (Piece.first c rest).1 = .importWord
    · have directive := first_of_importWord word
      obtain ⟨ps, whole, other, text⟩ :=
        spans_directive Segment.importWord (Piece.first c rest).2
      have later := ih _ (Segment.length_first_lt c rest) _ rfl
      rw [directive] at later
      rw [layout, segments, directive, word, whole]
      exact .directive other text later
    · obtain ⟨segs, whole, plain⟩ := passes_first word
      have later := ih _ (Piece.length_first_lt c rest) _ rfl
      have texts := congrArg (List.flatMap Segment.text) whole
      rw [List.flatMap_append, flatMap_text_segments, flatMap_text_segments] at texts
      have text := List.append_cancel_right texts
      rw [Piece.first_append] at whole
      have some_segment : segs ≠ [] := by
        rintro rfl
        exact Piece.text_first_ne_nil c rest text
      rw [layout, whole, Segment.merge_append some_segment plain, ← text]
      have plain_piece : Piece.importWord ∉ [(Piece.first c rest).1] := by simpa using Ne.symm word
      have both := later.prepend plain_piece
      rwa [List.flatMap_singleton] at both

-- Where the parts of a text start.

def byteLength : List Char → Nat
  | [] => 0
  | c :: cs => c.utf8Size + byteLength cs

theorem byteLength_append (xs ys : List Char) :
    byteLength (xs ++ ys) = byteLength xs + byteLength ys := by
  induction xs with
  | nil => rw [List.nil_append, byteLength, Nat.zero_add]
  | cons c xs ih => rw [List.cons_append, byteLength, byteLength, ih, Nat.add_assoc]

section

variable {α : Type} (text : α → List Char) (wanted : α → Bool)

def starts (offset : Nat) : List α → List Nat
  | [] => []
  | part :: rest =>
    let others := starts (offset + byteLength (text part)) rest
    if wanted part then offset :: others else others

theorem starts_append (offset : Nat) (xs ys : List α) :
    starts text wanted offset (xs ++ ys) =
      starts text wanted offset xs ++
        starts text wanted (offset + byteLength (xs.flatMap text)) ys := by
  induction xs generalizing offset with
  | nil => rfl
  | cons x xs ih =>
    have next : offset + byteLength ((x :: xs).flatMap text) =
        offset + byteLength (text x) + byteLength (xs.flatMap text) := by
      rw [List.flatMap_cons, byteLength_append, Nat.add_assoc]
    rw [List.cons_append, starts, starts, next, ih]
    split <;> rfl

theorem starts_eq_nil {parts : List α} (none : ∀ part ∈ parts, wanted part = false) (offset : Nat) :
    starts text wanted offset parts = [] := by
  induction parts generalizing offset with
  | nil => rfl
  | cons part rest ih =>
    obtain ⟨first, others⟩ := List.forall_mem_cons.mp none
    simp [starts, first, ih others]

end

theorem starts_prepend (cs : List Char) (segs : List Segment) (offset : Nat) :
    starts Segment.text Segment.isDirective offset (Segment.prepend cs segs) =
      starts Segment.text Segment.isDirective (offset + byteLength cs) segs := by
  rcases segs with _ | ⟨_ | _, rest⟩ <;>
    simp [Segment.prepend, starts, Segment.text, Segment.isDirective, byteLength_append,
      Nat.add_assoc]

theorem starts_merge (segs : List Segment) (offset : Nat) :
    starts Segment.text Segment.isDirective offset (Segment.merge segs) =
      starts Segment.text Segment.isDirective offset segs := by
  induction segs generalizing offset with
  | nil => rfl
  | cons segment rest ih =>
    cases segment with
    | verbatim cs =>
      rw [Segment.merge, starts_prepend, ih]
      rfl
    | directive head target => simp only [Segment.merge, starts, ih]

def Piece.isImportWord (p : Piece) : Bool := decide (p = .importWord)

theorem Aligned.starts_eq {segs : List Segment} {ps : List Piece} (h : Aligned segs ps)
    (offset : Nat) :
    starts Segment.text Segment.isDirective offset segs =
      starts Piece.text Piece.isImportWord offset ps := by
  have plain {ps : List Piece} (other : .importWord ∉ ps) :
      ∀ p ∈ ps, p.isImportWord = false := by
    intro p mem
    exact decide_eq_false fun same => other (same ▸ mem)
  induction h generalizing offset with
  | nil => rfl
  | @verbatim ps segs qs other _ ih =>
    rw [starts_append, starts_eq_nil _ _ (plain other), List.nil_append, starts, ih]
    rfl
  | @directive head target ps segs qs other text _ ih =>
    have next : offset + byteLength (Segment.directive head target).text =
        offset + byteLength Segment.importWord + byteLength (ps.flatMap Piece.text) := by
      rw [text, byteLength_append, Nat.add_assoc]
    have word : Piece.isImportWord .importWord = true := decide_eq_true rfl
    rw [List.cons_append, starts, starts, next, ih, starts_append, starts_eq_nil _ _ (plain other),
      word]
    rfl

def itemsAt (line offset : Nat) : List Piece → List (Nat × ScanItem)
  | [] => []
  | p :: rest =>
    let next := line + lineBreaks p.text
    ((p.item? next).map fun item => (offset, item)).toList ++
      itemsAt next (offset + byteLength p.text) rest

theorem map_snd_itemsAt (line offset : Nat) (ps : List Piece) :
    (itemsAt line offset ps).map Prod.snd = itemsOf line ps := by
  induction ps generalizing line offset with
  | nil => rfl
  | cons p rest ih => cases p <;> simp [itemsAt, itemsOf, Piece.item?, ih]

def ScanItem.isImport : ScanItem → Bool
  | .ok t => decide (t.kind = .identifier ∧ t.lexeme = "import")
  | .error _ => false

theorem starts_pieces (line offset : Nat) (ps : List Piece) :
    starts Piece.text Piece.isImportWord offset ps =
      ((itemsAt line offset ps).filter fun item => item.2.isImport).map Prod.fst := by
  induction ps generalizing line offset with
  | nil => rfl
  | cons p rest ih =>
    have others := ih (line + lineBreaks p.text) (offset + byteLength p.text)
    rw [starts, itemsAt, List.filter_append, List.map_append, ← others]
    cases p with
    | lexeme kind text =>
      have word : "import" = String.ofList Segment.importWord := by decide
      by_cases same : kind = .identifier ∧ String.ofList text = "import"
      · obtain ⟨rfl, spelled⟩ := same
        obtain rfl := String.ofList_injective (spelled.trans word)
        rfl
      · have other : Piece.isImportWord (.lexeme kind text) = false := by
          refine decide_eq_false fun found => same ?_
          obtain ⟨rfl, rfl⟩ := Piece.lexeme.inj found
          exact ⟨rfl, word.symm⟩
        simp [other, Piece.item?, ScanItem.isImport, same]
    | _ => rfl

def importStarts (source : String) : List Nat :=
  ((itemsAt 1 0 (pieces source.toList)).filter fun item => item.2.isImport).map Prod.fst

theorem starts_segments (source : String) :
    starts Segment.text Segment.isDirective 0 (segments source.toList) = importStarts source := by
  rw [importStarts, ← starts_pieces, ← (aligned source.toList).starts_eq, layout, starts_merge]

theorem scan_eq_itemsAt (source : String) :
    scan source = (itemsAt 1 0 (pieces source.toList)).map Prod.snd ++
      [.ok ⟨.eof, "", 1 + lineBreaks source.toList⟩] := by
  rw [map_snd_itemsAt, scan, scanPieces_eq, flatMap_text_pieces]

end ScopeScript
