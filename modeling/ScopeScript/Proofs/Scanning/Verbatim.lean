import Mathlib.Data.List.TakeWhile
import ScopeScript.Import.Expansion
import ScopeScript.Proofs.Scanning.Joined

set_option autoImplicit false

namespace ScopeScript

def Passes (cs rest : List Char) : Prop :=
  ∃ segs, segments (cs ++ rest) = segs ++ segments rest ∧
    ∀ segment ∈ segs, segment.isDirective = false

theorem Passes.nil (rest : List Char) : Passes [] rest := ⟨[], rfl, by simp⟩

theorem Passes.append {xs ys rest : List Char} (first : Passes xs (ys ++ rest))
    (second : Passes ys rest) : Passes (xs ++ ys) rest := by
  obtain ⟨segs, whole, plain⟩ := first
  obtain ⟨segs', whole', plain'⟩ := second
  refine ⟨segs ++ segs', by rw [List.append_assoc, whole, whole', List.append_assoc], ?_⟩
  intro segment mem
  rcases List.mem_append.mp mem with mem | mem
  · exact plain segment mem
  · exact plain' segment mem

theorem passes_of_first {c : Char} {cs tail rest text : List Char} (whole : cs ++ rest = c :: tail)
    (first : Segment.first c tail = (.verbatim text, rest)) : Passes cs rest := by
  refine ⟨[.verbatim text], ?_, ?_⟩
  · rw [whole, segments, first]
    rfl
  · intro segment mem
    rw [List.mem_singleton.mp mem]
    rfl

structure Char.Plain (c : Char) : Prop where
  quote : c ≠ '"'
  start : isWordStart c = false

theorem passes_char {c : Char} {rest : List Char} (plain : Char.Plain c)
    (slash : c = '/' → ∀ d ∈ rest.head?, d ≠ '/' ∧ d ≠ '*') : Passes [c] rest := by
  have single : Segment.first c rest = (.verbatim [c], rest) := by
    unfold Segment.first
    rw [if_neg plain.quote, if_neg, if_neg, if_neg]
    · simp [plain.start]
    · exact fun same => (slash same.1 _ same.2).2 rfl
    · exact fun same => (slash same.1 _ same.2).1 rfl
  exact passes_of_first rfl single

theorem passes_chars {cs : List Char} (plain : ∀ c ∈ cs, Char.Plain c ∧ c ≠ '/')
    (rest : List Char) : Passes cs rest := by
  induction cs with
  | nil => exact .nil rest
  | cons c cs ih =>
    obtain ⟨first, slash⟩ := plain c List.mem_cons_self
    have head : Passes [c] (cs ++ rest) := passes_char first fun same => absurd same slash
    exact head.append (ih fun d mem => plain d (List.mem_cons_of_mem _ mem))

-- Both readers leave the same text behind a string and behind a comment.

theorem Piece.string_snd (rest : List Char) :
    (string rest).2 = (rest.dropWhile (· != '"')).tail := by
  unfold string
  cases rest.dropWhile (· != '"') <;> rfl

theorem splitThrough_quote (rest : List Char) :
    (Segment.splitThrough ['"'] rest).2 = (Piece.string rest).2 := by
  rw [Piece.string_snd]
  induction rest with
  | nil => rfl
  | cons c rest ih =>
    by_cases quote : c = '"'
    · subst quote
      rfl
    · simp [Segment.splitThrough, quote, Ne.symm quote, ih]

theorem splitThrough_close (cs : List Char) :
    (Segment.splitThrough ['*', '/'] cs).2 = (Piece.throughClose cs).2 := by
  fun_induction Piece.throughClose cs with
  | case1 => rfl
  | case2 rest => rfl
  | case3 c rest other ih =>
    have unmarked : ['*', '/'].isPrefixOf (c :: rest) = false := by
      by_contra marked
      obtain ⟨tail, same⟩ := List.isPrefixOf_iff_prefix.mp (Bool.not_eq_false _ ▸ marked)
      obtain ⟨rfl, rest_eq⟩ := List.cons.inj same
      exact other tail rfl rest_eq.symm
    simp [Segment.splitThrough, unmarked, ih]

theorem passes_string (rest : List Char) :
    Passes (Piece.string rest).1.text (Piece.string rest).2 := by
  have first : Segment.first '"' rest = (.verbatim ('"' :: (Segment.splitThrough ['"'] rest).1),
      (Segment.splitThrough ['"'] rest).2) := rfl
  rw [splitThrough_quote] at first
  exact passes_of_first (Piece.string_append rest) first

theorem passes_comment {c : Char} {rest tail : List Char} {p : Piece}
    (found : Piece.comment? (c :: rest) = some (p, tail)) : Passes p.text tail := by
  have whole := Piece.comment?_append found
  have first : Segment.first c rest = (.verbatim (Segment.first c rest).1.text, tail) := by
    unfold Piece.comment? at found
    split at found
    next rest same =>
      obtain ⟨rfl, rfl⟩ := List.cons.inj same
      obtain ⟨-, rfl⟩ := Prod.mk.inj (Option.some.inj found)
      rfl
    next rest same =>
      obtain ⟨rfl, rfl⟩ := List.cons.inj same
      obtain ⟨-, rfl⟩ := Prod.mk.inj (Option.some.inj found)
      rw [← splitThrough_close]
      rfl
    · cases found
  exact passes_of_first whole first

theorem Segment.first_word {c : Char} (rest : List Char) (start : isWordStart c = true) :
    Segment.first c rest =
      if (c :: rest).takeWhile isWordPart = Segment.importWord then
        Segment.directiveAfter ((c :: rest).takeWhile isWordPart) ((c :: rest).dropWhile isWordPart)
      else (.verbatim ((c :: rest).takeWhile isWordPart), (c :: rest).dropWhile isWordPart) := by
  have quote : c ≠ '"' := by
    rintro rfl
    cases start
  have slash : c ≠ '/' := by
    rintro rfl
    cases start
  simp only [Segment.first, if_neg quote, slash, false_and, if_false, if_pos start]

theorem Segment.first_directive {c : Char} {rest head behind : List Char} {target : ImportTarget}
    (first : Segment.first c rest = (.directive head target, behind)) :
    isWordStart c = true ∧ (c :: rest).takeWhile isWordPart = importWord ∧
      directiveAfter importWord ((c :: rest).dropWhile isWordPart) =
        (.directive head target, behind) := by
  by_cases start : isWordStart c = true
  · rw [first_word rest start] at first
    split at first
    next word => exact ⟨start, word, word ▸ first⟩
    · cases first
  · unfold Segment.first at first
    rw [if_neg start] at first
    split at first
    · cases first
    split at first
    · cases first
    split at first <;> cases first

theorem Segment.target_cases (cs : List Char) :
    (cs.head? ≠ some '"' ∧ target cs = (.missing, cs)) ∨
    (∃ rest, cs = '"' :: rest ∧ '"' ∉ rest ∧ target cs = (.unclosed cs, [])) ∨
    ∃ path tail, cs = '"' :: (path ++ '"' :: tail) ∧ '"' ∉ path ∧
      target cs = (.file path (semicolon tail).1, (semicolon tail).2) := by
  unfold target
  split
  next rest =>
    have whole := List.takeWhile_append_dropWhile (p := (· != '"')) (l := rest)
    have unquoted : '"' ∉ rest.takeWhile (· != '"') := fun mem => by
      simpa using List.mem_takeWhile_imp mem
    cases tail : rest.dropWhile (· != '"') with
    | nil =>
      rw [tail, List.append_nil] at whole
      rw [whole] at unquoted
      exact .inr (.inl ⟨rest, rfl, unquoted, rfl⟩)
    | cons quote after =>
      obtain rfl := Piece.eq_quote_of_dropWhile tail
      rw [tail] at whole
      exact .inr (.inr ⟨_, after, congrArg ('"' :: ·) whole.symm, unquoted, rfl⟩)
  next other =>
    refine .inl ⟨fun quote => ?_, rfl⟩
    obtain ⟨rest, rfl⟩ := List.head?_eq_some_iff.mp quote
    exact other rest rfl

def Piece.importWord : Piece := .lexeme .identifier Segment.importWord

theorem passes_word {c : Char} {rest : List Char} (start : isWordStart c = true)
    (other : (Piece.word (c :: rest)).1 ≠ .importWord) :
    Passes (Piece.word (c :: rest)).1.text (Piece.word (c :: rest)).2 := by
  have apart : (c :: rest).takeWhile isWordPart ≠ Segment.importWord := fun same => by
    refine other ?_
    rw [Piece.word, same]
    rfl
  have first := Segment.first_word rest start
  rw [if_neg apart] at first
  exact passes_of_first (Piece.word_append _) first

theorem Char.plain_of_isDigit {c : Char} (digit : c.isDigit = true) : Char.Plain c ∧ c ≠ '/' := by
  refine ⟨⟨?_, isWordStart_of_isDigit digit⟩, ?_⟩ <;> rintro rfl <;> cases digit

theorem passes_number (cs : List Char) : Passes (Piece.number cs).1.text (Piece.number cs).2 := by
  have text : (Piece.number cs).1.text =
      cs.takeWhile Char.isDigit ++ (Piece.fraction (cs.dropWhile Char.isDigit)).1 := rfl
  rw [text]
  refine passes_chars (fun c mem => ?_) _
  have point : Char.Plain '.' ∧ '.' ≠ '/' := ⟨⟨by decide, by decide⟩, by decide⟩
  rcases List.mem_append.mp mem with whole | tail
  · exact Char.plain_of_isDigit (List.mem_takeWhile_imp whole)
  · generalize cs.dropWhile Char.isDigit = rest at tail
    unfold Piece.fraction at tail
    split at tail
    · split at tail
      next first =>
        rcases List.mem_cons.mp tail with rfl | digit
        · exact point
        rcases List.mem_cons.mp digit with rfl | digit
        · exact Char.plain_of_isDigit first
        · exact Char.plain_of_isDigit (List.mem_takeWhile_imp digit)
      · cases tail
    · cases tail

theorem passes_symbol {c : Char} {rest : List Char} (plain : Char.Plain c)
    (uncommented : Piece.comment? (c :: rest) = none) :
    Passes (Piece.symbol c rest).1.text (Piece.symbol c rest).2 := by
  have slash : c = '/' → ∀ d ∈ rest.head?, d ≠ '/' ∧ d ≠ '*' := by
    rintro rfl d same
    cases rest with
    | nil => cases same
    | cons d' rest =>
      obtain rfl := Option.some.inj same
      constructor <;> rintro rfl <;> cases uncommented
  have alone : Passes [c] rest := passes_char plain slash
  unfold Piece.symbol
  split
  next p pair =>
    cases rest with
    | nil => cases pair
    | cons d rest =>
      have second : Char.Plain d ∧ d ≠ '/' := by
        change Punctuator.ofPair? c d = some p at pair
        unfold Punctuator.ofPair? at pair
        split at pair <;> first | exact ⟨⟨by decide, by decide⟩, by decide⟩ | cases pair
      have spelled : p.spelling = [c] ++ [d] := Punctuator.spelling_of_ofPair? pair
      change Passes p.spelling rest
      rw [spelled]
      exact alone.append (passes_char second.1 fun same => absurd same second.2)
  · split
    next p single =>
      change Passes p.spelling rest
      rwa [Punctuator.spelling_of_ofChar? single]
    · exact alone

theorem passes_first {c : Char} {rest : List Char} (other : (Piece.first c rest).1 ≠ .importWord) :
    Passes (Piece.first c rest).1.text (Piece.first c rest).2 := by
  unfold Piece.first at other ⊢
  split
  next space =>
    have plain : Char.Plain c := by
      simp only [isSpace, Bool.or_eq_true, decide_eq_true_eq] at space
      rcases space with ((rfl | rfl) | rfl) | rfl <;> exact ⟨by decide, by decide⟩
    refine passes_char plain fun same => ?_
    subst same
    cases space
  next spaceless =>
  rw [if_neg spaceless] at other
  split
  · exact passes_string rest
  next quote =>
  rw [if_neg quote] at other
  split
  · exact passes_number _
  next digit =>
  rw [if_neg digit] at other
  split
  next start =>
    rw [if_pos start] at other
    exact passes_word start other
  next start =>
  cases found : Piece.comment? (c :: rest) with
  | some result => exact passes_comment found
  | none => exact passes_symbol ⟨quote, by simpa using start⟩ found

def Verbatim (cs : List Char) : Prop := ∀ segment ∈ segments cs, segment.isDirective = false

theorem verbatim_of_pieces {cs : List Char} (other : .importWord ∉ pieces cs) : Verbatim cs := by
  induction cs using pieces.induct with
  | case1 => simp [Verbatim, segments]
  | case2 c rest ih =>
    rw [pieces] at other
    obtain ⟨segs, whole, plain⟩ := passes_first fun same => other (same ▸ List.mem_cons_self)
    rw [Piece.first_append] at whole
    intro segment mem
    rw [whole] at mem
    rcases List.mem_append.mp mem with here | later
    · exact plain segment here
    · exact ih (fun later => other (List.mem_cons_of_mem _ later)) segment later

theorem Library.spliceAll_verbatim (library : Library) (expand : Expander) (line : Nat)
    {segments : List Segment} (plain : ∀ segment ∈ segments, segment.isDirective = false)
    (s : ImportState) :
    library.spliceAll expand line segments s = (segments.flatMap Segment.text, s) := by
  induction segments generalizing line with
  | nil => rfl
  | cons segment rest ih =>
    have others := fun line => ih line fun other mem => plain other (List.mem_cons_of_mem _ mem)
    cases segment with
    | verbatim text =>
      simp only [Library.spliceAll, others]
      rfl
    | directive head target => cases plain _ List.mem_cons_self

def MentionsImport (source : String) : Prop :=
  ∃ t ∈ scannedTokens (scan source), t.kind = .identifier ∧ t.lexeme = "import"

instance : DecidablePred MentionsImport := fun source =>
  inferInstanceAs (Decidable
    (∃ t ∈ scannedTokens (scan source), t.kind = .identifier ∧ t.lexeme = "import"))

theorem mentionsImport_iff (source : String) :
    MentionsImport source ↔ .importWord ∈ pieces source.toList := by
  have word : "import" = String.ofList Segment.importWord := by decide
  have inside : MentionsImport source ↔
      ∃ t ∈ wordsOf source, t.kind = .identifier ∧ t.lexeme = "import" := by
    unfold MentionsImport
    rw [scannedTokens_scan]
    constructor
    · rintro ⟨t, mem, identifier, spelled⟩
      rcases List.mem_append.mp mem with mem | last
      · exact ⟨t, mem, identifier, spelled⟩
      · obtain rfl := List.mem_singleton.mp last
        cases identifier
    · rintro ⟨t, mem, meant⟩
      exact ⟨t, List.mem_append_left _ mem, meant⟩
  rw [inside, wordsOf, exists_mem_itemsOf_iff, word]
  constructor
  · rintro ⟨text, mem, spelled⟩
    obtain rfl := String.ofList_injective spelled
    exact mem
  · exact fun mem => ⟨_, mem, rfl⟩

theorem mentionsImport_joined {source more : String} (clean : scanFaults (scan source) = [])
    (ends : ¬EndsInComment source) :
    MentionsImport (source ++ "\n" ++ more) ↔ MentionsImport source ∨ MentionsImport more := by
  have chars : (source ++ "\n" ++ more).toList = source.toList ++ '\n' :: more.toList := by simp
  rw [mentionsImport_iff, mentionsImport_iff, mentionsImport_iff, chars,
    pieces_append_break (closed_of_scan clean ends)]
  simp [Piece.importWord]

theorem Library.process_plain (library : Library) (seen : List String) {source : String}
    (plain : ¬MentionsImport source) : library.process seen source = ⟨.ok source, [], seen⟩ := by
  have verbatim := verbatim_of_pieces (mt (mentionsImport_iff source).mpr plain)
  have expanded : library.expand library.depth source.toList ⟨seen, [], []⟩ =
      (source.toList, ⟨seen, [], []⟩) := by
    unfold Library.depth Library.expand
    rw [library.spliceAll_verbatim _ _ verbatim, flatMap_text_segments]
  unfold Library.process
  rw [expanded]
  simp

theorem Library.process_verbatim (library : Library) (seen : List String) {source : String}
    (plain : ¬MentionsImport source) : (library.process seen source).result = .ok source := by
  rw [library.process_plain seen plain]

end ScopeScript
