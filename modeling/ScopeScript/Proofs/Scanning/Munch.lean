import ScopeScript.Proofs.Scanning.Joined
import ScopeScript.Proofs.Scanning.Lexicon

set_option autoImplicit false

namespace ScopeScript.Lexicon

variable {kind : Kind} {c : Char} {cs rest : List Char}

theorem not_skippable (space : isSpace c = false) (slash : c ≠ '/') : ¬Skippable (c :: cs) := by
  rw [skippable_iff]
  rintro (⟨d, rest, same, space'⟩ | ⟨mark, rest, same, -⟩)
  · obtain ⟨rfl, -⟩ := List.cons.inj same
    rw [space] at space'
    cases space'
  · exact slash (List.cons.inj same).1

theorem not_skippable_quote (cs : List Char) : ¬Skippable ('"' :: cs) :=
  not_skippable (by decide) (by decide)

theorem IsToken.cons_of_prefix (h : IsToken kind cs) (start : cs <+: c :: rest) :
    ∃ tail, cs = c :: tail ∧ tail <+: rest := by
  obtain ⟨d, tail, rfl⟩ := List.exists_cons_of_ne_nil h.ne_nil
  obtain ⟨rfl, inside⟩ := List.cons_prefix_cons.mp start
  exact ⟨tail, rfl, inside⟩

-- Strings.

theorem begins_string (rest : List Char) :
    Begins (Piece.string rest).1 (Piece.string rest).2 := by
  have split := List.takeWhile_append_dropWhile (p := (· != '"')) (l := rest)
  have open_text : '"' ∉ rest.takeWhile (· != '"') := fun mem => by
    simpa using List.mem_takeWhile_imp mem
  unfold Piece.string
  cases tail : rest.dropWhile (· != '"') with
  | nil => exact .unclosed open_text
  | cons quote after =>
    obtain rfl := Piece.eq_quote_of_dropWhile tail
    refine .token (.string open_text) (not_skippable_quote _) ?_
    intro kind' lexeme' token start
    rw [List.append_assoc] at start
    obtain ⟨inside, rfl, within⟩ := token.cons_of_prefix start
    obtain ⟨contents', open_text', rfl, -⟩ := token.of_quote
    -- The first quote ends both of them.
    obtain ⟨more, whole⟩ := within
    have ends (text : List Char) : ∀ d ∈ ('"' :: text).head?, (d != '"') = false := by
      rintro _ ⟨⟩
      rfl
    have runs {text : List Char} (none : '"' ∉ text) : ∀ d ∈ text, (d != '"') = true := by
      intro d mem
      simpa using fun same : d = '"' => none (same ▸ mem)
    rw [List.append_assoc] at whole
    have same := congrArg (List.takeWhile (· != '"')) whole
    have first := @takeWhile_run (· != '"') contents' ('"' :: more) (runs open_text') (ends more)
    have second := @takeWhile_run (· != '"') _ ('"' :: after) (runs open_text) (ends after)
    have contents_eq := first.symm.trans (same.trans second)
    rw [contents_eq]
    exact le_rfl

-- Numbers.

theorem fraction_longest {fraction : List Char} (some_digit : fraction ≠ [])
    (all : ∀ d ∈ fraction, d.isDigit = true) (start : '.' :: fraction <+: cs) :
    ('.' :: fraction).length ≤ (Piece.fraction cs).1.length := by
  obtain ⟨d, fraction, rfl⟩ := List.exists_cons_of_ne_nil some_digit
  obtain ⟨first, others⟩ := List.forall_mem_cons.mp all
  obtain ⟨more, rfl⟩ := start
  simp only [List.cons_append, Piece.fraction, first, if_true, List.length_cons]
  have run := length_le_takeWhile others (List.prefix_append fraction more)
  omega

theorem fraction_eq (cs : List Char) : ∃ fraction, (Piece.fraction cs).1 = pointed fraction ∧
    ∀ d ∈ fraction, d.isDigit = true := by
  unfold Piece.fraction
  split
  next d rest =>
    split
    next digit =>
      refine ⟨d :: rest.takeWhile Char.isDigit, by simp [pointed], ?_⟩
      exact List.forall_mem_cons.mpr ⟨digit, fun _ => List.mem_takeWhile_imp⟩
    · exact ⟨[], rfl, by simp⟩
  · exact ⟨[], rfl, by simp⟩

theorem isToken_number {digits fraction : List Char} (some_digit : digits ≠ [])
    (all : ∀ d ∈ digits, d.isDigit = true) (all' : ∀ d ∈ fraction, d.isDigit = true) :
    IsToken (.number (Numeral.ofParts digits ((pointed fraction).drop 1)))
      (digits ++ pointed fraction) := by
  by_cases none : fraction = []
  · subst none
    have nearest := Numeral.nearest_ofParts digits []
    simpa [pointed] using IsToken.whole some_digit all nearest
  · have nearest := Numeral.nearest_ofParts digits fraction
    rw [pointed, if_neg none]
    exact .fractional some_digit all none all' nearest

theorem begins_number (space : isSpace c = false) (digit : c.isDigit = true) (rest : List Char) :
    Begins (Piece.number (c :: rest)).1 (Piece.number (c :: rest)).2 := by
  have split := Piece.number_append (c :: rest)
  have some_digit : (c :: rest).takeWhile Char.isDigit ≠ [] := by simp [digit]
  have all : ∀ d ∈ (c :: rest).takeWhile Char.isDigit, d.isDigit = true :=
    fun _ => List.mem_takeWhile_imp
  have other : c ≠ '/' := by
    rintro rfl
    cases digit
  obtain ⟨fraction, found, all'⟩ := fraction_eq ((c :: rest).dropWhile Char.isDigit)
  have token := isToken_number some_digit all all'
  rw [← found] at token
  refine .token token ?_ ?_
  · change ¬Skippable ((Piece.number (c :: rest)).1.text ++ _)
    rw [split]
    exact not_skippable space other
  intro kind' lexeme' token' start
  change lexeme' <+: (Piece.number (c :: rest)).1.text ++ _ at start
  rw [split] at start
  obtain ⟨tail, rfl, -⟩ := token'.cons_of_prefix start
  obtain ⟨digits, fraction', value, rfl, -, many, many', whole⟩ := token'.of_digit digit
  rw [whole] at start ⊢
  rw [List.length_append, List.length_append]
  -- Another number has no more digits before the point, or the same ones and then no more behind.
  by_cases none : fraction' = []
  · have run := length_le_takeWhile many ((List.prefix_append _ _).trans start)
    rw [none, pointed, if_pos rfl, List.length_nil]
    omega
  · rw [pointed, if_neg none] at start ⊢
    obtain ⟨more, same⟩ := start
    have stop : ∀ d ∈ ('.' :: fraction' ++ more).head?, d.isDigit = false := by
      rintro _ ⟨⟩
      rfl
    rw [List.append_assoc] at same
    rw [← same, takeWhile_run many stop, dropWhile_run many stop]
    exact Nat.add_le_add_left (fraction_longest none many' (List.prefix_append _ more)) _

-- Words.

theorem isToken_wordKind {word : List Char} (start : isWordStart c = true)
    (parts : ∀ d ∈ word, isWordPart d = true) :
    IsToken (Piece.wordKind (c :: word)) (c :: word) := by
  by_cases keyword : ∃ k : Keyword, k.spelling.toList = c :: word
  · obtain ⟨k, spelled⟩ := keyword
    rw [← spelled, wordKind_of_keyword]
    exact .keyword k
  · have other : ∀ k : Keyword, k.spelling.toList ≠ c :: word := not_exists.mp keyword
    rw [wordKind_of_other other]
    exact .identifier start parts other

theorem begins_word (space : isSpace c = false) (start : isWordStart c = true) (rest : List Char) :
    Begins (Piece.word (c :: rest)).1 (Piece.word (c :: rest)).2 := by
  have part := isWordPart_of_isWordStart start
  have word : (c :: rest).takeWhile isWordPart = c :: rest.takeWhile isWordPart := by simp [part]
  unfold Piece.word
  refine .token ?_ ?_ ?_
  · rw [word]
    exact isToken_wordKind start fun _ => List.mem_takeWhile_imp
  · rw [List.takeWhile_append_dropWhile]
    refine not_skippable space ?_
    rintro rfl
    cases start
  · intro kind' lexeme' token before
    rw [List.takeWhile_append_dropWhile] at before
    obtain ⟨tail, rfl, -⟩ := token.cons_of_prefix before
    exact length_le_takeWhile (token.of_word start).2 before

-- Symbols.

theorem spelling_cases (p : Punctuator) :
    (∃ c, p.spelling = [c] ∧ Punctuator.ofChar? c = some p) ∨
      ∃ c d, p.spelling = [c, d] ∧ Punctuator.ofPair? c d = some p := by
  cases p <;> first | exact .inl ⟨_, rfl, rfl⟩ | exact .inr ⟨_, _, rfl, rfl⟩

theorem begins_symbol (quote : c ≠ '"') (symbol : charLead c = .symbol)
    (bare : ¬Skippable (c :: rest)) :
    Begins (Piece.symbol c rest).1 (Piece.symbol c rest).2 := by
  have tokens {kind : Kind} {lexeme : List Char} (token : IsToken kind lexeme)
      (start : lexeme <+: c :: rest) :
      (lexeme = [c] ∧ ∃ p, Punctuator.ofChar? c = some p) ∨
        ∃ d tail p, lexeme = [c, d] ∧ rest = d :: tail ∧ Punctuator.ofPair? c d = some p := by
    obtain ⟨tail, rfl, within⟩ := token.cons_of_prefix start
    obtain ⟨p, -, spelled⟩ := token.of_symbol symbol
    rcases spelling_cases p with ⟨d, single, found⟩ | ⟨d, e, pair, found⟩
    · obtain ⟨rfl, rfl⟩ := List.cons.inj (spelled.symm.trans single)
      exact .inl ⟨rfl, p, found⟩
    · obtain ⟨rfl, rfl⟩ := List.cons.inj (spelled.symm.trans pair)
      obtain ⟨more, rfl⟩ := within
      exact .inr ⟨e, more, p, rfl, rfl, found⟩
  unfold Piece.symbol
  cases pair : rest.head?.bind (Punctuator.ofPair? c) with
  | some p =>
    cases rest with
    | nil => cases pair
    | cons d tail =>
      have spelled : p.spelling = [c, d] := Punctuator.spelling_of_ofPair? pair
      refine .token (.punctuator p) (by rw [spelled]; exact bare)
        fun kind' lexeme' token start => ?_
      rw [spelled] at start ⊢
      rcases tokens token start with ⟨rfl, -⟩ | ⟨e, tail, q, rfl, -, -⟩
      · exact Nat.le_succ 1
      · exact le_rfl
  | none =>
    have unpaired {d : Char} {tail : List Char} {p : Punctuator} (same : rest = d :: tail)
        (found : Punctuator.ofPair? c d = some p) : False := by
      subst same
      rw [List.head?_cons, Option.bind_some, found] at pair
      cases pair
    cases single : Punctuator.ofChar? c with
    | some p =>
      have spelled := Punctuator.spelling_of_ofChar? single
      refine .token (.punctuator p) (by rw [spelled]; exact bare)
        fun kind' lexeme' token start => ?_
      rw [spelled] at start ⊢
      rcases tokens token start with ⟨rfl, -⟩ | ⟨e, tail, q, -, same, found⟩
      · exact le_rfl
      · exact (unpaired same found).elim
    | none =>
      refine .unexpected quote bare fun kind' lexeme' token start => ?_
      rcases tokens token start with ⟨-, p, found⟩ | ⟨e, tail, q, -, same, found⟩
      · rw [single] at found
        cases found
      · exact unpaired same found

theorem begins_first (c : Char) (rest : List Char) :
    Begins (Piece.first c rest).1 (Piece.first c rest).2 := by
  unfold Piece.first
  split
  next space => exact .skipped (.blank space)
  next other =>
  have space : isSpace c = false := by simpa using other
  split
  · exact begins_string rest
  next quote =>
  split
  next digit => exact begins_number space digit rest
  next digit =>
  split
  next start => exact begins_word space start rest
  next start =>
  cases found : Piece.comment? (c :: rest) with
  | some result => exact .skipped (skips_of_comment? found)
  | none =>
    refine begins_symbol quote (charLead_symbol quote digit start) fun skippable => ?_
    rcases skippable_iff.mp skippable with ⟨d, tail, same, space'⟩ | ⟨mark, tail, same, marks⟩
    · obtain ⟨rfl, -⟩ := List.cons.inj same
      exact other space'
    · rw [same] at found
      rcases marks with rfl | rfl <;> cases found

-- A text begins in one way.

theorem Skips.unique {p q : Piece} {xs ys : List Char} (h : Skips p xs) (h' : Skips q ys)
    (same : p.text ++ xs = q.text ++ ys) : p = q ∧ xs = ys := by
  have blank {c : Char} {p : Piece} {xs ys : List Char} (space : isSpace c = true)
      (found : Piece.comment? (p.text ++ xs) = some (p, xs)) (same : c :: ys = p.text ++ xs) :
      False := by
    rw [← same] at found
    unfold Piece.comment? at found
    split at found
    next same =>
      obtain ⟨rfl, -⟩ := List.cons.inj same
      cases space
    next same =>
      obtain ⟨rfl, -⟩ := List.cons.inj same
      cases space
    · cases found
  rcases comment?_of_skips h with ⟨c, rfl, space⟩ | found <;>
    rcases comment?_of_skips h' with ⟨d, rfl, space'⟩ | found'
  · obtain ⟨rfl, rfl⟩ := List.cons.inj same
    exact ⟨rfl, rfl⟩
  · exact (blank space found' same).elim
  · exact (blank space' found same.symm).elim
  · rw [same, found'] at found
    obtain ⟨rfl, rfl⟩ := Prod.mk.inj (Option.some.inj found)
    exact ⟨rfl, rfl⟩

theorem not_isToken_of_unclosed {text : List Char} (unclosed : '"' ∉ text) {lexeme : List Char}
    (start : lexeme <+: '"' :: text) : ¬IsToken kind lexeme := by
  intro token
  obtain ⟨tail, rfl, within⟩ := token.cons_of_prefix start
  obtain ⟨contents, -, rfl, -⟩ := token.of_quote
  exact unclosed (within.subset (by simp))

theorem Begins.unique {p q : Piece} {xs ys : List Char} (h : Begins p xs) (h' : Begins q ys)
    (same : p.text ++ xs = q.text ++ ys) : p = q ∧ xs = ys := by
  cases h with
  | skipped skips =>
    have skippable : Skippable (q.text ++ ys) := same ▸ skips.skippable
    cases h' with
    | skipped skips' => exact skips.unique skips' same
    | token _ bare | unexpected _ bare => exact absurd skippable bare
    | unclosed => exact absurd skippable (not_skippable_quote _)
  | @token kind lexeme xs token bare longest =>
    change lexeme ++ xs = q.text ++ ys at same
    have start : lexeme <+: q.text ++ ys := same ▸ List.prefix_append lexeme xs
    cases h' with
    | skipped skips => exact absurd (same ▸ skips.skippable) bare
    | @token kind' lexeme' ys token' _ longest' =>
      change lexeme ++ xs = lexeme' ++ ys at same
      -- Each of them is a longest one.
      have start' : lexeme' <+: lexeme ++ xs := same ▸ List.prefix_append lexeme' ys
      have lengths := Nat.le_antisymm (longest' _ _ token start) (longest _ _ token' start')
      obtain ⟨rfl, rfl⟩ := List.append_inj same lengths
      obtain rfl := token.unique token'
      exact ⟨rfl, rfl⟩
    | unclosed unclosed =>
      rw [List.append_nil] at start
      exact absurd token (not_isToken_of_unclosed unclosed start)
    | unexpected _ _ none => exact absurd start (none _ _ token)
  | @unclosed text unclosed =>
    rw [List.append_nil] at same
    change '"' :: text = q.text ++ ys at same
    cases h' with
    | skipped skips => exact absurd (same ▸ skips.skippable) (not_skippable_quote text)
    | @token _ lexeme ys token =>
      exact absurd token (not_isToken_of_unclosed unclosed (same ▸ List.prefix_append lexeme ys))
    | unclosed =>
      rw [List.append_nil] at same
      obtain ⟨-, rfl⟩ := List.cons.inj same
      exact ⟨rfl, rfl⟩
    | unexpected quote => exact absurd (List.cons.inj same).1.symm quote
  | @unexpected c xs quote bare none =>
    change c :: xs = q.text ++ ys at same
    cases h' with
    | skipped skips => exact absurd (same ▸ skips.skippable) bare
    | @token _ lexeme ys token =>
      exact absurd (same ▸ List.prefix_append lexeme ys) (none _ _ token)
    | unclosed => exact absurd (List.cons.inj same).1 quote
    | unexpected =>
      obtain ⟨rfl, rfl⟩ := List.cons.inj same
      exact ⟨rfl, rfl⟩

theorem begins_iff {p : Piece} {tail : List Char} :
    Begins p tail ∧ p.text ++ tail = c :: rest ↔ Piece.first c rest = (p, tail) := by
  constructor
  · rintro ⟨begins, whole⟩
    obtain ⟨same, same'⟩ :=
      (begins_first c rest).unique begins ((Piece.first_append c rest).trans whole.symm)
    exact Prod.ext same same'
  · intro first
    have begins := begins_first c rest
    have whole := Piece.first_append c rest
    rw [first] at begins whole
    exact ⟨begins, whole⟩

theorem Begins.text_ne_nil {p : Piece} {tail : List Char} (h : Begins p tail) : p.text ≠ [] := by
  cases h with
  | skipped skips => cases skips <;> exact List.cons_ne_nil _ _
  | token token => exact token.ne_nil
  | unclosed | unexpected => exact List.cons_ne_nil _ _

theorem cut_iff {ps : List Piece} : Cut cs ps ↔ pieces cs = ps := by
  constructor
  · intro cut
    induction cut with
    | nil => rw [pieces]
    | @cons p tail ps begins _ ih =>
      obtain ⟨c, rest, whole⟩ :=
        List.exists_cons_of_ne_nil (List.append_ne_nil_of_left_ne_nil begins.text_ne_nil tail)
      have first := begins_iff.mp ⟨begins, whole⟩
      rw [whole, pieces, first, ih]
  · rintro rfl
    induction cs using pieces.induct with
    | case1 =>
      rw [pieces]
      exact .nil
    | case2 c rest ih =>
      have cut := Cut.cons (begins_first c rest) ih
      rwa [Piece.first_append, ← pieces] at cut

/-- The items of the scanner are those of the pieces that the lexicon cuts the text into, in their
order: a token for each lexeme, a fault for each character or string that is none, and nothing for
what is skipped. No part of the text is lost, and the end of the text is the last item and no other.
-/
theorem scan_cut (source : String) :
    ∃ ps : List Piece, Cut source.toList ps ∧ (∀ qs, Cut source.toList qs → qs = ps) ∧
      ps.flatMap Piece.text = source.toList ∧
      scan source = itemsOf 1 ps ++ [.ok ⟨.eof, "", 1 + lineBreaks source.toList⟩] ∧
      ∀ t : Token, .ok t ∈ itemsOf 1 ps → t.kind ≠ .eof := by
  refine ⟨pieces source.toList, cut_iff.mpr rfl, fun qs cut => (cut_iff.mp cut).symm,
    flatMap_text_pieces _, ?_, fun t mem => ?_⟩
  · rw [scan, scanPieces_eq, flatMap_text_pieces]
  · exact kind_ne_eof_of_mem_wordsOf (List.mem_filterMap.mpr ⟨.ok t, mem, rfl⟩)

end ScopeScript.Lexicon
