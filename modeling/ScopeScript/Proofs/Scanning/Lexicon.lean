import ScopeScript.Proofs.Decimal.Reading
import ScopeScript.Token.Scan

set_option autoImplicit false

namespace ScopeScript.Lexicon

inductive IsToken : Kind → List Char → Prop
  | punctuator (p : Punctuator) : IsToken (.punctuator p) p.spelling
  | keyword (k : Keyword) : IsToken (.keyword k) k.spelling.toList
  | identifier {c word} :
    isWordStart c = true → (∀ d ∈ word, isWordPart d = true) →
      (∀ k : Keyword, k.spelling.toList ≠ c :: word) → IsToken .identifier (c :: word)
  | string {contents} :
    '"' ∉ contents → IsToken (.string (String.ofList contents)) ('"' :: contents ++ ['"'])
  | whole {digits value} :
    digits ≠ [] → (∀ d ∈ digits, d.isDigit = true) →
      Binary64.Nearest (Numeral.value digits []) value → IsToken (.number value) digits
  | fractional {digits fraction value} :
    digits ≠ [] → (∀ d ∈ digits, d.isDigit = true) →
      fraction ≠ [] → (∀ d ∈ fraction, d.isDigit = true) →
        Binary64.Nearest (Numeral.value digits fraction) value →
          IsToken (.number value) (digits ++ '.' :: fraction)

inductive Skips : Piece → List Char → Prop
  | blank {c rest} : isSpace c = true → Skips (.blank c) rest
  | line {text rest} :
    '\n' ∉ text → (∀ c ∈ rest.head?, c = '\n') → Skips (.comment ('/' :: '/' :: text)) rest
  | block {text rest} :
    ¬['*', '/'] <:+: text ++ ['*'] → Skips (.comment ('/' :: '*' :: (text ++ ['*', '/']))) rest
  | openBlock {text} : ¬['*', '/'] <:+: text → Skips (.comment ('/' :: '*' :: text)) []

def Skippable (cs : List Char) : Prop :=
  ∃ p rest, p.text ++ rest = cs ∧ Skips p rest

/-- A piece that begins a text, and what follows it there. -/
inductive Begins : Piece → List Char → Prop
  | skipped {p rest} : Skips p rest → Begins p rest
  | token {kind lexeme rest} :
    IsToken kind lexeme → ¬Skippable (lexeme ++ rest) →
      (∀ kind' lexeme', IsToken kind' lexeme' → lexeme' <+: lexeme ++ rest →
        lexeme'.length ≤ lexeme.length) → Begins (.lexeme kind lexeme) rest
  | unclosed {text} : '"' ∉ text → Begins (.unclosed ('"' :: text)) []
  | unexpected {c rest} :
    c ≠ '"' → ¬Skippable (c :: rest) →
      (∀ kind lexeme, IsToken kind lexeme → ¬lexeme <+: c :: rest) → Begins (.unexpected c) rest

/-- A text and the pieces that it is cut into. -/
inductive Cut : List Char → List Piece → Prop
  | nil : Cut [] []
  | cons {p rest ps} : Begins p rest → Cut rest ps → Cut (p.text ++ rest) (p :: ps)

-- A run of characters ends where the text does, or before one of another sort.

section

variable {p : Char → Bool} {xs ys : List Char}

theorem takeWhile_run (run : ∀ c ∈ xs, p c = true) (stop : ∀ c ∈ ys.head?, p c = false) :
    (xs ++ ys).takeWhile p = xs := by
  rw [List.takeWhile_append_of_pos run]
  cases ys with
  | nil => simp
  | cons c ys => simp [stop c rfl]

theorem dropWhile_run (run : ∀ c ∈ xs, p c = true) (stop : ∀ c ∈ ys.head?, p c = false) :
    (xs ++ ys).dropWhile p = ys := by
  rw [List.dropWhile_append_of_pos run]
  cases ys with
  | nil => rfl
  | cons c ys => simp [stop c rfl]

theorem length_le_takeWhile (run : ∀ c ∈ xs, p c = true) (start : xs <+: ys) :
    xs.length ≤ (ys.takeWhile p).length := by
  obtain ⟨tail, rfl⟩ := start
  rw [List.takeWhile_append_of_pos run, List.length_append]
  exact Nat.le_add_right _ _

end

-- What sort of token there is shows in its first character.

inductive Lead where
  | quote
  | digit
  | word
  | symbol

def charLead (c : Char) : Lead :=
  if c = '"' then .quote
  else if c.isDigit then .digit
  else if isWordStart c then .word
  else .symbol

def kindLead : Kind → Lead
  | .string _ => .quote
  | .number _ => .digit
  | .keyword _ | .identifier => .word
  | .punctuator _ | .eof => .symbol

variable {kind : Kind} {c : Char} {cs : List Char}

theorem charLead_of_isDigit (digit : c.isDigit = true) : charLead c = .digit := by
  unfold charLead
  rw [if_neg, if_pos digit]
  rintro rfl
  cases digit

theorem charLead_of_isWordStart (start : isWordStart c = true) : charLead c = .word := by
  unfold charLead
  rw [if_neg, if_neg, if_pos start]
  · intro digit
    rw [isWordStart_of_isDigit digit] at start
    cases start
  · rintro rfl
    cases start

theorem Keyword.isWord (k : Keyword) : ∃ c word, k.spelling.toList = c :: word ∧
    isWordStart c = true ∧ ∀ d ∈ word, isWordPart d = true := by
  cases k <;> exact ⟨_, _, rfl, rfl, List.all_eq_true.mp rfl⟩

theorem IsToken.ne_nil (h : IsToken kind cs) : cs ≠ [] := by
  cases h with
  | punctuator p => cases p <;> decide
  | keyword k =>
    obtain ⟨c, word, spelled, -⟩ := Keyword.isWord k
    simp [spelled]
  | identifier | string | fractional => simp
  | whole some_digit => exact some_digit

theorem IsToken.lead (h : IsToken kind (c :: cs)) : charLead c = kindLead kind := by
  have digit_of {digits : List Char} (some_digit : digits ≠ [])
      (all : ∀ d ∈ digits, d.isDigit = true)
      {tail : List Char} (whole : c :: cs = digits ++ tail) : charLead c = .digit := by
    obtain ⟨d, digits, rfl⟩ := List.exists_cons_of_ne_nil some_digit
    obtain ⟨rfl, -⟩ := List.cons.inj whole
    exact charLead_of_isDigit (all _ List.mem_cons_self)
  generalize whole : c :: cs = lexeme at h
  cases h with
  | punctuator p => cases p <;> cases whole <;> rfl
  | keyword k =>
    obtain ⟨d, word, spelled, start, -⟩ := Keyword.isWord k
    obtain ⟨rfl, -⟩ := List.cons.inj (whole.trans spelled)
    exact charLead_of_isWordStart start
  | identifier start =>
    obtain ⟨rfl, -⟩ := List.cons.inj whole
    exact charLead_of_isWordStart start
  | string =>
    obtain ⟨rfl, -⟩ := List.cons.inj whole
    rfl
  | whole some_digit all => exact digit_of some_digit all (whole.trans (List.append_nil _).symm)
  | fractional some_digit all => exact digit_of some_digit all whole

theorem IsToken.of_quote (h : IsToken kind ('"' :: cs)) :
    ∃ contents, '"' ∉ contents ∧ cs = contents ++ ['"'] ∧
      kind = .string (String.ofList contents) := by
  have lead := h.lead
  generalize whole : '"' :: cs = lexeme at h
  cases h with
  | string closed =>
    obtain ⟨-, rfl⟩ := List.cons.inj whole
    exact ⟨_, closed, rfl, rfl⟩
  | _ => cases lead

def pointed (fraction : List Char) : List Char :=
  if fraction = [] then [] else '.' :: fraction

theorem isDigit_head_pointed (fraction : List Char) :
    ∀ c ∈ (pointed fraction).head?, c.isDigit = false := by
  unfold pointed
  split <;> rintro _ ⟨⟩
  rfl

theorem pointed_injective : Function.Injective pointed := by
  intro xs ys same
  unfold pointed at same
  split at same <;> split at same <;> simp_all

theorem IsToken.of_digit (digit : c.isDigit = true) (h : IsToken kind (c :: cs)) :
    ∃ digits fraction value, kind = .number value ∧
      Binary64.Nearest (Numeral.value digits fraction) value ∧
      (∀ d ∈ digits, d.isDigit = true) ∧ (∀ d ∈ fraction, d.isDigit = true) ∧
      c :: cs = digits ++ pointed fraction := by
  have lead := h.lead
  rw [charLead_of_isDigit digit] at lead
  generalize whole : c :: cs = lexeme at h
  cases h with
  | whole _ all nearest => exact ⟨_, [], _, rfl, nearest, all, by simp, by simp [pointed]⟩
  | fractional _ all some_digit all' nearest =>
    exact ⟨_, _, _, rfl, nearest, all, all', by rw [pointed, if_neg some_digit]⟩
  | _ => cases lead

theorem wordKind_of_keyword (k : Keyword) : Piece.wordKind k.spelling.toList = .keyword k := by
  have spelled := Keyword.ofSpelling?_eq_some_iff.mpr (rfl : k.spelling = k.spelling)
  rw [Piece.wordKind, String.ofList_toList, spelled]

theorem wordKind_of_other (other : ∀ k : Keyword, k.spelling.toList ≠ cs) :
    Piece.wordKind cs = .identifier := by
  unfold Piece.wordKind
  split
  next k found =>
    have spelled := Keyword.ofSpelling?_eq_some_iff.mp found
    exact absurd (by rw [spelled, String.toList_ofList]) (other k)
  · rfl

theorem IsToken.of_word (start : isWordStart c = true) (h : IsToken kind (c :: cs)) :
    kind = Piece.wordKind (c :: cs) ∧ ∀ d ∈ c :: cs, isWordPart d = true := by
  have lead := h.lead
  rw [charLead_of_isWordStart start] at lead
  generalize whole : c :: cs = lexeme at h
  cases h with
  | keyword k =>
    obtain ⟨d, word, spelled, start', parts⟩ := Keyword.isWord k
    rw [wordKind_of_keyword, spelled]
    exact ⟨rfl, List.forall_mem_cons.mpr ⟨isWordPart_of_isWordStart start', parts⟩⟩
  | identifier start' parts other =>
    rw [wordKind_of_other other]
    exact ⟨rfl, List.forall_mem_cons.mpr ⟨isWordPart_of_isWordStart start', parts⟩⟩
  | _ => cases lead

theorem IsToken.of_symbol (symbol : charLead c = .symbol) (h : IsToken kind (c :: cs)) :
    ∃ p : Punctuator, kind = .punctuator p ∧ p.spelling = c :: cs := by
  have lead := h.lead
  rw [symbol] at lead
  generalize whole : c :: cs = lexeme at h
  cases h with
  | punctuator p => exact ⟨p, rfl, rfl⟩
  | _ => cases lead

theorem Punctuator.spelling_injective : Function.Injective Punctuator.spelling := by
  intro p q same
  cases p <;> cases q <;> first | rfl | cases same

-- What is skipped is found by its first two characters.

theorem throughClose_block (text rest : List Char) (first : ¬['*', '/'] <:+: text ++ ['*']) :
    Piece.throughClose (text ++ '*' :: '/' :: rest) = (text ++ ['*', '/'], rest) := by
  induction text with
  | nil => rfl
  | cons c text ih =>
    have inside := ih fun mark => first (List.infix_cons mark)
    rw [List.cons_append, Piece.throughClose, inside, List.cons_append]
    rintro tail rfl same
    refine first (List.IsPrefix.isInfix ?_)
    cases text with
    | nil => cases same
    | cons d text =>
      obtain ⟨rfl, -⟩ := List.cons.inj same
      exact ⟨text ++ ['*'], rfl⟩

theorem throughClose_open {cs : List Char} (never : ¬['*', '/'] <:+: cs) :
    Piece.throughClose cs = (cs, []) := by
  induction cs with
  | nil => rfl
  | cons c cs ih =>
    rw [Piece.throughClose, ih fun mark => never (List.infix_cons mark)]
    rintro tail rfl rfl
    exact never ⟨[], tail, rfl⟩

theorem exists_block (cs : List Char) :
    ¬['*', '/'] <:+: cs ∨
      ∃ text rest, cs = text ++ '*' :: '/' :: rest ∧ ¬['*', '/'] <:+: text ++ ['*'] := by
  fun_induction Piece.throughClose cs with
  | case1 => exact .inl (by simp)
  | case2 rest => exact .inr ⟨[], rest, rfl, by decide⟩
  | case3 c rest other ih =>
    have not_here (mark : ['*', '/'] <+: c :: rest) : False := by
      obtain ⟨tail, same⟩ := mark
      obtain ⟨rfl, rfl⟩ := List.cons.inj same
      exact other tail rfl rfl
    rcases ih with never | ⟨text, tail, rfl, first⟩
    · left
      intro mark
      rcases List.infix_cons_iff.mp mark with here | later
      · exact not_here here
      · exact never later
    · refine .inr ⟨c :: text, tail, rfl, fun mark => ?_⟩
      rcases List.infix_cons_iff.mp mark with here | later
      · exact not_here (here.trans ⟨'/' :: tail, by simp⟩)
      · exact first later

theorem comment?_of_skips {p : Piece} {rest : List Char} (h : Skips p rest) :
    (∃ c, p = .blank c ∧ isSpace c = true) ∨ Piece.comment? (p.text ++ rest) = some (p, rest) := by
  cases h with
  | blank space => exact .inl ⟨_, rfl, space⟩
  | @line text rest unbroken stop =>
    right
    have run : ∀ c ∈ text, (c != '\n') = true := fun c mem => by
      simpa using fun same : c = '\n' => unbroken (same ▸ mem)
    have stop' : ∀ c ∈ rest.head?, (c != '\n') = false := fun c mem => by simpa using stop c mem
    simp [Piece.text, Piece.comment?, takeWhile_run run stop', dropWhile_run run stop']
  | @block text rest first =>
    right
    have found := throughClose_block text rest first
    simp [Piece.text, Piece.comment?, found]
  | @openBlock text never =>
    right
    simp [Piece.text, Piece.comment?, throughClose_open never]

theorem skips_of_comment? {cs rest : List Char} {p : Piece}
    (found : Piece.comment? cs = some (p, rest)) : Skips p rest := by
  unfold Piece.comment? at found
  split at found
  next tail =>
    obtain ⟨rfl, rfl⟩ := Prod.mk.inj (Option.some.inj found)
    refine .line (fun mem => ?_) fun c mem => ?_
    · simpa using List.mem_takeWhile_imp mem
    · have stop := List.head?_dropWhile_not (p := (· != '\n')) (l := tail)
      rw [mem] at stop
      simpa using stop
  next tail =>
    obtain ⟨rfl, rfl⟩ := Prod.mk.inj (Option.some.inj found)
    rcases exists_block tail with never | ⟨text, rest, rfl, first⟩
    · rw [throughClose_open never]
      exact .openBlock never
    · rw [throughClose_block text rest first]
      exact .block first
  · cases found

theorem skippable_of_comment? {found : Piece × List Char} (h : Piece.comment? cs = some found) :
    Skippable cs :=
  ⟨found.1, found.2, Piece.comment?_append h, skips_of_comment? h⟩

theorem skippable_iff : Skippable cs ↔ (∃ c rest, cs = c :: rest ∧ isSpace c = true) ∨
    ∃ mark rest, cs = '/' :: mark :: rest ∧ (mark = '/' ∨ mark = '*') := by
  constructor
  · rintro ⟨p, rest, rfl, skips⟩
    cases skips with
    | blank space => exact .inl ⟨_, _, rfl, space⟩
    | line => exact .inr ⟨'/', _, rfl, .inl rfl⟩
    | block | openBlock => exact .inr ⟨'*', _, rfl, .inr rfl⟩
  · rintro (⟨c, rest, rfl, space⟩ | ⟨mark, rest, rfl, rfl | rfl⟩)
    · exact ⟨.blank c, rest, rfl, .blank space⟩
    · exact skippable_of_comment? rfl
    · exact skippable_of_comment? rfl

theorem Skips.skippable {p : Piece} {rest : List Char} (h : Skips p rest) :
    Skippable (p.text ++ rest) :=
  ⟨p, rest, rfl, h⟩

theorem Skippable.append (h : Skippable cs) (more : List Char) : Skippable (cs ++ more) := by
  rw [skippable_iff] at h ⊢
  rcases h with ⟨c, rest, rfl, space⟩ | ⟨mark, rest, rfl, marks⟩
  · exact .inl ⟨c, rest ++ more, rfl, space⟩
  · exact .inr ⟨mark, rest ++ more, rfl, marks⟩

theorem charLead_symbol (quote : c ≠ '"') (digit : ¬c.isDigit = true)
    (start : ¬isWordStart c = true) : charLead c = .symbol := by
  rw [charLead, if_neg quote, if_neg digit, if_neg start]

theorem IsToken.unique {kind' : Kind} (h : IsToken kind cs) (h' : IsToken kind' cs) :
    kind = kind' := by
  obtain ⟨c, cs, rfl⟩ := List.exists_cons_of_ne_nil h.ne_nil
  by_cases quote : c = '"'
  · subst quote
    obtain ⟨contents, -, rfl, rfl⟩ := h.of_quote
    obtain ⟨contents', -, same, rfl⟩ := h'.of_quote
    rw [List.append_cancel_right same]
  by_cases digit : c.isDigit = true
  -- The digits end at the point, so both numerals have the same parts, and one nearest double.
  · obtain ⟨digits, fraction, value, rfl, nearest, all, all', whole⟩ := h.of_digit digit
    obtain ⟨digits', fraction', value', rfl, nearest', many, many', whole'⟩ := h'.of_digit digit
    have digits_eq : digits = digits' := by
      rw [← takeWhile_run all (isDigit_head_pointed fraction), ← whole, whole',
        takeWhile_run many (isDigit_head_pointed fraction')]
    subst digits_eq
    have fraction_eq := pointed_injective (List.append_cancel_left (whole.symm.trans whole'))
    subst fraction_eq
    rw [nearest.unique nearest']
  by_cases start : isWordStart c = true
  · rw [(h.of_word start).1, (h'.of_word start).1]
  have symbol := charLead_symbol quote digit start
  obtain ⟨p, rfl, spelled⟩ := h.of_symbol symbol
  obtain ⟨q, rfl, spelled'⟩ := h'.of_symbol symbol
  rw [Punctuator.spelling_injective (spelled.trans spelled'.symm)]

end ScopeScript.Lexicon
