import ScopeScript.Decimal.Numeral
import ScopeScript.Token.Basic

set_option autoImplicit false

namespace ScopeScript

def isSpace (c : Char) : Bool :=
  c = ' ' || c = '\r' || c = '\t' || c = '\n'

def isWordStart (c : Char) : Bool :=
  c.isAlpha || c = '_'

def isWordPart (c : Char) : Bool :=
  c.isAlphanum || c = '_'

theorem isWordPart_of_isWordStart {c : Char} (start : isWordStart c = true) :
    isWordPart c = true := by
  simp only [isWordStart, isWordPart, Char.isAlphanum, Bool.or_eq_true] at start ⊢
  rcases start with letter | underscore
  · exact .inl (.inl letter)
  · exact .inr underscore

theorem isWordStart_of_isDigit {c : Char} (digit : c.isDigit = true) : isWordStart c = false := by
  have bounds : 48 ≤ c.toNat ∧ c.toNat ≤ 57 := Char.isDigit_iff_toNat.mp digit
  have letter : c.isAlpha = false := by
    have value : c.toNat = c.val.toNat := rfl
    change (decide (65 ≤ c.val ∧ c.val ≤ 90) || decide (97 ≤ c.val) && decide (c.val ≤ 122)) = false
    simp [UInt32.le_iff_toNat_le]
    omega
  have other : c ≠ '_' := by
    rintro rfl
    cases digit
  simp [isWordStart, letter, other]

inductive Piece where
  | blank (c : Char)
  | comment (text : List Char)
  | lexeme (kind : Kind) (text : List Char)
  | unexpected (c : Char)
  | unclosed (text : List Char)
  deriving DecidableEq

namespace Piece

def text : Piece → List Char
  | .blank c => [c]
  | .comment text => text
  | .lexeme _ text => text
  | .unexpected c => [c]
  | .unclosed text => text

def throughClose : List Char → List Char × List Char
  | [] => ([], [])
  | '*' :: '/' :: rest => (['*', '/'], rest)
  | c :: rest => (c :: (throughClose rest).1, (throughClose rest).2)

theorem throughClose_append (cs : List Char) :
    (throughClose cs).1 ++ (throughClose cs).2 = cs := by
  fun_induction throughClose cs with
  | case1 => rfl
  | case2 rest => rfl
  | case3 c rest _ ih => simp [ih]

def comment? : List Char → Option (Piece × List Char)
  | '/' :: '/' :: rest =>
    some (.comment ('/' :: '/' :: rest.takeWhile (· != '\n')), rest.dropWhile (· != '\n'))
  | '/' :: '*' :: rest =>
    some (.comment ('/' :: '*' :: (throughClose rest).1), (throughClose rest).2)
  | _ => none

def string (rest : List Char) : Piece × List Char :=
  let contents := rest.takeWhile (· != '"')
  match rest.dropWhile (· != '"') with
  | [] => (.unclosed ('"' :: contents), [])
  | quote :: tail =>
    (.lexeme (.string (String.ofList contents)) ('"' :: contents ++ [quote]), tail)

def fraction : List Char → List Char × List Char
  | '.' :: d :: rest =>
    if d.isDigit then ('.' :: d :: rest.takeWhile Char.isDigit, rest.dropWhile Char.isDigit)
    else ([], '.' :: d :: rest)
  | rest => ([], rest)

def number (cs : List Char) : Piece × List Char :=
  let whole := cs.takeWhile Char.isDigit
  let (tail, rest) := fraction (cs.dropWhile Char.isDigit)
  (.lexeme (.number (Numeral.ofParts whole (tail.drop 1))) (whole ++ tail), rest)

/-- A word is a keyword if all of it is spelled like one. -/
def wordKind (word : List Char) : Kind :=
  match Keyword.ofSpelling? (String.ofList word) with
  | some k => .keyword k
  | none => .identifier

def word (cs : List Char) : Piece × List Char :=
  (.lexeme (wordKind (cs.takeWhile isWordPart)) (cs.takeWhile isWordPart),
    cs.dropWhile isWordPart)

/-- The longest punctuator that starts with `c`, or `c` alone as unexpected. -/
def symbol (c : Char) (rest : List Char) : Piece × List Char :=
  match rest.head?.bind (Punctuator.ofPair? c) with
  | some p => (.lexeme (.punctuator p) p.spelling, rest.drop 1)
  | none =>
    match Punctuator.ofChar? c with
    | some p => (.lexeme (.punctuator p) p.spelling, rest)
    | none => (.unexpected c, rest)

def first (c : Char) (rest : List Char) : Piece × List Char :=
  if isSpace c then (.blank c, rest)
  else if c = '"' then string rest
  else if c.isDigit then number (c :: rest)
  else if isWordStart c then word (c :: rest)
  else (comment? (c :: rest)).getD (symbol c rest)

theorem eq_quote_of_dropWhile {rest tail : List Char} {quote : Char}
    (found : rest.dropWhile (· != '"') = quote :: tail) : quote = '"' := by
  have stop := List.head?_dropWhile_not (p := (· != '"')) (l := rest)
  simpa [found] using stop

theorem string_append (rest : List Char) :
    (string rest).1.text ++ (string rest).2 = '"' :: rest := by
  have split := List.takeWhile_append_dropWhile (p := (· != '"')) (l := rest)
  unfold string
  cases tail : rest.dropWhile (· != '"') with
  | nil => simpa [text, tail] using split
  | cons quote tail' => simpa [text, tail] using split

theorem fraction_append (cs : List Char) : (fraction cs).1 ++ (fraction cs).2 = cs := by
  fun_cases fraction cs <;> simp_all

theorem number_append (cs : List Char) : (number cs).1.text ++ (number cs).2 = cs := by
  simp [number, text, List.append_assoc, fraction_append, List.takeWhile_append_dropWhile]

theorem word_append (cs : List Char) : (word cs).1.text ++ (word cs).2 = cs := by
  simp [word, text, List.takeWhile_append_dropWhile]

theorem symbol_append (c : Char) (rest : List Char) :
    (symbol c rest).1.text ++ (symbol c rest).2 = c :: rest := by
  unfold symbol
  cases pair : rest.head?.bind (Punctuator.ofPair? c) with
  | some p =>
    cases rest with
    | nil => simp at pair
    | cons d tail =>
      have spelled : p.spelling = [c, d] :=
        Punctuator.spelling_of_ofPair? (by simpa using pair)
      simp [text, spelled]
  | none =>
    cases single : Punctuator.ofChar? c with
    | some p => simp [text, Punctuator.spelling_of_ofChar? single]
    | none => simp [text]

theorem comment?_append {cs rest : List Char} {p : Piece} (h : comment? cs = some (p, rest)) :
    p.text ++ rest = cs := by
  unfold comment? at h
  split at h <;> cases h <;>
    simp [text, List.takeWhile_append_dropWhile, throughClose_append]

theorem first_append (c : Char) (rest : List Char) :
    (first c rest).1.text ++ (first c rest).2 = c :: rest := by
  unfold first
  split
  · rfl
  split
  next h => exact h ▸ string_append rest
  split
  · exact number_append _
  split
  · exact word_append _
  cases found : comment? (c :: rest) with
  | none => exact symbol_append c rest
  | some result => exact comment?_append found

theorem text_string_ne_nil (rest : List Char) : (string rest).1.text ≠ [] := by
  unfold string
  cases rest.dropWhile (· != '"') <;> simp [text]

theorem text_symbol_ne_nil (c : Char) (rest : List Char) : (symbol c rest).1.text ≠ [] := by
  have spelled (p : Punctuator) : p.spelling ≠ [] := by cases p <;> simp [Punctuator.spelling]
  unfold symbol
  split
  · exact spelled _
  split
  · exact spelled _
  · simp [text]

theorem text_comment?_ne_nil {cs rest : List Char} {p : Piece}
    (h : comment? cs = some (p, rest)) : p.text ≠ [] := by
  unfold comment? at h
  split at h <;> cases h <;> simp [text]

theorem text_first_ne_nil (c : Char) (rest : List Char) : (first c rest).1.text ≠ [] := by
  unfold first
  split
  · simp [text]
  split
  · exact text_string_ne_nil rest
  split
  next h => simp [number, text, h]
  split
  next h => simp [word, text, isWordPart_of_isWordStart h]
  cases found : comment? (c :: rest) with
  | none => exact text_symbol_ne_nil c rest
  | some result => exact text_comment?_ne_nil found

theorem length_first_lt (c : Char) (rest : List Char) :
    (first c rest).2.length < (c :: rest).length := by
  have whole := congrArg List.length (first_append c rest)
  have some_text := List.length_pos_iff.mpr (text_first_ne_nil c rest)
  simp only [List.length_append] at whole
  omega

end Piece

def pieces : List Char → List Piece
  | [] => []
  | c :: rest => (Piece.first c rest).1 :: pieces (Piece.first c rest).2
termination_by cs => cs.length
decreasing_by exact Piece.length_first_lt c rest

theorem flatMap_text_pieces (cs : List Char) : (pieces cs).flatMap Piece.text = cs := by
  fun_induction pieces cs with
  | case1 => rfl
  | case2 c rest ih => simp [ih, Piece.first_append]

end ScopeScript
