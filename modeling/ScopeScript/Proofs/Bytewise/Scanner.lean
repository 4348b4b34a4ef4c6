import ScopeScript.Proofs.Bytewise.Offsets
import ScopeScript.Proofs.Scanning.Lines
import ScopeScript.Proofs.Values.Input

set_option autoImplicit false

namespace ScopeScript

namespace Bytewise

inductive Found where
  | skipped
  | token (kind : Kind)
  | fault (cause : LexicalFault)

def Found.ofPiece : Piece → Found
  | .blank _ | .comment _ => .skipped
  | .lexeme kind _ => .token kind
  | .unexpected c => .fault (.unexpectedCharacter c)
  | .unclosed _ => .fault .unterminatedString

def followers : Char → List Char
  | '-' => ['-', '=']
  | '+' => ['+', '=']
  | '*' | '/' | '%' | '!' | '=' | '<' | '>' => ['=']
  | _ => []

section

variable (text : String)

def isNext (c : Char) (i : Nat) : Reading Bool := do
  if i < text.utf8ByteSize then return (← peek text i) = c else return false

def operator (c : Char) (i : Nat) : List Char → Reading (Option Punctuator × Nat)
  | [] => return (Punctuator.ofChar? c, i)
  | d :: more => do
    if ← isNext text d i then return (Punctuator.ofPair? c d, i + 1) else operator c i more

def isPointed (i : Nat) : Reading Bool := do
  if (← peek text i) = '.' then return (← peek text (i + 1)).isDigit else return false

namespace Spot

variable (s : Spot)

def symbol (c : Char) : Reading (Found × Spot) := do
  match ← operator text c (s.curr + 1) (followers c) with
  | (some p, i) => return (.token (.punctuator p), { s with curr := i })
  | (none, _) =>
    -- The first character of what is left is read as a whole.
    match (← cut text s.curr text.utf8ByteSize).toList.head? with
    | none => throw .fallback
    | some d => return (.fault (.unexpectedCharacter d), { s with curr := s.curr + d.utf8Size })

def string : Reading (Found × Spot) := do
  let quote ← skipWhile text (· != '"') { s with curr := s.curr + 1 }
  if quote.curr < text.utf8ByteSize then
    let _ ← byteAt text quote.curr
    let behind := { quote with curr := quote.curr + 1 }
    let contents ← cut text (s.curr + 1) (behind.curr - 1)
    return (.token (.string contents), behind)
  else return (.fault .unterminatedString, quote)

def fraction : Reading Spot := do
  if ← isPointed text s.curr then skipWhile text Char.isDigit { s with curr := s.curr + 1 }
  else return s

def number : Reading (Found × Spot) := do
  let whole ← skipWhile text Char.isDigit { s with curr := s.curr + 1 }
  let behind ← whole.fraction text
  match Numeral.read? (← cut text s.curr behind.curr).toList with
  | none => throw .fallback
  | some value => return (.token (.number value), behind)

def word : Reading (Found × Spot) := do
  let behind ← skipWhile text isWordPart { s with curr := s.curr + 1 }
  return (.token (Piece.wordKind (← cut text s.curr behind.curr).toList), behind)

def slash : Reading (Found × Spot) := do
  if ← isNext text '/' (s.curr + 1) then
    return (.skipped, { s with curr := ← skipTo text '\n' (s.curr + 2) })
  else if ← isNext text '*' (s.curr + 1) then
    let i ← skipThrough text ['*', '/'] (s.curr + 2)
    return (.skipped, ⟨i, s.line + (← countLines text (s.curr + 2) i)⟩)
  else s.symbol text '/'

def step : Reading (Found × Spot) := do
  let c ← byteAt text s.curr
  if isSpace c then
    return (.skipped, ⟨s.curr + 1, if c = '\n' then s.line + 1 else s.line⟩)
  else if c = '"' then s.string text
  else if c.isDigit then s.number text
  else if isWordStart c then s.word text
  else if c = '/' then s.slash text
  else s.symbol text c

end Spot

/-- The item that the scanner at a spot gives next, and the spot behind it. The end of the text
counts as one byte, and there is no item behind it. -/
def next (s : Spot) : Reading (Option ScanItem × Spot) := do
  if _ : s.curr < text.utf8ByteSize then
    match ← s.step text with
    | (.fault cause, behind) => return (some (.error (.lexical behind.line cause)), behind)
    | (.token kind, behind) =>
      let lexeme ← cut text s.curr behind.curr
      return (some (.ok ⟨kind, lexeme, behind.line⟩), behind)
    | (.skipped, behind) =>
      if _ : s.curr < behind.curr then next behind else throw (.stuck s.curr)
  else if s.curr = text.utf8ByteSize then
    return (some (.ok ⟨.eof, "", s.line⟩), { s with curr := s.curr + 1 })
  else return (none, s)
termination_by text.utf8ByteSize - s.curr

end

variable {text : String} {front rest : List Char} {c d : Char} {s : Spot}

-- Characters from 128 on begin nothing.

section

variable (high : 128 ≤ c.toNat)

include high

theorem ne_of_beyond (low : d.toNat < 128) : c ≠ d := by
  rintro rfl
  omega

theorem isSpace_of_beyond : isSpace c = false := by
  simp [isSpace, ne_of_beyond high]

theorem isDigit_of_beyond : c.isDigit = false := by
  refine Bool.eq_false_iff.mpr fun digit => ?_
  have bounds : 48 ≤ c.toNat ∧ c.toNat ≤ 57 := Char.isDigit_iff_toNat.mp digit
  omega

theorem isWordPart_of_beyond : isWordPart c = false := by
  have value : c.toNat = c.val.toNat := rfl
  have letter : c.isAlpha = false := by
    simp only [Char.isAlpha, Char.isUpper, Char.isLower, ge_iff_le, UInt32.le_iff_toNat_le,
      Bool.or_eq_false_iff, decide_eq_false_iff_not, Bool.and_eq_false_iff]
    simp
    omega
  simp [isWordPart, Char.isAlphanum, letter, isDigit_of_beyond high, ne_of_beyond high]

theorem isWordStart_of_beyond : isWordStart c = false := by
  refine Bool.eq_false_iff.mpr fun start => ?_
  have part := isWordPart_of_beyond high
  rw [isWordPart_of_isWordStart start] at part
  cases part

theorem ofChar?_of_beyond : Punctuator.ofChar? c = none := by
  unfold Punctuator.ofChar?
  split <;> first | rfl | exact absurd high (by decide)

theorem ofPair?_of_beyond (d : Char) : Punctuator.ofPair? c d = none := by
  unfold Punctuator.ofPair?
  split <;> first | rfl | exact absurd high (by decide)

theorem followers_of_beyond : followers c = [] := by
  unfold followers
  split <;> first | rfl | exact absurd high (by decide)

end

-- Steps.

theorem Spot.past_append (s : Spot) (xs ys : List Char) :
    s.past (xs ++ ys) = (s.past xs).past ys := by
  simp only [Spot.past, byteLength_append, lineBreaks_append, Nat.add_assoc]

theorem Stands.past {front mid back : List Char} (h : Stands text front (mid ++ back) s.curr) :
    Stands text (front ++ mid) back (s.past mid).curr :=
  h.forward

theorem Spot.past_singleton (s : Spot) (inLine : c ≠ '\n') :
    s.past [c] = { s with curr := s.curr + c.utf8Size } := by
  simp [Spot.past, byteLength, lineBreaks, inLine]

theorem Spot.past_cons (s : Spot) (cs : List Char) (size : c.utf8Size = 1) (inLine : c ≠ '\n') :
    s.past (c :: cs) = ({ s with curr := s.curr + 1 } : Spot).past cs := by
  simp [Spot.past, byteLength, lineBreaks, size, inLine, Nat.add_assoc]

theorem utf8Size_of_lt (low : c.toNat < 128) : c.utf8Size = 1 := by
  obtain ⟨b, code, -⟩ := encode_ascii low
  rw [← String.length_utf8EncodeChar, code, List.length_singleton]

theorem Stands.next_ascii {i : Nat} (h : Stands text front (c :: rest) i) (low : c.toNat < 128) :
    Stands text (front ++ [c]) rest (i + 1) := by
  have next := h.next
  rwa [utf8Size_of_lt low] at next

theorem isNext_eq {i : Nat} (h : Stands text front rest i) (low : d.toNat < 128) :
    isNext text d i = .ok (decide (rest.head? = some d)) := by
  unfold isNext
  cases rest with
  | nil =>
    rw [if_neg (Nat.not_lt.mpr (Nat.le_of_eq h.atEnd))]
    rfl
  | cons c rest =>
    obtain ⟨c', read, read', alike⟩ := h.byteAt_eq
    have same : c' = d ↔ c = d := by
      have iff := h.byteAt?_eq_some_iff low
      rwa [read', List.head?_cons, Option.some_inj, Option.some_inj] at iff
    rw [if_pos h.inside, peek, if_pos h.inside, read]
    change Except.ok (decide (c' = d)) = _
    simp only [same, List.head?_cons, Option.some_inj]

theorem mem_followers_iff : d ∈ followers c ↔ (Punctuator.ofPair? c d).isSome := by
  constructor
  · intro mem
    unfold followers at mem
    split at mem <;> simp only [List.mem_cons, List.not_mem_nil, or_false] at mem <;>
      first | exact mem.elim | (rcases mem with rfl | rfl <;> rfl)
  · intro pair
    unfold Punctuator.ofPair? at pair
    split at pair <;> first | decide | cases pair

theorem lt_of_mem_followers (mem : d ∈ followers c) : d.toNat < 128 := by
  unfold followers at mem
  split at mem <;> simp only [List.mem_cons, List.not_mem_nil, or_false] at mem <;>
    first | exact mem.elim | (rcases mem with rfl | rfl <;> decide)

theorem operator_eq {i : Nat} (h : Stands text front rest i) (c : Char) {ds : List Char}
    (low : ∀ d ∈ ds, d.toNat < 128) :
    operator text c i ds = .ok
      (match rest.head?.filter (· ∈ ds) with
        | some d => (Punctuator.ofPair? c d, i + 1)
        | none => (Punctuator.ofChar? c, i)) := by
  induction ds with
  | nil => cases rest <;> rfl
  | cons d ds ih =>
    obtain ⟨first, others⟩ := List.forall_mem_cons.mp low
    rw [operator, isNext_eq h first]
    by_cases here : rest.head? = some d
    · rw [here]
      simp [Option.filter]
      rfl
    · change (if decide (rest.head? = some d) = true then _ else _) = _
      rw [if_neg (by simpa using here), ih others]
      cases rest with
      | nil => rfl
      | cons d' rest =>
        have other : d' ≠ d := fun same => here (same ▸ rfl)
        simp [Option.filter, other]

theorem operator_followers {i : Nat} (h : Stands text front rest i) (c : Char) :
    operator text c i (followers c) = .ok
      (match rest.head?.bind (Punctuator.ofPair? c) with
        | some p => (some p, i + 1)
        | none => (Punctuator.ofChar? c, i)) := by
  rw [operator_eq h c fun _ => lt_of_mem_followers]
  cases rest with
  | nil => rfl
  | cons d rest =>
    rw [List.head?_cons, Option.bind_some]
    by_cases mem : d ∈ followers c
    · obtain ⟨p, pair⟩ := Option.isSome_iff_exists.mp (mem_followers_iff.mp mem)
      simp [Option.filter, mem, pair]
    · have none := Option.not_isSome_iff_eq_none.mp (mt mem_followers_iff.mpr mem)
      simp [Option.filter, mem, none]

theorem past_spelling (s : Spot) (p : Punctuator) :
    s.past p.spelling = { s with curr := s.curr + p.spelling.length } := by
  cases p <;> rfl

theorem symbol_unexpected (h : Stands text front (c :: rest) s.curr) (inLine : c ≠ '\n')
    (none : operator text d (s.curr + 1) (followers d) = .ok (none, s.curr + 1)) :
    s.symbol text d = .ok (.ofPiece (.unexpected c), s.past [c]) := by
  rw [Spot.symbol, none, s.past_singleton inLine, ok_bind]
  dsimp only
  rw [h.cut_end, ok_bind, String.toList_ofList]
  rfl

theorem symbol_eq (h : Stands text front (c :: rest) s.curr) (inLine : c ≠ '\n')
    (alike : Alike d c) :
    s.symbol text d =
      .ok (.ofPiece (Piece.symbol c rest).1, s.past (Piece.symbol c rest).1.text) := by
  by_cases low : c.toNat < 128
  · obtain rfl := alike.eq_of_lt low
    have tried := operator_followers (h.next_ascii low) d
    unfold Piece.symbol
    cases pair : rest.head?.bind (Punctuator.ofPair? d) with
    | some p =>
      rw [pair] at tried
      obtain ⟨e, -, pair⟩ := Option.bind_eq_some_iff.mp pair
      dsimp only [Piece.text]
      rw [Spot.symbol, tried, past_spelling, Punctuator.spelling_of_ofPair? pair]
      rfl
    | none =>
      rw [pair] at tried
      cases single : Punctuator.ofChar? d with
      | some p =>
        rw [single] at tried
        dsimp only [Piece.text]
        rw [Spot.symbol, tried, past_spelling, Punctuator.spelling_of_ofChar? single]
        rfl
      | none =>
        rw [single] at tried
        exact symbol_unexpected h inLine tried
  · have high := Nat.le_of_not_lt low
    have high' := alike.beyond high
    have bare : Piece.symbol c rest = (.unexpected c, rest) := by
      unfold Piece.symbol
      have none : rest.head?.bind (Punctuator.ofPair? c) = none := by
        cases rest with
        | nil => rfl
        | cons d rest => exact ofPair?_of_beyond high d
      rw [none, ofChar?_of_beyond high]
    rw [bare]
    refine symbol_unexpected h inLine ?_
    rw [followers_of_beyond high', operator, ofChar?_of_beyond high']
    rfl

theorem skipWhile_stands {p : Char → Bool} (h : Stands text front rest s.curr)
    (uniform : Uniform p) :
    skipWhile text p s = .ok (s.past (rest.takeWhile p)) ∧
      Stands text (front ++ rest.takeWhile p) (rest.dropWhile p)
        (s.past (rest.takeWhile p)).curr := by
  refine ⟨h.skipWhile uniform, Stands.forward ?_⟩
  rwa [List.takeWhile_append_dropWhile]

theorem string_eq (h : Stands text front ('"' :: rest) s.curr) :
    s.string text = .ok (.ofPiece (Piece.string rest).1, s.past (Piece.string rest).1.text) := by
  have inner := h.next_ascii (by decide)
  have split := List.takeWhile_append_dropWhile (p := (· != '"')) (l := rest)
  obtain ⟨skipped, behind⟩ :=
    skipWhile_stands (s := { s with curr := s.curr + 1 }) inner (uniform_ne (c := '"') (by decide))
  have past := s.past_cons (rest.takeWhile (· != '"')) (c := '"') rfl (by decide)
  rw [Spot.string, skipped, ok_bind, ← past]
  rw [← past] at behind
  unfold Piece.string
  cases tail : rest.dropWhile (· != '"') with
  | nil =>
    rw [tail] at behind
    rw [if_neg (Nat.not_lt.mpr (Nat.le_of_eq behind.atEnd))]
    rfl
  | cons quote after =>
    obtain rfl := Piece.eq_quote_of_dropWhile tail
    rw [tail] at behind split
    rw [← split] at inner
    rw [if_pos behind.inside, behind.byteAt_ascii (by decide), ok_bind]
    dsimp only
    rw [Nat.add_sub_cancel, past]
    change (cut text (s.curr + 1) (s.curr + 1 + byteLength _) >>= _) = _
    rw [inner.cut, ok_bind]
    have whole := s.past_append ('"' :: rest.takeWhile (· != '"')) ['"']
    rw [past] at whole
    exact congrArg (fun s' => Except.ok (_, s')) whole.symm

theorem uniform_isDigit : Uniform Char.isDigit :=
  uniform_of_beyond fun _ => isDigit_of_beyond

theorem uniform_isWordPart : Uniform isWordPart :=
  uniform_of_beyond fun _ => isWordPart_of_beyond

theorem ne_newline_of_isWordPart (part : isWordPart c = true) : c ≠ '\n' := by
  rintro rfl
  cases part

theorem lt_of_isWordPart (part : isWordPart c = true) : c.toNat < 128 := by
  by_contra high
  rw [isWordPart_of_beyond (Nat.le_of_not_lt high)] at part
  cases part

theorem word_eq (h : Stands text front (c :: rest) s.curr) (start : isWordStart c = true) :
    s.word text = .ok (.ofPiece (Piece.word (c :: rest)).1,
      s.past (Piece.word (c :: rest)).1.text) := by
  have part := isWordPart_of_isWordStart start
  have low := lt_of_isWordPart part
  have inner := h.next_ascii low
  have skipped := inner.skipWhile (s := { s with curr := s.curr + 1 }) uniform_isWordPart
  have past := s.past_cons (rest.takeWhile isWordPart) (utf8Size_of_lt low)
    (ne_newline_of_isWordPart part)
  have run : (c :: rest).takeWhile isWordPart = c :: rest.takeWhile isWordPart :=
    List.takeWhile_cons_of_pos part
  have whole : Stands text front
      ((c :: rest).takeWhile isWordPart ++ (c :: rest).dropWhile isWordPart) s.curr := by
    rwa [List.takeWhile_append_dropWhile]
  rw [Spot.word, skipped, ok_bind, ← past, ← run]
  change (cut text s.curr (s.curr + byteLength _) >>= _) = _
  rw [whole.cut, ok_bind, String.toList_ofList]
  rfl

theorem peek_nil {i : Nat} (h : Stands text front [] i) : peek text i = .ok '\x00' :=
  if_neg (Nat.not_lt.mpr (Nat.le_of_eq h.atEnd))

theorem peek_cons {i : Nat} (h : Stands text front (c :: rest) i) :
    ∃ d, peek text i = .ok d ∧ Alike d c := by
  obtain ⟨d, read, -, alike⟩ := h.byteAt_eq
  exact ⟨d, by rw [peek, if_pos h.inside, read], alike⟩

def Pointed : List Char → Bool
  | '.' :: d :: _ => d.isDigit
  | _ => false

theorem fraction_cases (cs : List Char) :
    (Pointed cs = true ∧ ∃ more, cs = '.' :: more ∧ more.takeWhile Char.isDigit ≠ [] ∧
      Piece.fraction cs = ('.' :: more.takeWhile Char.isDigit, more.dropWhile Char.isDigit)) ∨
    Pointed cs = false ∧ Piece.fraction cs = ([], cs) := by
  fun_cases Piece.fraction cs with
  | case1 d rest digit => exact .inl ⟨digit, d :: rest, rfl, by simp [digit], by simp [digit]⟩
  | case2 d rest digit => exact .inr ⟨Bool.eq_false_iff.mpr digit, rfl⟩
  | case3 rest other =>
    refine .inr ⟨?_, rfl⟩
    unfold Pointed
    split
    next d rest => exact (other d rest rfl).elim
    · rfl

theorem isPointed_eq {i : Nat} (h : Stands text front rest i) :
    isPointed text i = .ok (Pointed rest) := by
  unfold isPointed
  cases rest with
  | nil => rw [peek_nil h, ok_bind]; rfl
  | cons c rest =>
    obtain ⟨c', read, alike⟩ := peek_cons h
    rw [read, ok_bind]
    by_cases point : c = '.'
    · subst point
      obtain rfl := alike.eq_of_lt (by decide)
      have inner := h.next_ascii (by decide)
      cases rest with
      | nil => rw [if_pos rfl, peek_nil inner]; rfl
      | cons d rest =>
        obtain ⟨d', read', alike'⟩ := peek_cons inner
        rw [if_pos rfl, read', ok_bind, uniform_isDigit d' d alike']
        rfl
    · have other : c' ≠ '.' := by
        rintro rfl
        exact point (alike.symm.eq_of_lt (by decide))
      have none : Pointed (c :: rest) = false := by
        unfold Pointed
        split
        next same => exact absurd (List.cons.inj same).1 point
        · rfl
      rw [if_neg other, none]
      rfl

theorem fraction_eq (h : Stands text front rest s.curr) :
    s.fraction text = .ok (s.past (Piece.fraction rest).1) := by
  rw [Spot.fraction, isPointed_eq h, ok_bind]
  rcases fraction_cases rest with ⟨pointed, more, rfl, -, fraction⟩ | ⟨plain, fraction⟩
  · have skipped := (h.next_ascii (by decide)).skipWhile
      (s := { s with curr := s.curr + 1 }) uniform_isDigit
    rw [pointed, if_pos rfl, skipped, fraction, s.past_cons _ rfl (by decide)]
  · rw [plain, fraction]
    rfl

theorem read?_number (rest : List Char) (digit : c.isDigit = true) :
    Numeral.read? (Piece.number (c :: rest)).1.text =
      some (Numeral.ofParts ((c :: rest).takeWhile Char.isDigit)
        ((Piece.fraction ((c :: rest).dropWhile Char.isDigit)).1.drop 1)) := by
  have run : (c :: rest).takeWhile Char.isDigit = c :: rest.takeWhile Char.isDigit :=
    List.takeWhile_cons_of_pos digit
  have some_digit : (c :: rest).takeWhile Char.isDigit ≠ [] := run ▸ List.cons_ne_nil _ _
  have digits : ∀ d ∈ (c :: rest).takeWhile Char.isDigit, d.isDigit = true :=
    fun _ => List.mem_takeWhile_imp
  change Numeral.read? (_ ++ (Piece.fraction ((c :: rest).dropWhile Char.isDigit)).1) = _
  rcases fraction_cases ((c :: rest).dropWhile Char.isDigit) with
    ⟨-, more, -, some_digit', fraction⟩ | ⟨-, fraction⟩
  · have digits' : ∀ d ∈ more.takeWhile Char.isDigit, d.isDigit = true :=
      fun _ => List.mem_takeWhile_imp
    have read := Numeral.read?_written some_digit digits digits'
    rw [Numeral.written, if_neg some_digit'] at read
    rw [fraction]
    exact read
  · have read := Numeral.read?_written some_digit digits (List.forall_mem_nil (Char.isDigit ·))
    rw [Numeral.written, if_pos rfl] at read
    rw [fraction, List.append_nil]
    exact read

theorem number_eq (h : Stands text front (c :: rest) s.curr) (digit : c.isDigit = true) :
    s.number text = .ok (.ofPiece (Piece.number (c :: rest)).1,
      s.past (Piece.number (c :: rest)).1.text) := by
  have low : c.toNat < 128 := by
    by_contra high
    rw [isDigit_of_beyond (Nat.le_of_not_lt high)] at digit
    cases digit
  have inLine : c ≠ '\n' := by
    rintro rfl
    cases digit
  have run : (c :: rest).takeWhile Char.isDigit = c :: rest.takeWhile Char.isDigit :=
    List.takeWhile_cons_of_pos digit
  have past := s.past_cons (rest.takeWhile Char.isDigit) (utf8Size_of_lt low) inLine
  have skipped := (h.next_ascii low).skipWhile (s := { s with curr := s.curr + 1 }) uniform_isDigit
  rw [← past, ← run] at skipped
  have read := read?_number rest digit
  have whole : Stands text front
      ((Piece.number (c :: rest)).1.text ++ (Piece.number (c :: rest)).2) s.curr := by
    rwa [Piece.number_append]
  rw [← List.takeWhile_append_dropWhile (p := Char.isDigit) (l := c :: rest)] at h
  rw [Spot.number, skipped, ok_bind, fraction_eq h.past, ok_bind, ← Spot.past_append]
  change (cut text s.curr (s.curr + byteLength (Piece.number (c :: rest)).1.text) >>= _) = _
  rw [whole.cut, ok_bind, String.toList_ofList, read]
  rfl

theorem splitThrough_close_fst (cs : List Char) :
    (Segment.splitThrough ['*', '/'] cs).1 = (Piece.throughClose cs).1 := by
  have whole :=
    (Segment.splitThrough_append ['*', '/'] cs).trans (Piece.throughClose_append cs).symm
  rw [splitThrough_close] at whole
  exact List.append_cancel_right whole

theorem lineBreaks_takeWhile (cs : List Char) : lineBreaks (cs.takeWhile (· != '\n')) = 0 :=
  List.count_eq_zero.mpr fun mem => by simpa using List.mem_takeWhile_imp mem

theorem slash_line (h : Stands text front ('/' :: '/' :: rest) s.curr) :
    s.slash text = .ok (.skipped, s.past ('/' :: '/' :: rest.takeWhile (· != '\n'))) := by
  have behind := h.next_ascii (by decide)
  have skipped := (behind.next_ascii (by decide)).skipTo (d := '\n') (by decide)
  rw [Spot.slash, isNext_eq behind (by decide), ok_bind, s.past_cons _ rfl (by decide),
    Spot.past_cons _ _ rfl (by decide), Spot.past, lineBreaks_takeWhile]
  change (skipTo text '\n' (s.curr + 1 + 1) >>= _) = _
  rw [skipped]
  rfl

theorem slash_block (h : Stands text front ('/' :: '*' :: rest) s.curr) :
    s.slash text = .ok (.skipped, s.past ('/' :: '*' :: (Piece.throughClose rest).1)) := by
  have behind := h.next_ascii (by decide)
  have inner := behind.next_ascii (by decide)
  have skipped := inner.skipThrough ['*', '/'] (by simp)
  rw [splitThrough_close_fst] at skipped
  rw [← Piece.throughClose_append rest] at inner
  rw [Spot.slash, isNext_eq behind (by decide), ok_bind, isNext_eq behind (by decide), ok_bind,
    s.past_cons _ rfl (by decide), Spot.past_cons _ _ rfl (by decide)]
  change (skipThrough text ['*', '/'] (s.curr + 1 + 1) >>= _) = _
  rw [skipped, ok_bind]
  change (countLines text (s.curr + 1 + 1) _ >>= _) = _
  rw [inner.countLines]
  rfl

theorem slash_symbol (h : Stands text front ('/' :: rest) s.curr)
    (line : rest.head? ≠ some '/') (block : rest.head? ≠ some '*') :
    s.slash text =
      .ok (.ofPiece (Piece.symbol '/' rest).1, s.past (Piece.symbol '/' rest).1.text) := by
  have behind := h.next_ascii (by decide)
  rw [Spot.slash, isNext_eq behind (by decide), ok_bind, if_neg (by simpa using line),
    isNext_eq behind (by decide), ok_bind, if_neg (by simpa using block)]
  exact symbol_eq h (by decide) (.inl rfl)

theorem slash_eq (h : Stands text front ('/' :: rest) s.curr) :
    let p := ((Piece.comment? ('/' :: rest)).getD (Piece.symbol '/' rest)).1
    s.slash text = .ok (.ofPiece p, s.past p.text) := by
  by_cases line : rest.head? = some '/'
  · obtain ⟨more, rfl⟩ := List.head?_eq_some_iff.mp line
    exact slash_line h
  by_cases block : rest.head? = some '*'
  · obtain ⟨more, rfl⟩ := List.head?_eq_some_iff.mp block
    exact slash_block h
  have none : Piece.comment? ('/' :: rest) = none := by
    unfold Piece.comment?
    split
    next same => exact absurd (by rw [(List.cons.inj same).2]; rfl) line
    next same => exact absurd (by rw [(List.cons.inj same).2]; rfl) block
    · rfl
  rw [none]
  exact slash_symbol h line block

theorem comment?_of_ne_slash (other : c ≠ '/') (rest : List Char) :
    Piece.comment? (c :: rest) = none := by
  unfold Piece.comment?
  split
  next same => exact absurd (List.cons.inj same).1 other
  next same => exact absurd (List.cons.inj same).1 other
  · rfl

theorem symbol_of_beyond (high : 128 ≤ c.toNat) (rest : List Char) :
    Piece.first c rest = Piece.symbol c rest := by
  have other {d : Char} (low : d.toNat < 128) : c ≠ d := ne_of_beyond high low
  rw [Piece.first, if_neg (Bool.eq_false_iff.mp (isSpace_of_beyond high)),
    if_neg (other (by decide)), if_neg (Bool.eq_false_iff.mp (isDigit_of_beyond high)),
    if_neg (Bool.eq_false_iff.mp (isWordStart_of_beyond high)),
    comment?_of_ne_slash (other (by decide))]
  rfl

theorem step_beyond (read : byteAt text s.curr = .ok c) (high : 128 ≤ c.toNat) :
    s.step text = s.symbol text c := by
  have other {d : Char} (low : d.toNat < 128) : c ≠ d := ne_of_beyond high low
  rw [Spot.step, read, ok_bind, if_neg (Bool.eq_false_iff.mp (isSpace_of_beyond high)),
    if_neg (other (by decide)), if_neg (Bool.eq_false_iff.mp (isDigit_of_beyond high)),
    if_neg (Bool.eq_false_iff.mp (isWordStart_of_beyond high)), if_neg (other (by decide))]

theorem step_eq (h : Stands text front (c :: rest) s.curr) :
    s.step text =
      .ok (.ofPiece (Piece.first c rest).1, s.past (Piece.first c rest).1.text) := by
  obtain ⟨d, read, -, alike⟩ := h.byteAt_eq
  by_cases low : c.toNat < 128
  · obtain rfl := alike.eq_of_lt low
    rw [Spot.step, read, ok_bind]
    unfold Piece.first
    split
    next space =>
      refine congrArg (fun s' => Except.ok (_, s')) ?_
      change _ = (⟨s.curr + d.utf8Size, s.line + lineBreaks [d]⟩ : Spot)
      rw [utf8Size_of_lt low, lineBreaks, List.count_singleton]
      simp only [beq_iff_eq]
      split <;> rfl
    next space =>
    split
    next quote => subst quote; exact string_eq h
    next quote =>
    split
    next digit => exact number_eq h digit
    next digit =>
    split
    next start => exact word_eq h start
    next start =>
    split
    next slash => subst slash; exact slash_eq h
    next slash =>
      rw [comment?_of_ne_slash slash]
      refine symbol_eq h ?_ (.inl rfl)
      rintro rfl
      exact space rfl
  · have high := Nat.le_of_not_lt low
    rw [step_beyond read (alike.beyond high), symbol_of_beyond high]
    exact symbol_eq h (ne_of_beyond high (by decide)) alike

-- Items.

theorem past_lt (s : Spot) {cs : List Char} (some_char : cs ≠ []) : s.curr < (s.past cs).curr := by
  obtain ⟨c, cs, rfl⟩ := List.exists_cons_of_ne_nil some_char
  have pos := c.utf8Size_pos
  simp only [Spot.past, byteLength]
  omega

theorem Stands.piece {i : Nat} (h : Stands text front (c :: rest) i) :
    Stands text front ((Piece.first c rest).1.text ++ (Piece.first c rest).2) i := by
  rwa [Piece.first_append]

theorem next_eq (h : Stands text front (c :: rest) s.curr) :
    next text s =
      let p := (Piece.first c rest).1
      match p.item? (s.past p.text).line with
      | some item => .ok (some item, s.past p.text)
      | none => next text (s.past p.text) := by
  have taken := step_eq h
  have whole := h.piece
  have further := past_lt s (Piece.text_first_ne_nil c rest)
  rw [next, dif_pos h.inside, taken, ok_bind]
  generalize (Piece.first c rest).1 = p at *
  cases p with
  | blank | comment => exact dif_pos further
  | lexeme kind lexeme =>
    dsimp only [Found.ofPiece]
    change (cut text s.curr (s.curr + byteLength lexeme) >>= _) = _
    rw [Stands.cut (show Stands text front (lexeme ++ _) s.curr from whole)]
    rfl
  | unexpected | unclosed => rfl

theorem next_end (h : Stands text front [] s.curr) :
    next text s = .ok (some (.ok ⟨.eof, "", s.line⟩), { s with curr := s.curr + 1 }) := by
  rw [next, dif_neg (Nat.not_lt.mpr (Nat.le_of_eq h.atEnd)), if_pos h.atEnd.symm]
  rfl

theorem next_behind (outside : text.utf8ByteSize < s.curr) : next text s = .ok (none, s) := by
  rw [next, dif_neg (by omega), if_neg (by omega)]
  rfl

/-- A scanner gives these items, one after another, until there are none. Before each item it stands
between characters of the text, and behind it further on. -/
inductive Yields (text : String) : Spot → List ScanItem → Prop
  | done {here} :
    here.curr = text.utf8ByteSize + 1 → next text here = .ok (none, here) → Yields text here []
  | item {here item behind items} :
    Boundary text here.curr → next text here = .ok (some item, behind) → here.curr < behind.curr →
      Yields text behind items → Yields text here (item :: items)

theorem Yields.skip {behind : Spot} {items : List ScanItem} (yields : Yields text behind items)
    (some_item : items ≠ []) (boundary : Boundary text s.curr)
    (same : next text s = next text behind) (further : s.curr < behind.curr) :
    Yields text s items := by
  cases yields with
  | done => exact absurd rfl some_item
  | item _ given on rest => exact .item boundary (same.trans given) (Nat.lt_trans further on) rest

theorem scanPieces_ne_nil (line : Nat) (ps : List Piece) : scanPieces line ps ≠ [] := by
  rw [scanPieces_eq]
  exact List.append_ne_nil_of_right_ne_nil _ (List.cons_ne_nil _ _)

theorem yields_scanPieces {back : List Char} (h : Stands text front back s.curr) :
    Yields text s (scanPieces s.line (pieces back)) := by
  induction back using pieces.induct generalizing front s with
  | case1 =>
    rw [pieces]
    have behind : text.utf8ByteSize < s.curr + 1 := by
      rw [h.atEnd]
      exact Nat.lt_succ_self _
    exact .item h.boundary (next_end h) (Nat.lt_succ_self _)
      (.done (congrArg (· + 1) h.atEnd.symm) (next_behind behind))
  | case2 c rest ih =>
    have whole := h.piece
    have further := past_lt s (Piece.text_first_ne_nil c rest)
    have given := next_eq h
    have later := ih whole.past
    rw [pieces]
    generalize (Piece.first c rest).1 = p at *
    cases p with
    | blank | comment =>
      exact later.skip (scanPieces_ne_nil _ _) h.boundary given further
    | lexeme | unexpected | unclosed => exact .item h.boundary given further later

theorem next_advances (boundary : Boundary text s.curr) :
    ∃ item behind, next text s = .ok (some item, behind) ∧ s.curr < behind.curr ∧
      (Boundary text behind.curr ∨ behind.curr = text.utf8ByteSize + 1) := by
  obtain ⟨front, back, stands⟩ := exists_stands boundary
  have yields := yields_scanPieces stands
  generalize items_eq : scanPieces s.line (pieces back) = items at yields
  cases yields with
  | done => exact absurd items_eq (scanPieces_ne_nil _ _)
  | item _ given further later =>
    refine ⟨_, _, given, further, ?_⟩
    cases later with
    | done size => exact .inr size
    | item boundary' => exact .inl boundary'

end Bytewise

end ScopeScript
