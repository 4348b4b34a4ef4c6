import Mathlib.Data.List.Basic
import ScopeScript.Proofs.Parsing.Uniformity
import ScopeScript.Token.Scan

set_option autoImplicit false

namespace ScopeScript

section

variable {α : Type} {p : α → Bool} {stop : α}

theorem takeWhile_append_stop (stops : p stop = false) (xs ys : List α) :
    (xs ++ stop :: ys).takeWhile p = xs.takeWhile p := by
  induction xs with
  | nil => simp [stops]
  | cons x xs ih =>
    rw [List.cons_append, List.takeWhile_cons, List.takeWhile_cons, ih]

theorem dropWhile_append_stop (stops : p stop = false) (xs ys : List α) :
    (xs ++ stop :: ys).dropWhile p = xs.dropWhile p ++ stop :: ys := by
  induction xs with
  | nil => simp [stops]
  | cons x xs ih =>
    rw [List.cons_append, List.dropWhile_cons, List.dropWhile_cons, ih]
    split <;> rfl

end

namespace Piece

def isOpenComment : Piece → Bool
  | .comment ('/' :: '*' :: text) => !List.isSuffixOf ['*', '/'] text
  | _ => false

def isOpen : Piece → Bool
  | .unclosed _ => true
  | p => p.isOpenComment

theorem throughClose_append_of_closed {cs : List Char}
    (closed : ['*', '/'] <:+ (throughClose cs).1) (more : List Char) :
    throughClose (cs ++ more) = ((throughClose cs).1, (throughClose cs).2 ++ more) := by
  fun_induction throughClose cs with
  | case1 => simp at closed
  | case2 rest => rfl
  | case3 c rest other ih =>
    have inside : ['*', '/'] <:+ (throughClose rest).1 := by
      rcases List.suffix_cons_iff.mp closed with same | inside
      · have whole := throughClose_append rest
        obtain ⟨rfl, tail⟩ := List.cons.inj same
        rw [← tail] at whole
        exact absurd whole.symm (other _ rfl)
      · exact inside
    cases rest with
    | nil => simp [throughClose] at inside
    | cons d rest =>
      have further := ih inside
      rw [List.cons_append, List.cons_append, throughClose]
      · rw [← List.cons_append, further]
      · rintro tail rfl same
        obtain ⟨rfl, rfl⟩ := List.cons.inj same
        exact other _ rfl rfl

theorem fraction_of_ne {c : Char} (other : c ≠ '.') (rest : List Char) :
    fraction (c :: rest) = ([], c :: rest) := by
  unfold fraction
  split
  next same => exact absurd (List.cons.inj same).1 other
  · rfl

theorem fraction_append_break (cs more : List Char) :
    fraction (cs ++ '\n' :: more) = ((fraction cs).1, (fraction cs).2 ++ '\n' :: more) := by
  rcases cs with _ | ⟨c, _ | ⟨d, rest⟩⟩
  · exact fraction_of_ne (by decide) more
  · by_cases point : c = '.'
    · subst point
      rfl
    · simp only [List.cons_append, fraction_of_ne point]
  · by_cases point : c = '.'
    · subst point
      have stops : Char.isDigit '\n' = false := by decide
      simp only [List.cons_append, fraction, takeWhile_append_stop stops,
        dropWhile_append_stop stops]
      split <;> rfl
    · simp only [List.cons_append, fraction_of_ne point]

theorem number_append_break (cs more : List Char) :
    number (cs ++ '\n' :: more) = ((number cs).1, (number cs).2 ++ '\n' :: more) := by
  have stops : Char.isDigit '\n' = false := by decide
  simp only [number, takeWhile_append_stop stops, dropWhile_append_stop stops,
    fraction_append_break]

theorem word_append_break (cs more : List Char) :
    word (cs ++ '\n' :: more) = ((word cs).1, (word cs).2 ++ '\n' :: more) := by
  have stops : isWordPart '\n' = false := by decide
  simp only [word, takeWhile_append_stop stops, dropWhile_append_stop stops]

theorem string_append_of_closed {rest : List Char} (closed : ¬(string rest).1.isOpen)
    (more : List Char) : string (rest ++ more) = ((string rest).1, (string rest).2 ++ more) := by
  have whole := List.takeWhile_append_dropWhile (p := (· != '"')) (l := rest)
  unfold string at closed ⊢
  cases tail : rest.dropWhile (· != '"') with
  | nil => simp [tail, isOpen] at closed
  | cons quote after =>
    have inside : (rest.takeWhile (· != '"')).length ≠ rest.length := fun same => by
      have lengths := congrArg List.length whole
      simp [tail, same] at lengths
    simp [List.dropWhile_append, List.takeWhile_append, tail, inside]

theorem symbol_append_break (c : Char) (rest more : List Char) :
    symbol c (rest ++ '\n' :: more) = ((symbol c rest).1, (symbol c rest).2 ++ '\n' :: more) := by
  have unpaired : Punctuator.ofPair? c '\n' = none := by
    unfold Punctuator.ofPair?
    split <;> simp_all
  unfold symbol
  cases rest with
  | nil =>
    simp only [List.nil_append, List.head?_cons, Option.bind_some, unpaired, List.head?_nil,
      Option.bind_none]
    split <;> rfl
  | cons d rest =>
    simp only [List.cons_append, List.head?_cons, Option.bind_some]
    split
    · rfl
    · split <;> rfl

theorem comment?_of_ne {c d : Char} (other : c ≠ '/' ∨ d ≠ '/' ∧ d ≠ '*') (rest : List Char) :
    comment? (c :: d :: rest) = none := by
  unfold comment?
  split <;> simp_all

theorem comment?_append_break {cs : List Char}
    (closed : ∀ found ∈ comment? cs, ¬found.1.isOpen) (more : List Char) :
    comment? (cs ++ '\n' :: more) =
      (comment? cs).map fun found => (found.1, found.2 ++ '\n' :: more) := by
  rcases cs with _ | ⟨c, _ | ⟨d, rest⟩⟩
  · cases more <;> rfl
  · have none : comment? [c] = none := by
      unfold comment?
      split <;> simp_all
    rw [List.singleton_append, comment?_of_ne (.inr (by decide)), none]
    rfl
  · by_cases starts : c = '/' ∧ (d = '/' ∨ d = '*')
    · obtain ⟨rfl, rfl | rfl⟩ := starts
      · have line := @takeWhile_append_stop _ (· != '\n') '\n' (by decide) rest more
        have after := @dropWhile_append_stop _ (· != '\n') '\n' (by decide) rest more
        simp only [List.cons_append, comment?, line, after]
        rfl
      · have ends : ['*', '/'] <:+ (throughClose rest).1 := by
          simpa [comment?, isOpen, isOpenComment] using closed
        simp [comment?, throughClose_append_of_closed ends]
    · have other : c ≠ '/' ∨ d ≠ '/' ∧ d ≠ '*' := by
        grind
      rw [List.cons_append, List.cons_append, comment?_of_ne other, comment?_of_ne other]
      rfl

theorem first_append_break {c : Char} {rest : List Char} (closed : ¬(first c rest).1.isOpen)
    (more : List Char) :
    first c (rest ++ '\n' :: more) = ((first c rest).1, (first c rest).2 ++ '\n' :: more) := by
  unfold first at closed ⊢
  split
  · rfl
  split
  · exact string_append_of_closed (by simp_all) _
  split
  · exact number_append_break (c :: rest) more
  split
  · exact word_append_break (c :: rest) more
  -- What is left is a comment, or else a symbol.
  have commented : ∀ found ∈ comment? (c :: rest), ¬found.1.isOpen := by
    intro found same
    simp_all
  have after := comment?_append_break commented more
  rw [List.cons_append] at after
  rw [after, symbol_append_break]
  cases comment? (c :: rest) <;> rfl

end Piece

theorem pieces_append_break {cs : List Char} (closed : ∀ p ∈ pieces cs, ¬p.isOpen)
    (more : List Char) : pieces (cs ++ '\n' :: more) = pieces cs ++ .blank '\n' :: pieces more := by
  induction cs using pieces.induct with
  | case1 =>
    rw [List.nil_append, pieces, pieces]
    rfl
  | case2 c rest ih =>
    rw [pieces] at closed
    have here := Piece.first_append_break (closed _ List.mem_cons_self) more
    rw [List.cons_append, pieces, pieces, here, List.cons_append]
    exact congrArg _ (ih fun p mem => closed p (List.mem_cons_of_mem _ mem))

-- Items.

def ScanItem.mapLine (g : Nat → Nat) : ScanItem → ScanItem
  | .ok t => .ok (t.mapLine g)
  | .error fault => .error (fault.mapLine g)

theorem scanPieces_add (k line : Nat) (ps : List Piece) :
    scanPieces (line + k) ps = (scanPieces line ps).map (ScanItem.mapLine (· + k)) := by
  induction ps generalizing line with
  | nil => rfl
  | cons p rest ih =>
    have next : line + k + lineBreaks p.text = line + lineBreaks p.text + k := by omega
    cases p <;> simp only [scanPieces, next, ih] <;> rfl

theorem scannedTokens_map (g : Nat → Nat) (items : List ScanItem) :
    scannedTokens (items.map (ScanItem.mapLine g)) =
      (scannedTokens items).map (Token.mapLine g) := by
  induction items with
  | nil => rfl
  | cons item rest ih =>
    cases item with
    | ok t => exact congrArg (t.mapLine g :: ·) ih
    | error fault => exact ih

theorem scanFaults_map (g : Nat → Nat) (items : List ScanItem) :
    scanFaults (items.map (ScanItem.mapLine g)) =
      (scanFaults items).map (Diagnostic.mapLine g) := by
  induction items with
  | nil => rfl
  | cons item rest ih =>
    cases item with
    | ok t => exact ih
    | error fault => exact congrArg (fault.mapLine g :: ·) ih

def Piece.item? (line : Nat) : Piece → Option ScanItem
  | .blank _ | .comment _ => none
  | .lexeme kind text => some (.ok ⟨kind, String.ofList text, line⟩)
  | .unexpected c => some (.error (.lexical line (.unexpectedCharacter c)))
  | .unclosed _ => some (.error (.lexical line .unterminatedString))

def itemsOf (line : Nat) : List Piece → List ScanItem
  | [] => []
  | p :: rest =>
    let next := line + lineBreaks p.text
    (p.item? next).toList ++ itemsOf next rest

theorem scanPieces_append (line : Nat) (ps qs : List Piece) :
    scanPieces line (ps ++ qs) =
      itemsOf line ps ++ scanPieces (line + lineBreaks (ps.flatMap Piece.text)) qs := by
  induction ps generalizing line with
  | nil => rfl
  | cons p rest ih =>
    have next : line + lineBreaks ((p :: rest).flatMap Piece.text) =
        line + lineBreaks p.text + lineBreaks (rest.flatMap Piece.text) := by
      simp [lineBreaks, Nat.add_assoc]
    rw [List.cons_append, next]
    cases p <;> simp [scanPieces, itemsOf, Piece.item?, ih]

theorem scanPieces_eq (line : Nat) (ps : List Piece) :
    scanPieces line ps =
      itemsOf line ps ++ [.ok ⟨.eof, "", line + lineBreaks (ps.flatMap Piece.text)⟩] := by
  have whole := scanPieces_append line ps []
  rwa [List.append_nil] at whole

theorem exists_mem_itemsOf_iff {line : Nat} {ps : List Piece} {kind : Kind} {word : String} :
    (∃ t ∈ scannedTokens (itemsOf line ps), t.kind = kind ∧ t.lexeme = word) ↔
      ∃ text, .lexeme kind text ∈ ps ∧ String.ofList text = word := by
  induction ps generalizing line with
  | nil => simp [itemsOf, scannedTokens]
  | cons p rest ih =>
    cases p with
    | lexeme kind' text =>
      let first : Token := ⟨kind', String.ofList text, line + lineBreaks text⟩
      have tokens : scannedTokens (itemsOf line (.lexeme kind' text :: rest)) =
          first :: scannedTokens (itemsOf (line + lineBreaks text) rest) := rfl
      rw [tokens, List.exists_mem_cons_iff, ih]
      constructor
      · rintro (⟨rfl, rfl⟩ | ⟨text, mem, spelled⟩)
        · exact ⟨text, List.mem_cons_self, rfl⟩
        · exact ⟨text, List.mem_cons_of_mem _ mem, spelled⟩
      · rintro ⟨text, mem, spelled⟩
        cases mem with
        | head => exact .inl ⟨rfl, spelled⟩
        | tail _ mem => exact .inr ⟨text, mem, spelled⟩
    | _ =>
      refine ih.trans (exists_congr fun text => and_congr_left fun _ => ?_)
      simp

-- Texts.

theorem kind_ne_eof_of_mem_pieces {cs : List Char} {kind : Kind} {text : List Char}
    (mem : .lexeme kind text ∈ pieces cs) : kind ≠ .eof := by
  have first (c : Char) (rest : List Char) : ∀ kind text,
      (Piece.first c rest).1 = .lexeme kind text → kind ≠ .eof := by
    rintro _ text same rfl
    unfold Piece.first Piece.string Piece.number Piece.word Piece.wordKind Piece.symbol
      Piece.comment? at same
    repeat' split at same
    all_goals simp at same
  induction cs using pieces.induct with
  | case1 => simp [pieces] at mem
  | case2 c rest ih =>
    rw [pieces] at mem
    rcases List.mem_cons.mp mem with here | later
    · exact first c rest _ _ here.symm
    · exact ih later

def wordsOf (source : String) : List Token := scannedTokens (itemsOf 1 (pieces source.toList))

theorem scannedTokens_scan (source : String) :
    scannedTokens (scan source) =
      wordsOf source ++ [⟨.eof, "", 1 + lineBreaks source.toList⟩] := by
  unfold scan wordsOf
  rw [scanPieces_eq, flatMap_text_pieces, scannedTokens, List.filterMap_append, ← scannedTokens]
  rfl

theorem kind_ne_eof_of_mem_wordsOf {source : String} {t : Token} (mem : t ∈ wordsOf source) :
    t.kind ≠ .eof := by
  obtain ⟨text, inside, -⟩ := exists_mem_itemsOf_iff.mp ⟨t, mem, rfl, rfl⟩
  exact kind_ne_eof_of_mem_pieces inside

def EndsInComment (source : String) : Prop :=
  ∃ p ∈ pieces source.toList, p.isOpenComment

instance : DecidablePred EndsInComment := fun source =>
  inferInstanceAs (Decidable (∃ p ∈ pieces source.toList, p.isOpenComment))

theorem unclosed_notMem {line : Nat} {ps : List Piece}
    (clean : scanFaults (scanPieces line ps) = [])
    (text : List Char) : .unclosed text ∉ ps := by
  induction ps generalizing line with
  | nil => simp
  | cons p rest ih =>
    cases p with
    | unclosed | unexpected => cases clean
    | blank | comment | lexeme => simpa using ih clean

theorem closed_of_scan {source : String} (clean : scanFaults (scan source) = [])
    (ends : ¬EndsInComment source) : ∀ p ∈ pieces source.toList, ¬p.isOpen := by
  intro p mem isOpen
  cases p with
  | unclosed text => exact unclosed_notMem clean text mem
  | _ => exact ends ⟨_, mem, isOpen⟩

theorem scan_joined {source : String} (clean : scanFaults (scan source) = [])
    (ends : ¬EndsInComment source) (more : String) :
    scan (source ++ "\n" ++ more) = itemsOf 1 (pieces source.toList) ++
      (scan more).map (ScanItem.mapLine (· + (lineBreaks source.toList + 1))) := by
  have chars : (source ++ "\n" ++ more).toList = source.toList ++ '\n' :: more.toList := by simp
  have broken := pieces_append_break (closed_of_scan clean ends) more.toList
  unfold scan
  rw [chars, broken, scanPieces_append, flatMap_text_pieces, ← scanPieces_add]
  rfl

section

variable {source : String} (clean : scanFaults (scan source) = []) (ends : ¬EndsInComment source)
  (more : String)

include clean ends

theorem scannedTokens_joined : scannedTokens (scan (source ++ "\n" ++ more)) = wordsOf source ++
    (scannedTokens (scan more)).map (Token.mapLine (· + (lineBreaks source.toList + 1))) := by
  rw [scan_joined clean ends more, scannedTokens, List.filterMap_append, ← scannedTokens,
    ← scannedTokens, scannedTokens_map]
  rfl

theorem scanFaults_joined : scanFaults (scan (source ++ "\n" ++ more)) =
    (scanFaults (scan more)).map (Diagnostic.mapLine (· + (lineBreaks source.toList + 1))) := by
  have none : scanFaults (itemsOf 1 (pieces source.toList)) = [] := by
    rw [scan, scanPieces_eq, scanFaults, List.filterMap_append, ← scanFaults] at clean
    exact (List.append_eq_nil_iff.mp clean).1
  rw [scan_joined clean ends more, scanFaults, List.filterMap_append, ← scanFaults, ← scanFaults,
    none, scanFaults_map, List.nil_append]

end

end ScopeScript
