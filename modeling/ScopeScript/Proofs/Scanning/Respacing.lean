import ScopeScript.Proofs.Scanning.Inclusion

set_option autoImplicit false

namespace ScopeScript

namespace Lexicon

variable {kind kind' : Kind} {cs text : List Char}

-- A piece by itself.

theorem pieces_of_mem {p : Piece} (mem : p ∈ pieces cs) : pieces p.text = [p] := by
  obtain ⟨before, after, whole⟩ := List.append_of_mem mem
  obtain ⟨-, later⟩ := pieces_split whole
  have first : p :: after = [p] ++ after := rfl
  rw [first] at later
  obtain ⟨alone, -⟩ := pieces_split later
  rwa [List.flatMap_singleton] at alone

theorem begins_of_pieces {p : Piece} (alone : pieces cs = [p]) : Begins p [] := by
  have cut := cut_iff.mpr alone
  generalize cs = text at cut
  cases cut with
  | cons begins rest =>
    cases rest
    exact begins

-- Blanks.

theorem IsToken.blank_notMem (h : IsToken kind cs) (other : cs.head? ≠ some '"') : ' ' ∉ cs := by
  have notDigit {digits : List Char} (all : ∀ d ∈ digits, d.isDigit = true) : ' ' ∉ digits :=
    fun mem => absurd (all ' ' mem) (by decide)
  have notPart {word : List Char} (parts : ∀ d ∈ word, isWordPart d = true) : ' ' ∉ word :=
    fun mem => absurd (parts ' ' mem) (by decide)
  cases h with
  | punctuator p => cases p <;> decide
  | keyword k =>
    obtain ⟨c, word, spelled, start, parts⟩ := Keyword.isWord k
    rw [spelled]
    exact notPart (List.forall_mem_cons.mpr ⟨isWordPart_of_isWordStart start, parts⟩)
  | identifier start parts =>
    exact notPart (List.forall_mem_cons.mpr ⟨isWordPart_of_isWordStart start, parts⟩)
  | string => exact absurd rfl other
  | whole _ all => exact notDigit all
  | fractional _ all _ all' =>
    intro mem
    rcases List.mem_append.mp mem with mem | mem
    · exact notDigit all mem
    · exact notDigit all' (List.mem_of_ne_of_mem (by decide) mem)

theorem IsToken.not_blank_behind (h : IsToken kind text) (more : List Char) :
    ¬IsToken kind' (text ++ ' ' :: more) := by
  intro longer
  obtain ⟨c, tail, rfl⟩ := List.exists_cons_of_ne_nil h.ne_nil
  by_cases quote : c = '"'
  · subst quote
    obtain ⟨contents, -, rfl, -⟩ := h.of_quote
    obtain ⟨contents', closed, whole, -⟩ := longer.of_quote
    -- The quote that ends the one is inside of the other.
    have ends : contents ++ '"' :: ' ' :: more = contents' ++ ['"'] :=
      (List.append_cons contents '"' (' ' :: more)).trans whole
    rcases List.append_eq_append_iff.mp ends with ⟨into, rfl, rest⟩ | ⟨into, -, rest⟩
    · cases into with
      | nil => cases rest
      | cons d into =>
        obtain ⟨rfl, -⟩ := List.cons.inj rest
        exact closed (by simp)
    · have lengths := congrArg List.length rest
      simp only [List.length_append, List.length_cons, List.length_nil] at lengths
      omega
  · refine longer.blank_notMem ?_ (by simp)
    simpa using quote

theorem Begins.before_blank (h : Begins (.lexeme kind text) []) (more : List Char) :
    Begins (.lexeme kind text) (' ' :: more) := by
  cases h with
  | skipped skips => cases skips
  | token token bare longest =>
  rw [List.append_nil] at bare longest
  refine .token token (fun skippable => ?_) fun kind' lexeme' token' start => ?_
  · rcases skippable_iff.mp skippable with ⟨c, rest, same, space⟩ | ⟨mark, rest, same, marks⟩
    · obtain ⟨d, tail, rfl⟩ := List.exists_cons_of_ne_nil token.ne_nil
      obtain ⟨rfl, -⟩ := List.cons.inj same
      exact bare (skippable_iff.mpr (.inl ⟨d, tail, rfl, space⟩))
    · obtain ⟨d, tail, rfl⟩ := List.exists_cons_of_ne_nil token.ne_nil
      cases tail with
      | nil =>
        obtain ⟨-, second⟩ := List.cons.inj same
        obtain ⟨rfl, -⟩ := List.cons.inj second
        rcases marks with marks | marks <;> cases marks
      | cons e tail => exact token.not_skippable _ skippable
  · obtain ⟨after, whole⟩ := start
    rcases List.append_eq_append_iff.mp whole with ⟨into, rfl, -⟩ | ⟨into, rfl, rest⟩
    · simp
    cases into with
    | nil => simp
    | cons c into =>
      obtain ⟨rfl, -⟩ := List.cons.inj rest
      exact absurd token' (token.not_blank_behind into)

theorem pieces_before_blank (alone : pieces text = [.lexeme kind text]) (more : List Char) :
    pieces (text ++ ' ' :: more) = .lexeme kind text :: .blank ' ' :: pieces more := by
  have space : Begins (.blank ' ') more := .skipped (.blank (by decide))
  have begins := (begins_of_pieces alone).before_blank more
  exact cut_iff.mp (.cons begins (.cons space (cut_iff.mpr rfl)))

end Lexicon

open Lexicon

-- Words.

theorem pieces_of_mem_words {cs : List Char} {w : Kind × String} (mem : w ∈ words cs) :
    pieces w.2.toList = [.lexeme w.1 w.2.toList] := by
  obtain ⟨p, inside, word⟩ := List.mem_filterMap.mp mem
  cases p with
  | lexeme kind text =>
    obtain rfl := Option.some.inj word
    rw [String.toList_ofList]
    exact pieces_of_mem inside
  | _ => cases word

def spaced (ws : List (Kind × String)) : String := " ".intercalate (ws.map Prod.snd)

variable {ws : List (Kind × String)}

theorem pieces_spaced (alone : ∀ w ∈ ws, pieces w.2.toList = [.lexeme w.1 w.2.toList]) :
    pieces (spaced ws).toList =
      (ws.map fun w => Piece.lexeme w.1 w.2.toList).intersperse (.blank ' ') := by
  unfold spaced
  rw [String.toList_intercalate]
  induction ws with
  | nil => exact cut_iff.mp .nil
  | cons w ws ih =>
    obtain ⟨first, others⟩ := List.forall_mem_cons.mp alone
    cases ws with
    | nil => simpa using first
    | cons w' ws =>
      have text : [' '].intercalate (((w :: w' :: ws).map Prod.snd).map String.toList) =
          w.2.toList ++ ' ' :: [' '].intercalate (((w' :: ws).map Prod.snd).map String.toList) := by
        simp [List.intercalate_cons_cons]
      exact (congrArg pieces text).trans ((pieces_before_blank first _).trans
        (congrArg (_ :: _ :: ·) (ih others)))

theorem words_spaced (alone : ∀ w ∈ ws, pieces w.2.toList = [.lexeme w.1 w.2.toList]) :
    words (spaced ws).toList = ws := by
  rw [words, pieces_spaced alone]
  clear alone
  induction ws with
  | nil => rfl
  | cons w ws ih =>
    have word : (Piece.lexeme w.1 w.2.toList).word? = some w := by
      rw [Piece.word?, String.ofList_toList]
    cases ws with
    | nil => exact List.filterMap_cons_some word
    | cons w' ws =>
      rw [List.map_cons, List.map_cons, List.intersperse_cons_cons, List.filterMap_cons_some word,
        List.filterMap_cons_none rfl]
      exact congrArg (w :: ·) ih

theorem mem_intersperse {α : Type} {sep x : α} {xs : List α} (mem : x ∈ xs.intersperse sep) :
    x = sep ∨ x ∈ xs := by
  fun_induction List.intersperse sep xs with
  | case1 => exact .inr mem
  | case2 => exact .inr mem
  | case3 y ys _ ih =>
    simp only [List.mem_cons] at mem ⊢
    tauto

theorem scanFaults_scanPieces {line : Nat} {ps : List Piece}
    (read : ∀ p ∈ ps, p = .blank ' ' ∨ ∃ kind text, p = .lexeme kind text) :
    scanFaults (scanPieces line ps) = [] := by
  induction ps generalizing line with
  | nil => rfl
  | cons p rest ih =>
    obtain ⟨first, others⟩ := List.forall_mem_cons.mp read
    rcases first with rfl | ⟨kind, text, rfl⟩ <;> exact ih others

theorem scanFaults_spaced (alone : ∀ w ∈ ws, pieces w.2.toList = [.lexeme w.1 w.2.toList]) :
    scanFaults (scan (spaced ws)) = [] := by
  refine scanFaults_scanPieces fun p mem => ?_
  rw [pieces_spaced alone] at mem
  refine (mem_intersperse mem).imp_right fun mem => ?_
  obtain ⟨w, -, rfl⟩ := List.mem_map.mp mem
  exact ⟨w.1, w.2.toList, rfl⟩

-- Texts.

def readTokens (source : String) : List Token :=
  (scannedTokens (scan source)).filter (·.kind ≠ .eof)

theorem readTokens_eq (source : String) : readTokens source = wordsOf source := by
  rw [readTokens, scannedTokens_scan, List.filter_append, List.filter_eq_self.mpr]
  · simp
  · intro t mem
    simpa using kind_ne_eof_of_mem_wordsOf mem

theorem map_word_readTokens (source : String) :
    (readTokens source).map Token.word = words source.toList := by
  rw [readTokens_eq, wordsOf, map_word_itemsOf]
  rfl

def respaced (source : String) : String :=
  " ".intercalate ((readTokens source).map Token.lexeme)

theorem respaced_eq (source : String) : respaced source = spaced (words source.toList) := by
  rw [respaced, spaced, ← map_word_readTokens, List.map_map]
  rfl

/--
A text that is written out again by its lexemes has no lexical faults, whatever the text had, and
the same tokens: their kinds, with the values of literals in them, and their lexemes. To write it
out once more changes nothing.
-/
theorem scan_respaced (source : String) :
    scanFaults (scan (respaced source)) = [] ∧
      (scannedTokens (scan (respaced source))).map Token.word =
        (readTokens source).map Token.word ++ [(.eof, "")] ∧
      respaced (respaced source) = respaced source := by
  have alone : ∀ w ∈ words source.toList, pieces w.2.toList = [.lexeme w.1 w.2.toList] :=
    fun _ => pieces_of_mem_words
  have same : words (respaced source).toList = words source.toList := by
    rw [respaced_eq, words_spaced alone]
  refine ⟨?_, ?_, ?_⟩
  · rw [respaced_eq]
    exact scanFaults_spaced alone
  · rw [map_word_scan, same, map_word_readTokens]
  · rw [respaced_eq (respaced source), same, ← respaced_eq]

example : respaced "x+++1..y@ // c" = "x ++ + 1 . . y" := by decide +kernel

end ScopeScript
