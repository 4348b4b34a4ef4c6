import ScopeScript.Proofs.Scanning.Layout
import ScopeScript.Proofs.Scanning.Munch

set_option autoImplicit false

namespace ScopeScript

open Lexicon

theorem lineBreaks_append (xs ys : List Char) :
    lineBreaks (xs ++ ys) = lineBreaks xs + lineBreaks ys :=
  List.count_append ..

inductive Counted (source : List Char) : Nat → ScanItem → Prop
  | token {kind front text back} :
    source = front ++ text ++ back →
      Counted source (byteLength front)
        (.ok ⟨kind, String.ofList text, 1 + lineBreaks (front ++ text)⟩)
  | unexpected {c front back} :
    source = front ++ c :: back →
      Counted source (byteLength front)
        (.error (.lexical (1 + lineBreaks front) (.unexpectedCharacter c)))
  | unclosed {front text} :
    source = front ++ '"' :: text → '"' ∉ text →
      Counted source (byteLength front)
        (.error (.lexical (1 + lineBreaks source) .unterminatedString))

theorem Lexicon.Begins.counted {p : Piece} {tail : List Char} (begins : Begins p tail)
    (front : List Char) {item : ScanItem}
    (made : p.item? (1 + lineBreaks (front ++ p.text)) = some item) :
    Counted (front ++ (p.text ++ tail)) (byteLength front) item := by
  cases begins with
  | skipped skips => cases skips <;> cases made
  | token =>
    cases made
    exact .token (List.append_assoc ..).symm
  | unclosed open' =>
    cases made
    rw [List.append_nil]
    exact .unclosed rfl open'
  | @unexpected c _ _ bare =>
    cases made
    have inLine : c ≠ '\n' := fun same =>
      bare (skippable_iff.mpr (.inl ⟨c, tail, rfl, same ▸ rfl⟩))
    have before : lineBreaks (front ++ [c]) = lineBreaks front := by
      rw [lineBreaks_append, lineBreaks, lineBreaks, List.count_singleton]
      simp [inLine]
    change Counted _ _ (.error (.lexical (1 + lineBreaks (front ++ [c])) _))
    rw [before]
    exact .unexpected rfl

theorem counted_itemsAt {cs : List Char} {ps : List Piece} (cut : Cut cs ps) (front : List Char) :
    ∀ entry ∈ itemsAt (1 + lineBreaks front) (byteLength front) ps,
      Counted (front ++ cs) entry.1 entry.2 := by
  induction cut generalizing front with
  | nil => simp [itemsAt]
  | @cons p tail ps begins _ ih =>
    intro entry mem
    have line : 1 + lineBreaks front + lineBreaks p.text = 1 + lineBreaks (front ++ p.text) := by
      rw [lineBreaks_append, Nat.add_assoc]
    rw [itemsAt, line, ← byteLength_append] at mem
    rcases List.mem_append.mp mem with here | later
    · obtain ⟨item, made, rfl⟩ := Option.map_eq_some_iff.mp (Option.mem_toList.mp here)
      exact begins.counted front made
    · rw [← List.append_assoc]
      exact ih (front ++ p.text) entry later

def Diagnostic.Precedes (a b : Diagnostic) : Prop := a.line?.getD 0 ≤ b.line?.getD 0

def Diagnostic.IsLexical (d : Diagnostic) : Prop := ∃ line fault, d = .lexical line fault

theorem scanFaults_append (items more : List ScanItem) :
    scanFaults (items ++ more) = scanFaults items ++ scanFaults more :=
  List.filterMap_append

theorem scanFaults_item? (p : Piece) (line : Nat) :
    ∀ d ∈ scanFaults (p.item? line).toList, d.IsLexical ∧ d.line? = some line := by
  cases p with
  | blank | comment | lexeme => simp [Piece.item?, scanFaults]
  | unexpected | unclosed =>
    intro d mem
    obtain rfl := List.mem_singleton.mp mem
    exact ⟨⟨_, _, rfl⟩, rfl⟩

theorem scanFaults_itemsOf (line : Nat) (ps : List Piece) :
    (scanFaults (itemsOf line ps)).Pairwise Diagnostic.Precedes ∧
      ∀ d ∈ scanFaults (itemsOf line ps), d.IsLexical ∧ ∃ l, d.line? = some l ∧ line ≤ l := by
  induction ps generalizing line with
  | nil => simp [itemsOf, scanFaults]
  | cons p rest ih =>
    obtain ⟨sorted, later⟩ := ih (line + lineBreaks p.text)
    have here := scanFaults_item? p (line + lineBreaks p.text)
    rw [itemsOf, scanFaults_append, List.pairwise_append]
    refine ⟨⟨?_, sorted, fun d mem e mem' => ?_⟩, fun d mem => ?_⟩
    · cases p <;> simp [Piece.item?, scanFaults]
    · obtain ⟨-, l, found, above⟩ := later e mem'
      simpa [Diagnostic.Precedes, (here d mem).2, found] using above
    · rcases List.mem_append.mp mem with mem | mem
      · exact ⟨(here d mem).1, _, (here d mem).2, Nat.le_add_right _ _⟩
      · obtain ⟨own, l, found, above⟩ := later d mem
        exact ⟨own, l, found, Nat.le_trans (Nat.le_add_right _ _) above⟩

theorem scanFaults_scan (source : String) :
    (scanFaults (scan source)).Pairwise Diagnostic.Precedes ∧
      ∀ d ∈ scanFaults (scan source), d.IsLexical := by
  obtain ⟨sorted, own⟩ := scanFaults_itemsOf 1 (pieces source.toList)
  have same : scanFaults (scan source) = scanFaults (itemsOf 1 (pieces source.toList)) := by
    rw [scan, scanPieces_eq, scanFaults_append]
    exact List.append_nil _
  rw [same]
  exact ⟨sorted, fun d mem => (own d mem).1⟩

end ScopeScript
