import ScopeScript.Token.Scan

set_option autoImplicit false

namespace ScopeScript

inductive ImportTarget where
  | missing
  | unclosed (tail : List Char)
  | file (path : List Char) (tail : List Char)
  deriving DecidableEq

def ImportTarget.text : ImportTarget → List Char
  | .missing => []
  | .unclosed tail => tail
  | .file path tail => '"' :: path ++ '"' :: tail

/-- Text that is kept, or a directive: its word with the blanks after it, and what is imported. -/
inductive Segment where
  | verbatim (text : List Char)
  | directive (head : List Char) (target : ImportTarget)
  deriving DecidableEq

namespace Segment

def text : Segment → List Char
  | .verbatim text => text
  | .directive head target => head ++ target.text

def isDirective : Segment → Bool
  | .verbatim _ => false
  | .directive .. => true

def splitThrough (mark : List Char) : List Char → List Char × List Char
  | [] => ([], [])
  | c :: rest =>
    if mark.isPrefixOf (c :: rest) then
      ((c :: rest).take mark.length, (c :: rest).drop mark.length)
    else (c :: (splitThrough mark rest).1, (splitThrough mark rest).2)

def importWord : List Char := ['i', 'm', 'p', 'o', 'r', 't']

def isGap (c : Char) : Bool :=
  c = ' ' || c = '\t' || c = '\n' || c = '\x0c' || c = '\r'

def isInlineGap (c : Char) : Bool :=
  c = ' ' || c = '\t'

/-- The semicolon that may end a directive on the same line, with the blanks before it. -/
def semicolon (cs : List Char) : List Char × List Char :=
  match cs.dropWhile isInlineGap with
  | ';' :: rest => (cs.takeWhile isInlineGap ++ [';'], rest)
  | _ => ([], cs)

def target (cs : List Char) : ImportTarget × List Char :=
  match cs with
  | '"' :: rest =>
    match rest.dropWhile (· != '"') with
    | [] => (.unclosed ('"' :: rest), [])
    | _ :: tail =>
      (.file (rest.takeWhile (· != '"')) (semicolon tail).1, (semicolon tail).2)
  | cs => (.missing, cs)

def directiveAfter (word cs : List Char) : Segment × List Char :=
  let rest := cs.dropWhile isGap
  (.directive (word ++ cs.takeWhile isGap) (target rest).1, (target rest).2)

def first (c : Char) (rest : List Char) : Segment × List Char :=
  if c = '"' then
    (.verbatim ('"' :: (splitThrough ['"'] rest).1), (splitThrough ['"'] rest).2)
  else if c = '/' ∧ rest.head? = some '/' then
    (.verbatim ((c :: rest).takeWhile (· != '\n')), (c :: rest).dropWhile (· != '\n'))
  else if c = '/' ∧ rest.head? = some '*' then
    (.verbatim ('/' :: '*' :: (splitThrough ['*', '/'] (rest.drop 1)).1),
      (splitThrough ['*', '/'] (rest.drop 1)).2)
  else if isWordStart c then
    let word := (c :: rest).takeWhile isWordPart
    let after := (c :: rest).dropWhile isWordPart
    if word = importWord then directiveAfter word after else (.verbatim word, after)
  else (.verbatim [c], rest)

theorem splitThrough_append (mark cs : List Char) :
    (splitThrough mark cs).1 ++ (splitThrough mark cs).2 = cs := by
  induction cs with
  | nil => rfl
  | cons c rest ih =>
    unfold splitThrough
    split
    · exact List.take_append_drop _ _
    · simp [ih]

theorem semicolon_append (cs : List Char) : (semicolon cs).1 ++ (semicolon cs).2 = cs := by
  unfold semicolon
  split
  next rest h => simp [← h, List.takeWhile_append_dropWhile]
  · rfl

theorem target_append (cs : List Char) : (target cs).1.text ++ (target cs).2 = cs := by
  unfold target
  split
  next rest =>
    have whole := List.takeWhile_append_dropWhile (p := (· != '"')) (l := rest)
    cases tail : rest.dropWhile (· != '"') with
    | nil => simp [ImportTarget.text]
    | cons quote after =>
      have closing := Piece.eq_quote_of_dropWhile tail
      simp only [ImportTarget.text, List.cons_append, List.append_assoc, semicolon_append]
      rw [tail, closing] at whole
      exact congrArg _ whole
  · rfl

theorem directiveAfter_append (word cs : List Char) :
    (directiveAfter word cs).1.text ++ (directiveAfter word cs).2 = word ++ cs := by
  simp [directiveAfter, text, List.append_assoc, target_append, List.takeWhile_append_dropWhile]

theorem first_append (c : Char) (rest : List Char) :
    (first c rest).1.text ++ (first c rest).2 = c :: rest := by
  unfold first
  split
  next h => simp [text, splitThrough_append, h]
  split
  · exact List.takeWhile_append_dropWhile
  split
  next h =>
    obtain ⟨slash, star⟩ := h
    cases rest with
    | nil => simp at star
    | cons d tail => simp_all [text, splitThrough_append]
  split
  · dsimp only
    split
    · rw [directiveAfter_append, List.takeWhile_append_dropWhile]
    · exact List.takeWhile_append_dropWhile
  · rfl

theorem text_first_ne_nil (c : Char) (rest : List Char) : (first c rest).1.text ≠ [] := by
  unfold first
  split
  · simp [text]
  split
  next h => simp [text, h.1]
  split
  · simp [text]
  split
  next h =>
    have part := isWordPart_of_isWordStart h
    dsimp only
    split <;> simp [directiveAfter, text, part]
  · simp [text]

theorem length_first_lt (c : Char) (rest : List Char) :
    (first c rest).2.length < (c :: rest).length := by
  have whole := congrArg List.length (first_append c rest)
  have some_text := List.length_pos_iff.mpr (text_first_ne_nil c rest)
  simp only [List.length_append] at whole
  omega

end Segment

def segments : List Char → List Segment
  | [] => []
  | c :: rest => (Segment.first c rest).1 :: segments (Segment.first c rest).2
termination_by cs => cs.length
decreasing_by exact Segment.length_first_lt c rest

theorem flatMap_text_segments (cs : List Char) : (segments cs).flatMap Segment.text = cs := by
  fun_induction segments cs with
  | case1 => rfl
  | case2 c rest ih => simp [ih, Segment.first_append]

def importedPaths (text : String) : List String :=
  (segments text.toList).filterMap fun segment => match segment with
    | .directive _ (.file path _) => some (String.ofList path)
    | .directive _ _ | .verbatim _ => none

end ScopeScript
