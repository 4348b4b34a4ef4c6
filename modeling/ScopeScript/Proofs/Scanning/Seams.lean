import ScopeScript.Proofs.Scanning.Munch

set_option autoImplicit false

namespace ScopeScript.Lexicon

-- A text that is cut off behind a piece keeps its pieces.

theorem Skips.shorten {p : Piece} {xs ys : List Char} (h : Skips p (xs ++ ys)) : Skips p xs := by
  generalize whole : xs ++ ys = rest at h
  cases h with
  | blank space => exact .blank space
  | line unbroken stop =>
    subst whole
    refine .line unbroken fun c first => stop c ?_
    rw [List.head?_append, first]
    rfl
  | block first => exact .block first
  | openBlock never =>
    obtain ⟨rfl, -⟩ := List.append_eq_nil_iff.mp whole
    exact .openBlock never

theorem Begins.shorten {p : Piece} {xs ys : List Char} (h : Begins p (xs ++ ys)) :
    Begins p xs := by
  generalize whole : xs ++ ys = rest at h
  cases h with
  | skipped skips =>
    subst whole
    exact .skipped skips.shorten
  | token token bare longest =>
    subst whole
    rw [← List.append_assoc] at bare longest
    refine .token token (fun skippable => bare (skippable.append ys)) ?_
    intro kind' lexeme' token' start
    exact longest kind' lexeme' token' (start.trans (List.prefix_append _ ys))
  | unclosed unclosed =>
    obtain ⟨rfl, -⟩ := List.append_eq_nil_iff.mp whole
    exact .unclosed unclosed
  | unexpected quote bare none =>
    subst whole
    rw [← List.cons_append] at bare none
    refine .unexpected quote (fun skippable => bare (skippable.append ys)) ?_
    intro kind lexeme token start
    exact none kind lexeme token (start.trans (List.prefix_append _ ys))

theorem Cut.text {cs : List Char} {ps : List Piece} (h : Cut cs ps) :
    ps.flatMap Piece.text = cs := by
  rw [← cut_iff.mp h, flatMap_text_pieces]

theorem Cut.split {cs : List Char} {ps qs : List Piece} (h : Cut cs (ps ++ qs)) :
    Cut (ps.flatMap Piece.text) ps ∧ Cut (qs.flatMap Piece.text) qs := by
  induction ps generalizing cs with
  | nil =>
    rw [List.nil_append] at h
    exact ⟨.nil, h.text ▸ h⟩
  | cons p ps ih =>
    cases h with
    | cons begins rest =>
      obtain ⟨first, second⟩ := ih rest
      have text : (ps ++ qs).flatMap Piece.text = _ := rest.text
      rw [List.flatMap_append] at text
      rw [← text] at begins
      exact ⟨.cons begins.shorten first, second⟩

theorem pieces_split {cs : List Char} {ps qs : List Piece} (h : pieces cs = ps ++ qs) :
    pieces (ps.flatMap Piece.text) = ps ∧ pieces (qs.flatMap Piece.text) = qs := by
  obtain ⟨first, second⟩ := (cut_iff.mpr h).split
  exact ⟨cut_iff.mp first, cut_iff.mp second⟩

-- Seams.

/-- A token or a comment would begin with a piece of the first text and end in the second. -/
def Fuses (left right : List Char) : Prop :=
  ∃ ps qs into after, pieces left = ps ++ qs ∧ qs ≠ [] ∧ right = into ++ after ∧ into ≠ [] ∧
    ((∃ kind, IsToken kind (qs.flatMap Piece.text ++ into)) ∨
      ∃ p : Piece, p.text = qs.flatMap Piece.text ++ into ∧ Skips p after)

def Terminated (cs : List Char) : Prop := ∀ text, .unclosed text ∉ pieces cs

variable {left right more : List Char}

theorem Fuses.behind {ps : List Piece} {mid : List Char} (h : Fuses mid right)
    (whole : pieces left = ps ++ pieces mid) : Fuses left right := by
  obtain ⟨ps', qs, into, after, cut, rest⟩ := h
  exact ⟨ps ++ ps', qs, into, after, by rw [whole, cut, List.append_assoc], rest⟩

theorem pieces_append (terminated : Terminated left) (apart : ¬Fuses left right) :
    pieces (left ++ right) = pieces left ++ pieces right := by
  induction left using pieces.induct with
  | case1 => rw [List.nil_append, pieces, List.nil_append]
  | case2 c rest ih =>
    generalize first : Piece.first c (rest ++ right) = found
    obtain ⟨p, tail⟩ := found
    obtain ⟨begins, whole⟩ := begins_iff.mpr first
    have inside (later : List Char) (text : c :: rest = p.text ++ later)
        (tail_eq : tail = later ++ right) :
        pieces (c :: rest ++ right) = pieces (c :: rest) ++ pieces right := by
      subst tail_eq
      have alone : Piece.first c rest = (p, later) := begins_iff.mp ⟨begins.shorten, text.symm⟩
      have cut : pieces (c :: rest) = p :: pieces later := by rw [pieces, alone]
      rw [alone] at ih
      have others := ih
        (fun text mem => terminated text (by rw [cut]; exact List.mem_cons_of_mem _ mem))
        fun fuses => apart (fuses.behind (cut.trans List.singleton_append.symm))
      rw [List.cons_append, pieces, first, cut, others, List.cons_append]
    -- The first piece ends in the first text, or it would fuse both.
    rw [← List.cons_append] at whole
    rcases List.append_eq_append_iff.mp whole with ⟨later, text, tail_eq⟩ | ⟨into, text, right_eq⟩
    · exact inside later text tail_eq
    by_cases none : into = []
    · subst none
      exact inside [] (by rw [text, List.append_nil, List.append_nil]) right_eq.symm
    have fuses (reads : (∃ kind, IsToken kind (c :: rest ++ into)) ∨
        ∃ p : Piece, p.text = c :: rest ++ into ∧ Skips p tail) : Fuses (c :: rest) right := by
      refine ⟨[], pieces (c :: rest), into, tail, rfl, ?_, right_eq, none, ?_⟩
      · rw [pieces]
        exact List.cons_ne_nil _ _
      · rwa [flatMap_text_pieces]
    cases begins with
    | skipped skips => exact absurd (fuses (.inr ⟨p, text, skips⟩)) apart
    | token token =>
      rw [Piece.text] at text
      exact absurd (fuses (.inl ⟨_, text ▸ token⟩)) apart
    | @unclosed contents unclosed =>
      obtain ⟨rfl, rfl⟩ := List.cons.inj text
      have alone : Piece.first '"' rest = (.unclosed ('"' :: rest), []) := begins_iff.mp
        ⟨.unclosed fun mem => unclosed (List.mem_append_left into mem), List.append_nil _⟩
      exact absurd (by rw [pieces, alone]; exact List.mem_cons_self) (terminated ('"' :: rest))
    | unexpected =>
      obtain ⟨-, nothing⟩ := List.cons.inj text
      exact absurd (List.append_eq_nil_iff.mp nothing.symm).2 none

theorem IsToken.not_skippable {kind : Kind} {c d : Char} {cs : List Char}
    (token : IsToken kind (c :: d :: cs)) (rest : List Char) :
    ¬Skippable (c :: d :: cs ++ rest) := by
  have spelled (symbol : charLead c = .symbol) : ∃ p : Punctuator, p.spelling = c :: d :: cs :=
    (token.of_symbol symbol).imp fun p found => found.2
  intro skippable
  rcases skippable_iff.mp skippable with ⟨e, tail, same, space⟩ | ⟨mark, tail, same, marks⟩
  · obtain ⟨rfl, -⟩ := List.cons.inj same
    simp only [isSpace, Bool.or_eq_true, decide_eq_true_eq] at space
    rcases space with ((rfl | rfl) | rfl) | rfl <;>
      obtain ⟨p, found⟩ := spelled rfl <;> cases p <;> cases found
  · obtain ⟨rfl, second⟩ := List.cons.inj same
    obtain ⟨rfl, -⟩ := List.cons.inj second
    obtain ⟨p, found⟩ := spelled rfl
    rcases marks with rfl | rfl <;> cases p <;> cases found

theorem pieces_append_iff (terminated : Terminated left) :
    pieces (left ++ right) = pieces left ++ pieces right ↔ ¬Fuses left right := by
  refine ⟨fun whole => ?_, pieces_append terminated⟩
  rintro ⟨ps, qs, into, after, cut, some_piece, rfl, some_text, reads⟩
  obtain ⟨q, qs, rfl⟩ := List.exists_cons_of_ne_nil some_piece
  rw [cut, List.append_assoc] at whole
  obtain ⟨-, rest⟩ := (cut_iff.mpr whole).split
  rw [List.flatMap_append, flatMap_text_pieces] at rest
  generalize text : (q :: qs).flatMap Piece.text ++ (into ++ after) = cs at rest
  cases rest with
  | @cons q tail _ begins later =>
  rw [List.flatMap_cons, List.append_assoc] at text
  obtain rfl := List.append_cancel_left text
  -- The piece that stands there is shorter than what would be read there.
  rw [List.flatMap_cons, List.append_assoc] at reads
  rcases reads with ⟨kind, token⟩ | ⟨p, read, skips⟩
  · have start : q.text ++ (qs.flatMap Piece.text ++ into) <+:
        q.text ++ (qs.flatMap Piece.text ++ (into ++ after)) := by
      rw [List.prefix_append_right_inj, List.prefix_append_right_inj]
      exact List.prefix_append into after
    generalize tail_eq : qs.flatMap Piece.text ++ (into ++ after) = tail at begins start
    cases begins with
    | skipped skips =>
      obtain ⟨c, text, first⟩ := List.exists_cons_of_ne_nil (Begins.skipped skips).text_ne_nil
      obtain ⟨d, others, more⟩ :
          ∃ d others, text ++ (qs.flatMap Piece.text ++ into) = d :: others :=
        List.exists_cons_of_ne_nil (by simp [some_text])
      have skippable := skips.skippable
      rw [← tail_eq, ← List.append_assoc _ into, ← List.append_assoc, first, List.cons_append,
        more] at skippable
      rw [first, List.cons_append, more] at token
      exact token.not_skippable after skippable
    | token _ _ longest =>
      have lengths := longest kind _ token start
      have some_length := List.length_pos_iff.mpr some_text
      simp only [Piece.text, List.length_append] at lengths
      omega
    | unclosed =>
      obtain ⟨-, nothing⟩ := List.append_eq_nil_iff.mp tail_eq
      exact some_text (List.append_eq_nil_iff.mp nothing).1
    | unexpected _ _ none => exact none kind _ token start
  · have whole : p.text ++ after = q.text ++ (qs.flatMap Piece.text ++ (into ++ after)) := by
      rw [read, List.append_assoc, List.append_assoc]
    obtain ⟨rfl, -⟩ := (Begins.skipped skips).unique begins whole
    exact some_text (List.append_eq_nil_iff.mp (List.self_eq_append_right.mp read)).2

theorem Fuses.extend (h : Fuses left right) (more : List Char) : Fuses left (right ++ more) := by
  obtain ⟨ps, qs, into, after, cut, some_piece, rfl, some_text, reads⟩ := h
  rcases reads with token | ⟨p, text, skips⟩
  · exact ⟨ps, qs, into, after ++ more, cut, some_piece, List.append_assoc _ _ _, some_text,
      .inl token⟩
  -- The comment may be longer where more text follows, but not shorter.
  obtain ⟨p', after', whole, skips'⟩ := skips.skippable.append more
  rw [text, List.append_assoc, List.append_assoc] at whole
  have longer (later : List Char) (inside : qs.flatMap Piece.text = p'.text ++ later)
      (tail : after' = later ++ (into ++ (after ++ more))) : False := by
    rw [tail, ← List.append_assoc into, ← List.append_assoc] at skips'
    have same : p'.text ++ (later ++ (into ++ after)) = p.text ++ after := by
      rw [text, inside]
      simp
    obtain ⟨rfl, -⟩ := skips'.shorten.unique skips same
    rw [inside, List.append_assoc] at text
    exact some_text (List.append_eq_nil_iff.mp (List.self_eq_append_right.mp text)).2
  rcases List.append_eq_append_iff.mp whole with ⟨later, inside, tail⟩ | ⟨into', text', tail⟩
  · exact (longer later inside tail).elim
  by_cases none : into' = []
  · subst none
    exact (longer [] (by rw [text', List.append_nil, List.append_nil]) tail.symm).elim
  · exact ⟨ps, qs, into', after', cut, some_piece, by rw [List.append_assoc, tail], none,
      .inr ⟨p', text', skips'⟩⟩

def Apart (runs : List (List Char)) : Prop :=
  ∀ before after, runs = before ++ after → ¬Fuses before.flatten after.flatten

theorem pieces_flatten {runs : List (List Char)} (terminated : ∀ run ∈ runs, Terminated run)
    (apart : Apart runs) : pieces runs.flatten = runs.flatMap pieces := by
  induction runs with
  | nil => rw [List.flatten_nil, pieces, List.flatMap_nil]
  | cons run runs ih =>
    obtain ⟨first, others⟩ := List.forall_mem_cons.mp terminated
    have seam : ¬Fuses run runs.flatten := by
      simpa using apart [run] runs rfl
    rw [List.flatten_cons, pieces_append first seam, List.flatMap_cons, ih others]
    rintro before after rfl fuses
    -- A seam further on is a seam of the whole.
    have inner : ¬Fuses run before.flatten := fun fuses => seam (by
      rw [List.flatten_append]
      exact fuses.extend _)
    refine apart (run :: before) after rfl ?_
    rw [List.flatten_cons]
    exact fuses.behind (pieces_append first inner)

theorem pieces_flatten_iff {runs : List (List Char)} (terminated : ∀ run ∈ runs, Terminated run) :
    pieces runs.flatten = runs.flatMap pieces ↔ Apart runs := by
  refine ⟨?_, pieces_flatten terminated⟩
  rintro whole before after rfl
  have text (runs : List (List Char)) :
      (runs.flatMap pieces).flatMap Piece.text = runs.flatten := by
    rw [List.flatMap_assoc]
    simp only [flatMap_text_pieces]
    exact List.flatMap_id'
  rw [List.flatMap_append] at whole
  obtain ⟨first, second⟩ := pieces_split whole
  rw [text] at first second
  have terminated_before : Terminated before.flatten := by
    intro contents mem
    rw [first] at mem
    obtain ⟨run, inside, mem⟩ := List.mem_flatMap.mp mem
    exact terminated run (List.mem_append_left _ inside) contents mem
  rw [← pieces_append_iff terminated_before, ← List.flatten_append, whole, first, second]

end ScopeScript.Lexicon
