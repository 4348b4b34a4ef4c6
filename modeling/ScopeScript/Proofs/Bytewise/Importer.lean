import ScopeScript.Proofs.Bytewise.Scanner
import ScopeScript.Proofs.Importing.Lines

set_option autoImplicit false

/-!
The reader of imports by offsets into the bytes of a text.

It goes over a text byte by byte where nothing begins, so between its turns it may stand inside a
character. It copies only from behind a directive to the word of the next one, or to the end. Main
statement: neither the scanner nor the reader of imports ever gives up, and they find what the scan
and the expansion of the text are (`in_bounds`).
-/

namespace ScopeScript

namespace Bytewise

/-- What is made of a text up to a spot, except that from `copied` on nothing is copied yet. -/
structure Draft where
  copied : Nat
  spot : Spot
  out : String
  state : ImportState

def Draft.on (here : Draft) (s : Spot) : Draft := { here with spot := s }

abbrev Expanding := String → ImportState → Reading (String × ImportState)

namespace Spot

variable (text : String) (s : Spot)

def quoted : Reading Spot := do
  let i ← skipThrough text ['"'] (s.curr + 1)
  return ⟨i, s.line + (← countLines text s.curr i)⟩

def lineComment : Reading Spot := do
  return { s with curr := ← skipTo text '\n' s.curr }

def blockComment : Reading Spot := do
  let i ← skipThrough text ['*', '/'] (s.curr + 2)
  return ⟨i, s.line + (← countLines text s.curr i)⟩

def semicolon : Reading Spot := do
  let after ← skipWhile text Segment.isInlineGap s
  return if byteAt? text after.curr = some ';' then { after with curr := after.curr + 1 } else s

end Spot

section

variable (library : Library) (expand : Expanding) (text : String)

def fetch (line : Nat) (path : String) (s : ImportState) : Reading (String × ImportState) :=
  if path ∈ s.seen then return ("", s)
  else
    let s := { s with seen := s.seen ++ [path], loads := s.loads ++ [path] }
    match library.load path with
    | .ok file => expand file s
    | .error reason => return ("", s.note line (.unreadable path reason))

def directive (s : Spot) (state : ImportState) : Reading (String × Spot × ImportState) := do
  let s ← skipWhile text Segment.isGap s
  if byteAt? text s.curr = some '"' then
    match ← search text ['"'] (s.curr + 1) with
    | none =>
      return ("", { s with curr := text.utf8ByteSize }, state.note s.line .unterminatedPath)
    | some n =>
      let path ← cut text (s.curr + 1) (s.curr + 1 + n)
      let line := s.line + (← countLines text (s.curr + 1) (s.curr + 1 + n))
      let behind ← Spot.semicolon text ⟨s.curr + n + 2, line⟩
      let (put, state) ← fetch library expand line path state
      return (put, behind, state)
  else return ("", s, state.note s.line .missingPath)

namespace Draft

variable (here : Draft)

def replace (behind : Spot) : Reading Draft := do
  let kept ← cut text here.copied here.spot.curr
  let (put, s, state) ← directive library expand text behind here.state
  return ⟨s.curr, s, here.out ++ kept ++ put, state⟩

def turn : Reading Draft := do
  let s := here.spot
  let c ← byteAt text s.curr
  if c = '\n' then return here.on ⟨s.curr + 1, s.line + 1⟩
  else if c = '"' then return here.on (← s.quoted text)
  else if c = '/' ∧ byteAt? text (s.curr + 1) = some '/' then return here.on (← s.lineComment text)
  else if c = '/' ∧ byteAt? text (s.curr + 1) = some '*' then
    return here.on (← s.blockComment text)
  else if isWordStart c then
    let behind ← skipWhile text isWordPart s
    if (← cut text s.curr behind.curr).toList = Segment.importWord then
      here.replace library expand text behind
    else return here.on behind
  else return here.on { s with curr := s.curr + 1 }

def walk (here : Draft) : Reading (String × ImportState) := do
  if _ : here.spot.curr < text.utf8ByteSize then
    let there ← here.turn library expand text
    if _ : here.spot.curr < there.spot.curr then walk there else throw (.stuck here.spot.curr)
  else return (here.out ++ (← cut text here.copied text.utf8ByteSize), here.state)
termination_by text.utf8ByteSize - here.spot.curr

end Draft

end

def expand (library : Library) : Nat → Expanding
  | 0, _, _ => throw .exhausted
  | depth + 1, text, s => Draft.walk library (expand library depth) text ⟨0, ⟨0, 1⟩, "", s⟩

def process (library : Library) (depth : Nat) (seen : List String) (source : String) :
    Reading Expansion := do
  let (text, s) ← expand library depth source ⟨seen, [], []⟩
  return {
    result := if s.faults.isEmpty then .ok text else .error s.faults
    loads := s.loads
    seen := s.seen }

variable {text : String} {front rest : List Char} {c d : Char} {s : Spot}

-- What passes untouched.

theorem isGap_of_beyond (high : 128 ≤ c.toNat) : Segment.isGap c = false := by
  simp [Segment.isGap, ne_of_beyond high]

theorem isInlineGap_of_beyond (high : 128 ≤ c.toNat) : Segment.isInlineGap c = false := by
  simp [Segment.isInlineGap, ne_of_beyond high]

theorem quoted_eq (h : Stands text front ('"' :: rest) s.curr) :
    s.quoted text = .ok (s.past ('"' :: (Segment.splitThrough ['"'] rest).1)) := by
  have skipped := (h.next_ascii (by decide)).skipThrough ['"'] (by simp)
  have size : s.curr + 1 + byteLength (Segment.splitThrough ['"'] rest).1 =
      s.curr + byteLength ('"' :: (Segment.splitThrough ['"'] rest).1) := Nat.add_assoc ..
  have whole : Stands text front
      (('"' :: (Segment.splitThrough ['"'] rest).1) ++ (Segment.splitThrough ['"'] rest).2)
      s.curr := by
    rwa [List.cons_append, Segment.splitThrough_append]
  rw [Spot.quoted, skipped, ok_bind, size, whole.countLines]
  rfl

theorem lineComment_eq (h : Stands text front rest s.curr) :
    s.lineComment text = .ok (s.past (rest.takeWhile (· != '\n'))) := by
  rw [Spot.lineComment, h.skipTo (by decide), Spot.past, lineBreaks_takeWhile]
  rfl

theorem blockComment_eq (h : Stands text front ('/' :: '*' :: rest) s.curr) :
    s.blockComment text =
      .ok (s.past ('/' :: '*' :: (Segment.splitThrough ['*', '/'] rest).1)) := by
  have inner := (h.next_ascii (by decide)).next_ascii (by decide)
  have skipped := inner.skipThrough ['*', '/'] (by simp)
  have size : s.curr + 1 + 1 + byteLength (Segment.splitThrough ['*', '/'] rest).1 =
      s.curr + byteLength ('/' :: '*' :: (Segment.splitThrough ['*', '/'] rest).1) :=
    (Nat.add_assoc ..).trans (Nat.add_assoc ..)
  have whole : Stands text front (('/' :: '*' :: (Segment.splitThrough ['*', '/'] rest).1) ++
      (Segment.splitThrough ['*', '/'] rest).2) s.curr := by
    rwa [List.cons_append, List.cons_append, Segment.splitThrough_append]
  change (skipThrough text ['*', '/'] (s.curr + 1 + 1) >>= _) = _
  rw [skipped, ok_bind, size, whole.countLines]
  rfl

theorem semicolon_eq (h : Stands text front rest s.curr) :
    s.semicolon text = .ok (s.past (Segment.semicolon rest).1) := by
  obtain ⟨skipped, behind⟩ :=
    skipWhile_stands h (uniform_of_beyond fun _ => isInlineGap_of_beyond)
  have there := behind.byteAt?_eq_some_iff (d := ';') (by decide)
  rw [Spot.semicolon, skipped, ok_bind]
  by_cases found : (rest.dropWhile Segment.isInlineGap).head? = some ';'
  · obtain ⟨more, tail⟩ := List.head?_eq_some_iff.mp found
    rw [if_pos (there.mpr found), Segment.semicolon, tail]
    exact congrArg Except.ok (s.past_append _ [';']).symm
  · have none : Segment.semicolon rest = ([], rest) := by
      unfold Segment.semicolon
      split
      next tail => exact absurd (by rw [tail]; rfl) found
      · rfl
    rw [if_neg (mt there.mp found), none]
    rfl

-- Directives.

def written (result : List Char × ImportState) : String × ImportState :=
  (String.ofList result.1, result.2)

def Follows (library : Library) (expand : Expanding) (expand' : Expander) (segs : List Segment)
    (s : ImportState) : Prop :=
  ∀ path ∈ segs.filterMap Segment.path?, path ∉ s.seen →
    ∀ file, library.load path = .ok file →
      ∀ s' : ImportState, s.seen ⊆ s'.seen → path ∈ s'.seen →
        expand file s' = .ok (written (expand' file.toList s'))

section

variable {library : Library} {expand : Expanding} {expand' : Expander} {segs : List Segment}
  {state state' : ImportState}

theorem Follows.behind {segment : Segment}
    (follows : Follows library expand expand' (segment :: segs) state)
    (grows : state.seen ⊆ state'.seen) : Follows library expand expand' segs state' := by
  intro path named new file load s' later
  obtain ⟨other, mem, found⟩ := List.mem_filterMap.mp named
  exact follows path (List.mem_filterMap.mpr ⟨other, List.mem_cons_of_mem _ mem, found⟩)
    (fun old => new (grows old)) file load s' (List.Subset.trans grows later)

theorem fetch_eq {head path tail : List Char} (line : Nat)
    (follows : Follows library expand expand' (.directive head (.file path tail) :: segs) state) :
    fetch library expand line (String.ofList path) state =
      .ok (written (library.fetch expand' line (String.ofList path) state)) := by
  unfold fetch Library.fetch
  by_cases old : String.ofList path ∈ state.seen
  · rw [if_pos old, if_pos old]
    rfl
  rw [if_neg old, if_neg old]
  dsimp only
  cases load : library.load (String.ofList path) with
  | error reason => rfl
  | ok file =>
    exact follows _ List.mem_cons_self old file load
      ⟨_, state.loads ++ [String.ofList path], state.faults⟩ (List.subset_append_left _ _)
      (List.mem_append_right _ List.mem_cons_self)

theorem past_quoted (s : Spot) (cs : List Char) :
    s.past ('"' :: (cs ++ ['"'])) = ⟨s.curr + byteLength cs + 2, s.line + lineBreaks cs⟩ := by
  rw [s.past_cons _ rfl (by decide), Spot.past_append]
  exact congrArg (Spot.mk · _) (congrArg (· + 1) (Nat.add_right_comm s.curr 1 _))

def Spot.pastTarget (s : Spot) : ImportTarget → Spot
  | .unclosed tail => { s with curr := s.curr + byteLength tail }
  | target => s.past target.text

theorem directive_eq {head : List Char} (h : Stands text front rest s.curr)
    (follows : Follows library expand expand'
      (.directive head (Segment.target (rest.dropWhile Segment.isGap)).1 :: segs) state) :
    let gap := rest.takeWhile Segment.isGap
    let target := (Segment.target (rest.dropWhile Segment.isGap)).1
    let put := written (library.splice expand' s.line gap target state)
    directive library expand text s state = .ok (put.1, (s.past gap).pastTarget target, put.2) := by
  obtain ⟨skipped, behind⟩ := skipWhile_stands h (uniform_of_beyond fun _ => isGap_of_beyond)
  have there := behind.byteAt?_eq_some_iff (d := '"') (by decide)
  dsimp only
  rw [directive, skipped, ok_bind]
  generalize rest.takeWhile Segment.isGap = gap at *
  rcases Segment.target_cases (rest.dropWhile Segment.isGap) with
    ⟨other, target⟩ | ⟨tail, same, unquoted, target⟩ | ⟨path, tail, same, unquoted, target⟩
  · rw [target, if_neg (mt there.mp other)]
    rfl
  · rw [same] at behind there target ⊢
    have inner := behind.next_ascii (by decide)
    rw [if_pos (there.mpr rfl), inner.search_char (by decide), ok_bind, if_neg unquoted, target,
      behind.size]
    rfl
  · rw [same] at behind there target follows ⊢
    rw [target] at follows ⊢
    have inner := behind.next_ascii (by decide)
    have found := inner.search_first (by decide) unquoted
    have close : Stands text _ tail ((s.past gap).past ('"' :: (path ++ ['"']))).curr :=
      Stands.past (by simpa using behind)
    have joined := (s.past gap).past_append ('"' :: (path ++ ['"'])) (Segment.semicolon tail).1
    rw [if_pos (there.mpr rfl), found, ok_bind]
    dsimp only
    rw [inner.cut, ok_bind, inner.countLines, ok_bind, ← past_quoted, semicolon_eq close, ok_bind,
      fetch_eq _ follows, ok_bind, ← joined, List.cons_append, List.append_assoc]
    rfl

-- Turns.

theorem next_iff (h : Stands text front (c :: rest) s.curr) (low : c.toNat < 128)
    (low' : d.toNat < 128) : byteAt? text (s.curr + 1) = some d ↔ rest.head? = some d :=
  (h.next_ascii low).byteAt?_eq_some_iff low'

structure Draft.Holds (text : String) (here : Draft) (kept back : List Char) : Prop where
  begun : ∃ front, Stands text front (kept ++ back) here.copied
  offset : here.spot.curr = here.copied + byteLength kept

namespace Draft

variable {here : Draft} {kept mid back : List Char}

theorem Holds.stands (h : here.Holds text kept back) :
    ∃ front, Stands text front back here.spot.curr := by
  obtain ⟨front, begun⟩ := h.begun
  exact ⟨front ++ kept, h.offset ▸ begun.forward⟩

theorem Holds.cut (h : here.Holds text kept back) :
    cut text here.copied here.spot.curr = .ok (String.ofList kept) := by
  obtain ⟨_, begun⟩ := h.begun
  rw [h.offset, begun.cut]

theorem Holds.forward (h : here.Holds text kept (mid ++ back)) :
    (here.on (here.spot.past mid)).Holds text (kept ++ mid) back := by
  obtain ⟨front, begun⟩ := h.begun
  refine ⟨⟨front, by rwa [List.append_assoc]⟩, ?_⟩
  have offset := congrArg (· + byteLength mid) h.offset
  rw [byteLength_append, ← Nat.add_assoc]
  exact offset

theorem holds_nil {front : List Char} (h : Stands text front back here.spot.curr)
    (copied : here.copied = here.spot.curr) : here.Holds text [] back :=
  ⟨⟨front, copied ▸ h⟩, copied.symm⟩

theorem turn_word (h : Stands text front (c :: rest) here.spot.curr)
    (start : isWordStart c = true) :
    here.turn library expand text =
      let word := (c :: rest).takeWhile isWordPart
      if word = Segment.importWord then here.replace library expand text (here.spot.past word)
      else .ok (here.on (here.spot.past word)) := by
  have low := lt_of_isWordPart (isWordPart_of_isWordStart start)
  have skipped := (skipWhile_stands h uniform_isWordPart).1
  have other {d : Char} (plain : isWordStart d = false) : c ≠ d := by
    rintro rfl
    rw [start] at plain
    cases plain
  rw [← List.takeWhile_append_dropWhile (p := isWordPart) (l := c :: rest)] at h
  have read := h.cut
  rw [List.takeWhile_append_dropWhile (p := isWordPart) (l := c :: rest)] at h
  rw [turn, h.byteAt_ascii low, ok_bind, if_neg (other rfl), if_neg (other rfl),
    if_neg fun slash => other rfl slash.1, if_neg fun slash => other rfl slash.1, if_pos start,
    skipped, ok_bind, Spot.past, read, ok_bind, String.toList_ofList]
  rfl

theorem turn_kept (h : Stands text front (c :: rest) here.spot.curr) (low : c.toNat < 128)
    (first : Segment.first c rest = (.verbatim mid, back)) :
    here.turn library expand text = .ok (here.on (here.spot.past mid)) := by
  by_cases start : isWordStart c = true
  · rw [Segment.first_word rest start] at first
    rw [turn_word h start]
    dsimp only
    split at first
    · cases first
    next other =>
      obtain ⟨⟨⟩, -⟩ := Prod.mk.inj first
      rw [if_neg other]
  have slash := next_iff h low (d := '/') (by decide)
  have star := next_iff h low (d := '*') (by decide)
  rw [turn, h.byteAt_ascii low, ok_bind]
  by_cases newline : c = '\n'
  · subst newline
    obtain ⟨⟨⟩, -⟩ := Prod.mk.inj first
    rfl
  by_cases quote : c = '"'
  · subst quote
    obtain ⟨⟨⟩, -⟩ := Prod.mk.inj first
    rw [if_neg newline, if_pos rfl, quoted_eq h]
    rfl
  rw [Segment.first, if_neg quote, if_neg start] at first
  simp only [if_neg newline, if_neg quote, slash, star, if_neg start]
  by_cases line : c = '/' ∧ rest.head? = some '/'
  · rw [if_pos line] at first ⊢
    obtain ⟨⟨⟩, -⟩ := Prod.mk.inj first
    rw [lineComment_eq h]
    rfl
  rw [if_neg line] at first ⊢
  by_cases block : c = '/' ∧ rest.head? = some '*'
  · rw [if_pos block] at first ⊢
    obtain ⟨⟨⟩, -⟩ := Prod.mk.inj first
    obtain ⟨rfl, follows⟩ := block
    obtain ⟨more, rfl⟩ := List.head?_eq_some_iff.mp follows
    rw [blockComment_eq h]
    rfl
  rw [if_neg block] at first ⊢
  obtain ⟨⟨⟩, -⟩ := Prod.mk.inj first
  rw [here.spot.past_singleton newline, utf8Size_of_lt low]
  rfl

theorem turn_beyond (read : byteAt text here.spot.curr = .ok c) (high : 128 ≤ c.toNat) :
    here.turn library expand text =
      .ok (here.on { here.spot with curr := here.spot.curr + 1 }) := by
  have other {d : Char} (low : d.toNat < 128) : c ≠ d := ne_of_beyond high low
  rw [turn, read, ok_bind, if_neg (other (by decide)), if_neg (other (by decide)),
    if_neg fun slash => other (by decide) slash.1, if_neg fun slash => other (by decide) slash.1,
    if_neg (Bool.eq_false_iff.mp (isWordStart_of_beyond high))]
  rfl

-- The whole text.

theorem walk_turn {there : Draft} (inside : here.spot.curr < text.utf8ByteSize)
    (turned : here.turn library expand text = .ok there)
    (further : here.spot.curr < there.spot.curr) :
    here.walk library expand text = there.walk library expand text := by
  rw [walk, dif_pos inside, turned, ok_bind, dif_pos further]

theorem walk_end (h : here.Holds text kept []) :
    here.walk library expand text = .ok (here.out ++ String.ofList kept, here.state) := by
  obtain ⟨_, stands⟩ := h.stands
  have cut := h.cut
  have size := stands.atEnd
  rw [walk, dif_neg (Nat.not_lt.mpr (Nat.le_of_eq size)), size, cut]
  rfl

theorem walk_beyond {bytes' more : List UInt8} (here : Draft)
    (rest : (bytes text).drop here.spot.curr = bytes' ++ more)
    (high : ∀ b ∈ bytes', 128 ≤ b.toNat) :
    here.walk library expand text =
      (here.on { here.spot with curr := here.spot.curr + bytes'.length }).walk library expand
        text := by
  induction bytes' generalizing here with
  | nil => rfl
  | cons b bytes' ih =>
    obtain ⟨first, others⟩ := List.forall_mem_cons.mp high
    have found : (bytes text)[here.spot.curr]? = some b := by
      rw [← List.head?_drop, rest]
      rfl
    have inside : here.spot.curr < text.utf8ByteSize := by
      rw [← length_bytes]
      exact (List.getElem?_eq_some_iff.mp found).1
    have read : byteAt text here.spot.curr = .ok (Char.ofUInt8 b) := by rw [byteAt, found]
    have next : (bytes text).drop (here.spot.curr + 1) = bytes' ++ more := by
      rw [← List.tail_drop, rest]
      rfl
    rw [walk_turn inside (turn_beyond read first) (Nat.lt_succ_self _), ih _ next others,
      List.length_cons, Nat.add_comm bytes'.length]
    simp only [on, Nat.add_assoc]

theorem verbatim_of_beyond (high : 128 ≤ c.toNat) (rest : List Char) :
    Segment.first c rest = (.verbatim [c], rest) := by
  have other {d : Char} (low : d.toNat < 128) : c ≠ d := ne_of_beyond high low
  rw [Segment.first, if_neg (other (by decide)), if_neg fun slash => other (by decide) slash.1,
    if_neg fun slash => other (by decide) slash.1,
    if_neg (Bool.eq_false_iff.mp (isWordStart_of_beyond high))]

theorem walk_kept (h : here.Holds text kept (c :: rest))
    (first : Segment.first c rest = (.verbatim mid, back)) :
    here.walk library expand text =
      (here.on (here.spot.past mid)).walk library expand text := by
  obtain ⟨front, stands⟩ := h.stands
  by_cases low : c.toNat < 128
  · have some_char := Segment.text_first_ne_nil c rest
    rw [first] at some_char
    exact walk_turn stands.inside (turn_kept stands low first) (past_lt _ some_char)
  · -- The character is one segment, but it takes one turn for each of its bytes.
    have high := Nat.le_of_not_lt low
    obtain ⟨⟨⟩, -⟩ := Prod.mk.inj ((verbatim_of_beyond high rest).symm.trans first)
    have code : (bytes text).drop here.spot.curr =
        String.utf8EncodeChar c ++ rest.flatMap String.utf8EncodeChar := stands.drop
    rw [walk_beyond here code (le_of_mem_encode high), String.length_utf8EncodeChar,
      here.spot.past_singleton (ne_of_beyond high (by decide))]

theorem splice_append (expand : Expander) (line : Nat) (xs ys : List Char) (target : ImportTarget)
    (s : ImportState) :
    library.splice expand line (xs ++ ys) target s =
      library.splice expand (line + lineBreaks xs) ys target s := by
  unfold Library.splice
  rw [lineBreaks_append, ← Nat.add_assoc]

theorem pastTarget_curr (s : Spot) (target : ImportTarget) :
    (s.pastTarget target).curr = (s.past target.text).curr := by
  cases target <;> rfl

def replaced (here : Draft) (kept head : List Char) (target : ImportTarget)
    (put : String × ImportState) : Draft :=
  let behind := (here.spot.past head).pastTarget target
  ⟨behind.curr, behind, here.out ++ String.ofList kept ++ put.1, put.2⟩

theorem turn_directive {head : List Char} {target : ImportTarget}
    (h : here.Holds text kept (c :: rest))
    (first : Segment.first c rest = (.directive head target, back))
    (follows : Follows library expand expand' (.directive head target :: segs) here.state) :
    here.turn library expand text = .ok (here.replaced kept head target
      (written (library.splice expand' here.spot.line head target here.state))) := by
  obtain ⟨front, stands⟩ := h.stands
  obtain ⟨start, word, same⟩ := Segment.first_directive first
  obtain ⟨made, -⟩ := Prod.mk.inj same
  obtain ⟨rfl, rfl⟩ := Segment.directive.inj made
  have turned : here.turn library expand text = _ := turn_word stands start
  rw [← List.takeWhile_append_dropWhile (p := isWordPart) (l := c :: rest), word] at stands
  rw [word] at turned
  have replacing := directive_eq (s := here.spot.past Segment.importWord) stands.past follows
  have kept_text := h.cut
  rw [turned]
  dsimp only at replacing ⊢
  rw [if_pos rfl, replace, kept_text, ok_bind, replacing, ok_bind, replaced, splice_append,
    Spot.past_append]
  rfl

theorem holds_replaced {head : List Char} {target : ImportTarget}
    (h : here.Holds text kept (c :: rest))
    (first : Segment.first c rest = (.directive head target, back)) (put : String × ImportState) :
    here.spot.curr < (here.replaced kept head target put).spot.curr ∧
      (here.replaced kept head target put).Holds text [] back := by
  have whole := Segment.first_append c rest
  have some_text := Segment.text_first_ne_nil c rest
  rw [first] at whole some_text
  obtain ⟨front, stands⟩ := h.stands
  rw [← whole] at stands
  have curr : (here.replaced kept head target put).spot.curr =
      (here.spot.past (head ++ target.text)).curr := by
    rw [Spot.past_append]
    exact pastTarget_curr _ _
  exact ⟨curr ▸ past_lt here.spot some_text, holds_nil (curr ▸ stands.past) rfl⟩

variable (library expand') in
-- The lines of a path without an end are not counted, but the text ends with it.
theorem spliceAll_pastTarget {head : List Char} {target : ImportTarget}
    (first : Segment.first c rest = (.directive head target, back)) (s : Spot)
    (state : ImportState) :
    library.spliceAll expand' ((s.past head).pastTarget target).line (segments back) state =
      library.spliceAll expand' (s.line + lineBreaks (head ++ target.text)) (segments back)
        state := by
  have line : (s.past (head ++ target.text)).line = ((s.past head).past target.text).line := by
    rw [Spot.past_append]
  cases target with
  | missing | file => exact congrArg (library.spliceAll expand' · _ _) line.symm
  | unclosed tail =>
    obtain ⟨_, -, -, rfl, -⟩ := Segment.first_eq_directive first
    rw [segments, Library.spliceAll, Library.spliceAll]

theorem walk_eq (grows : ∀ cs s, s.seen ⊆ (expand' cs s).2.seen) (h : here.Holds text kept back)
    (follows : Follows library expand expand' (segments back) here.state) :
    let put := written (library.spliceAll expand' here.spot.line (segments back) here.state)
    here.walk library expand text = .ok (here.out ++ (String.ofList kept ++ put.1), put.2) := by
  -- Paths are only ever added, so behind a directive the rest is still expanded alike.
  induction back using segments.induct generalizing here kept with
  | case1 =>
    dsimp only
    rw [walk_end h, segments, Library.spliceAll, written, String.append_empty]
  | case2 c rest ih =>
    have whole := Segment.first_append c rest
    rw [segments] at follows ⊢
    generalize first : Segment.first c rest = segment at *
    obtain ⟨segment, back⟩ := segment
    cases segment with
    | verbatim mid =>
      have passed : here.walk library expand text = _ := walk_kept h first
      rw [← whole] at h
      have later := ih h.forward (follows.behind (List.Subset.refl _))
      refine passed.trans (later.trans ?_)
      dsimp only [Library.spliceAll, Segment.text, written, on]
      rw [String.ofList_append, String.ofList_append, String.append_assoc]
      rfl
    | directive head target =>
      have turned := turn_directive h first follows
      have same := spliceAll_pastTarget library expand' first here.spot
      have more : here.state.seen ⊆
          (library.splice expand' here.spot.line head target here.state).2.seen :=
        Library.seen_subset_splice grows _ _ _ _
      obtain ⟨front, stands⟩ := h.stands
      obtain ⟨further, holds⟩ := holds_replaced h first
        (written (library.splice expand' here.spot.line head target here.state))
      have later := ih holds (follows.behind more)
      refine (walk_turn stands.inside turned further).trans (later.trans ?_)
      dsimp only [Library.spliceAll, Segment.text, written, replaced]
      rw [same, String.ofList_nil, String.empty_append, String.ofList_append]
      simp only [String.append_assoc]

end Draft

end

-- Whole libraries.

theorem expand_succ {library : Library} {depth : Nat} {s : ImportState}
    (follows : Follows library (expand library depth) (library.expand depth)
      (segments text.toList) s) :
    expand library (depth + 1) text s =
      .ok (written (library.expand (depth + 1) text.toList s)) := by
  have start : Draft.Holds text ⟨0, ⟨0, 1⟩, "", s⟩ [] text.toList :=
    Draft.holds_nil (stands_zero text) rfl
  have walked := Draft.walk_eq (Library.seen_subset_expand depth) start follows
  dsimp only at walked
  rwa [String.ofList_nil, String.empty_append, String.empty_append] at walked

theorem expand_eq {library : Library} {depth : Nat} (enough : library.depth ≤ depth) (text : String)
    (s : ImportState) :
    expand library depth text s = .ok (written (library.expand depth text.toList s)) :=
  Library.depth_induction
    (motive := fun depth cs s => ∀ text : String, text.toList = cs →
      expand library depth text s = .ok (written (library.expand depth cs s)))
    (fun _ _ _ deep text same => by
      subst same
      exact expand_succ fun path named new file load s' later old =>
        deep path named new file load s' later old file rfl)
    enough text.toList s text rfl

theorem process_eq {library : Library} {depth : Nat} (enough : library.depth ≤ depth)
    (seen : List String) (source : String) :
    process library depth seen source = .ok (library.process seen source) := by
  rw [process, expand_eq enough, ok_bind, Library.expand_enough enough]
  rfl

-- Both readers.

/-- Neither the scanner nor the reader of imports ever asks for a byte outside of the text, or for a
part that is not in order or that begins or ends inside a character; neither stands still; and what
they give is what the scan and the expansion of the text are. -/
structure InBounds (text : String) : Prop where
  scanned : Yields text ⟨0, 1⟩ (scan text)
  advances : ∀ s : Spot, Boundary text s.curr →
    ∃ item behind, next text s = .ok (some item, behind) ∧ s.curr < behind.curr ∧
      (Boundary text behind.curr ∨ behind.curr = text.utf8ByteSize + 1)
  ended : ∀ s : Spot, text.utf8ByteSize < s.curr → next text s = .ok (none, s)
  expanded : ∀ (library : Library) (seen : List String) (depth : Nat), library.depth ≤ depth →
    process library depth seen text = .ok (library.process seen text)

theorem in_bounds (text : String) : InBounds text where
  scanned := yields_scanPieces (s := ⟨0, 1⟩) (stands_zero text)
  advances _ := next_advances
  ended _ := next_behind
  expanded _ seen _ enough := process_eq enough seen text

end Bytewise

end ScopeScript
