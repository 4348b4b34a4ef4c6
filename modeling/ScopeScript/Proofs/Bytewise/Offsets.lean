import ScopeScript.Proofs.Bytewise.Encoding
import ScopeScript.Proofs.Scanning.Layout

set_option autoImplicit false

namespace ScopeScript

namespace Bytewise

inductive Stop where
  | outside (i : Nat)
  | astray (i j : Nat)
  | fallback
  | stuck (i : Nat)
  | exhausted
  deriving DecidableEq

abbrev Reading := Except Stop

@[simp] theorem ok_bind {α β : Type} (a : α) (f : α → Reading β) :
    ((.ok a : Reading α) >>= f) = f a :=
  rfl

def bytes (text : String) : List UInt8 := text.toByteArray.data.toList

def Boundary (text : String) (i : Nat) : Prop := String.Pos.Raw.IsValid text ⟨i⟩

instance (text : String) (i : Nat) : Decidable (Boundary text i) :=
  inferInstanceAs (Decidable (String.Pos.Raw.IsValid text ⟨i⟩))

structure Spot where
  curr : Nat
  line : Nat

def Spot.past (s : Spot) (cs : List Char) : Spot :=
  ⟨s.curr + byteLength cs, s.line + lineBreaks cs⟩

def find? (mark : List UInt8) : List UInt8 → Option Nat
  | [] => none
  | b :: rest => if mark.isPrefixOf (b :: rest) then some 0 else (find? mark rest).map (· + 1)

section

variable (text : String)

def byteAt (i : Nat) : Reading Char :=
  match (bytes text)[i]? with
  | none => .error (.outside i)
  | some b => .ok (Char.ofUInt8 b)

def byteAt? (i : Nat) : Option Char := (bytes text)[i]?.map Char.ofUInt8

def peek (i : Nat) : Reading Char :=
  if i < text.utf8ByteSize then byteAt text i else .ok '\x00'

def cut (i j : Nat) : Reading String :=
  if ends : i ≤ j ∧ Boundary text i ∧ Boundary text j then
    .ok (String.extract ⟨⟨i⟩, ends.2.1⟩ ⟨⟨j⟩, ends.2.2⟩)
  else .error (.astray i j)

def search (mark : List Char) (i : Nat) : Reading (Option Nat) := do
  return find? (mark.flatMap String.utf8EncodeChar) (bytes (← cut text i text.utf8ByteSize))

def skipTo (mark : Char) (i : Nat) : Reading Nat := do
  match ← search text [mark] i with
  | none => return text.utf8ByteSize
  | some n => return i + n

def skipThrough (mark : List Char) (i : Nat) : Reading Nat := do
  match ← search text mark i with
  | none => return text.utf8ByteSize
  | some n => return i + n + byteLength mark

def countLines (i j : Nat) : Reading Nat := do
  return (bytes (← cut text i j)).countP fun b => Char.ofUInt8 b = '\n'

def skipWhile (p : Char → Bool) (s : Spot) : Reading Spot := do
  if _ : s.curr < text.utf8ByteSize then
    let c ← byteAt text s.curr
    if p c then skipWhile p ⟨s.curr + 1, if c = '\n' then s.line + 1 else s.line⟩ else return s
  else return s
termination_by text.utf8ByteSize - s.curr

end

-- Bytes and characters.

theorem bytes_eq (text : String) : bytes text = text.toList.flatMap String.utf8EncodeChar := by
  rw [← String.ofList_toList (s := text), bytes, String.toByteArray_ofList, String.toList_ofList]
  simp [List.utf8Encode]

theorem bytes_inj {s t : String} (same : bytes s = bytes t) : s = t :=
  String.toByteArray_inj.mp (ByteArray.ext (Array.toList_inj.mp same))

theorem length_encode (cs : List Char) :
    (cs.flatMap String.utf8EncodeChar).length = byteLength cs := by
  induction cs with
  | nil => rfl
  | cons c cs ih =>
    rw [List.flatMap_cons, List.length_append, String.length_utf8EncodeChar, ih, byteLength]

theorem length_bytes (text : String) : (bytes text).length = text.utf8ByteSize :=
  String.size_toByteArray

theorem utf8ByteSize_eq (text : String) : text.utf8ByteSize = byteLength text.toList := by
  rw [← length_bytes, bytes_eq, length_encode]

theorem countP_encode (cs : List Char) :
    (cs.flatMap String.utf8EncodeChar).countP (fun b => Char.ofUInt8 b = '\n') = lineBreaks cs := by
  induction cs with
  | nil => rfl
  | cons c cs ih =>
    rw [List.flatMap_cons, List.countP_append, ih, lineBreaks, lineBreaks, List.count_cons,
      Nat.add_comm]
    congr 1
    by_cases same : c = '\n'
    · subst same
      rfl
    · rw [if_neg (by simpa using same), List.countP_eq_zero]
      intro b mem found
      have alike := alike_of_mem_encode mem
      rw [of_decide_eq_true found] at alike
      rcases alike with same' | ⟨high, -⟩
      · exact same same'.symm
      · exact absurd high (by decide)

/-- The offset stands behind the first of two parts of the text and before the second. -/
structure Stands (text : String) (front back : List Char) (i : Nat) : Prop where
  whole : text.toList = front ++ back
  offset : i = byteLength front

variable {text : String} {front mid back rest : List Char} {c d : Char} {i : Nat}

theorem stands_zero (text : String) : Stands text [] text.toList 0 := ⟨rfl, rfl⟩

theorem exists_stands (boundary : Boundary text i) : ∃ front back, Stands text front back i := by
  obtain ⟨s, t, rfl, offset⟩ := String.Pos.Raw.isValid_iff_exists_append.mp boundary
  refine ⟨s.toList, t.toList, String.toList_append, ?_⟩
  rw [← utf8ByteSize_eq]
  exact congrArg String.Pos.Raw.byteIdx offset

namespace Stands

theorem boundary (h : Stands text front back i) : Boundary text i := by
  refine String.Pos.Raw.isValid_iff_exists_append.mpr
    ⟨String.ofList front, String.ofList back, ?_, ?_⟩
  · rw [← String.ofList_append, ← h.whole, String.ofList_toList]
  · rw [String.rawEndPos, utf8ByteSize_eq, String.toList_ofList, h.offset]

theorem forward (h : Stands text front (mid ++ back) i) :
    Stands text (front ++ mid) back (i + byteLength mid) :=
  ⟨by rw [h.whole, List.append_assoc], by rw [h.offset, byteLength_append]⟩

theorem next (h : Stands text front (c :: back) i) :
    Stands text (front ++ [c]) back (i + c.utf8Size) :=
  forward (show Stands text front ([c] ++ back) i from h)

theorem size (h : Stands text front back i) : text.utf8ByteSize = i + byteLength back := by
  rw [utf8ByteSize_eq, h.whole, byteLength_append, h.offset]

theorem atEnd (h : Stands text front [] i) : text.utf8ByteSize = i := h.size

theorem inside (h : Stands text front (c :: back) i) : i < text.utf8ByteSize := by
  have size := h.size
  have pos := c.utf8Size_pos
  rw [byteLength] at size
  omega

theorem drop (h : Stands text front back i) :
    (bytes text).drop i = back.flatMap String.utf8EncodeChar := by
  rw [bytes_eq, h.whole, List.flatMap_append, h.offset, ← length_encode, List.drop_left]

theorem cut (h : Stands text front (mid ++ back) i) :
    cut text i (i + byteLength mid) = .ok (String.ofList mid) := by
  have ends : i ≤ i + byteLength mid ∧ Boundary text i ∧ Boundary text (i + byteLength mid) :=
    ⟨Nat.le_add_right _ _, h.boundary, h.forward.boundary⟩
  rw [Bytewise.cut, dif_pos ends]
  refine congrArg Except.ok (bytes_inj ?_)
  rw [bytes, String.toByteArray_extract, ByteArray.data_extract, Array.toList_extract,
    List.extract_eq_take_drop, bytes_eq, String.toList_ofList]
  change ((bytes text).drop i).take (i + byteLength mid - i) = _
  rw [h.drop, List.flatMap_append, Nat.add_sub_cancel_left, ← length_encode, List.take_left]

-- Inside a character no part ends.
example : Bytewise.cut "aé" 1 2 = .error (.astray 1 2) := by decide +kernel

theorem cut_end (h : Stands text front back i) :
    Bytewise.cut text i text.utf8ByteSize = .ok (String.ofList back) := by
  have whole : Stands text front (back ++ []) i := by rwa [List.append_nil]
  rw [h.size, whole.cut]

theorem byteAt_eq (h : Stands text front (c :: back) i) :
    ∃ d, byteAt text i = .ok d ∧ byteAt? text i = some d ∧ Alike d c := by
  obtain ⟨b, more, code⟩ := List.exists_cons_of_ne_nil (@String.utf8EncodeChar_ne_nil c)
  have found : (bytes text)[i]? = some b := by
    rw [← List.head?_drop, h.drop, List.flatMap_cons, code]
    rfl
  exact ⟨Char.ofUInt8 b, by rw [byteAt, found], by rw [byteAt?, found]; rfl,
    alike_of_mem_encode (code ▸ List.mem_cons_self)⟩

theorem byteAt_ascii (h : Stands text front (c :: back) i) (ascii : c.toNat < 128) :
    byteAt text i = .ok c := by
  obtain ⟨d, read, -, alike⟩ := h.byteAt_eq
  rw [read, alike.eq_of_lt ascii]

theorem byteAt?_eq_some_iff (h : Stands text front back i) (ascii : d.toNat < 128) :
    byteAt? text i = some d ↔ back.head? = some d := by
  cases back with
  | nil =>
    have none : (bytes text)[i]? = none := by
      rw [List.getElem?_eq_none_iff, length_bytes]
      exact Nat.le_of_eq h.atEnd
    rw [byteAt?, none]
    exact Iff.rfl
  | cons c back =>
    obtain ⟨d', -, read, alike⟩ := h.byteAt_eq
    rw [read, List.head?_cons, Option.some_inj, Option.some_inj]
    constructor
    · rintro rfl
      rcases alike with same | ⟨high, -⟩
      · exact same.symm
      · omega
    · rintro rfl
      exact alike.eq_of_lt ascii

end Stands

-- Bytes that pass.

theorem skipWhile_eq {p : Char → Bool} {run : List UInt8} (s : Spot)
    (passed : ((bytes text).drop s.curr).takeWhile (fun b => p (Char.ofUInt8 b)) = run) :
    skipWhile text p s =
      .ok ⟨s.curr + run.length, s.line + run.countP fun b => Char.ofUInt8 b = '\n'⟩ := by
  generalize rest : (bytes text).drop s.curr = more at passed
  induction more generalizing s run with
  | nil =>
    have outside : ¬s.curr < text.utf8ByteSize := by
      rw [← length_bytes]
      exact Nat.not_lt.mpr (List.drop_eq_nil_iff.mp rest)
    rw [skipWhile, dif_neg outside, ← passed]
    rfl
  | cons b more ih =>
    have found : (bytes text)[s.curr]? = some b := by
      rw [← List.head?_drop, rest, List.head?_cons]
    have inside : s.curr < text.utf8ByteSize := by
      rw [← length_bytes]
      exact (List.getElem?_eq_some_iff.mp found).1
    have next : (bytes text).drop (s.curr + 1) = more := by
      rw [← List.tail_drop, rest, List.tail_cons]
    rw [skipWhile, dif_pos inside, byteAt, found]
    change (if p (Char.ofUInt8 b) then _ else _) = _
    rw [List.takeWhile_cons] at passed
    split
    next passes =>
      rw [if_pos passes] at passed
      subst passed
      rw [ih _ next rfl, List.length_cons, List.countP_cons]
      simp only [decide_eq_true_eq]
      congr 2
      · omega
      · split <;> omega
    next stops =>
      rw [if_neg stops] at passed
      subst passed
      rfl

namespace Stands

theorem skipWhile {p : Char → Bool} {s : Spot} (h : Stands text front back s.curr)
    (uniform : Uniform p) : skipWhile text p s = .ok (s.past (back.takeWhile p)) := by
  have passed := uniform.agrees.takeWhile back
  rw [← h.drop] at passed
  rw [skipWhile_eq s passed, length_encode, countP_encode]
  rfl

theorem countLines (h : Stands text front (mid ++ back) i) :
    countLines text i (i + byteLength mid) = .ok (lineBreaks mid) := by
  rw [Bytewise.countLines, h.cut]
  change Except.ok (List.countP _ (bytes (String.ofList mid))) = _
  rw [bytes_eq, String.toList_ofList, countP_encode]

theorem search (h : Stands text front back i) (mark : List Char) :
    search text mark i = .ok (find? (mark.flatMap String.utf8EncodeChar)
      (back.flatMap String.utf8EncodeChar)) := by
  rw [Bytewise.search, h.cut_end]
  change Except.ok (find? _ (bytes (String.ofList back))) = _
  rw [bytes_eq, String.toList_ofList]

end Stands

-- Marks.

theorem find?_singleton (b : UInt8) (bytes : List UInt8) :
    find? [b] bytes = if b ∈ bytes then some (bytes.takeWhile (· != b)).length else none := by
  induction bytes with
  | nil => rfl
  | cons b' bytes ih =>
    by_cases same : b = b'
    · subst same
      simp [find?]
    · simp [find?, same, Ne.symm same, ih, apply_ite]

theorem find?_char (ascii : d.toNat < 128) (cs : List Char) :
    find? ([d].flatMap String.utf8EncodeChar) (cs.flatMap String.utf8EncodeChar) =
      if d ∈ cs then some (byteLength (cs.takeWhile (· != d))) else none := by
  obtain ⟨b, code, -⟩ := encode_ascii ascii
  have agrees := agrees_ne ascii code
  have mem : b ∈ cs.flatMap String.utf8EncodeChar ↔ d ∈ cs := by
    rw [List.mem_flatMap]
    constructor
    · rintro ⟨c, mem, inside⟩
      have same := agrees c b inside
      simp only [bne_self_eq_false] at same
      rwa [bne_eq_false_iff_eq.mp same.symm] at mem
    · exact fun mem => ⟨d, mem, code ▸ List.mem_singleton_self b⟩
  rw [List.flatMap_singleton, code, find?_singleton, agrees.takeWhile, length_encode]
  simp only [mem]

theorem prefix_of_prefix_encode {mark cs : List Char} (ascii : ∀ d ∈ mark, d.toNat < 128)
    (start : mark.flatMap String.utf8EncodeChar <+: cs.flatMap String.utf8EncodeChar) :
    mark <+: cs := by
  induction mark generalizing cs with
  | nil => exact List.nil_prefix
  | cons d mark ih =>
    obtain ⟨low, others⟩ := List.forall_mem_cons.mp ascii
    obtain ⟨b, code, number⟩ := encode_ascii low
    rw [List.flatMap_cons, code, List.singleton_append] at start
    cases cs with
    | nil => cases List.prefix_nil.mp start
    | cons c cs =>
      obtain ⟨b', more, code'⟩ := List.exists_cons_of_ne_nil (@String.utf8EncodeChar_ne_nil c)
      have inside : b' ∈ String.utf8EncodeChar c := code' ▸ List.mem_cons_self
      rw [List.flatMap_cons, code', List.cons_append] at start
      obtain ⟨rfl, later⟩ := List.cons_prefix_cons.mp start
      have alike := alike_of_mem_encode inside
      rw [number] at alike
      obtain rfl : c = d := alike.symm.eq_of_lt low
      obtain ⟨-, rfl⟩ := List.cons.inj (code'.symm.trans code)
      exact List.cons_prefix_cons.mpr ⟨rfl, ih others later⟩

theorem find?_append_of_notMem {b : UInt8} {mark run : List UInt8} (other : b ∉ run)
    (more : List UInt8) :
    find? (b :: mark) (run ++ more) = (find? (b :: mark) more).map (· + run.length) := by
  induction run with
  | nil => simp
  | cons b' run ih =>
    obtain ⟨first, other⟩ := not_or.mp (List.mem_cons.not.mp other)
    have unmarked : (b :: mark).isPrefixOf (b' :: (run ++ more)) = false := by
      simp [List.isPrefixOf, first]
    rw [List.cons_append, find?, unmarked, if_neg Bool.false_ne_true, ih other, Option.map_map]
    rfl

theorem find?_encode_cons {mark : List Char} (ascii : ∀ d ∈ mark, d.toNat < 128) {cs : List Char}
    (other : ¬mark <+: c :: cs) :
    find? (mark.flatMap String.utf8EncodeChar) ((c :: cs).flatMap String.utf8EncodeChar) =
      (find? (mark.flatMap String.utf8EncodeChar)
        (cs.flatMap String.utf8EncodeChar)).map (· + c.utf8Size) := by
  by_cases low : c.toNat < 128
  · obtain ⟨b, code, -⟩ := encode_ascii low
    have unmarked : ¬(mark.flatMap String.utf8EncodeChar).isPrefixOf
        (b :: cs.flatMap String.utf8EncodeChar) = true := by
      intro start
      refine other (prefix_of_prefix_encode ascii ?_)
      rw [List.flatMap_cons, code]
      exact List.isPrefixOf_iff_prefix.mp start
    have size := String.length_utf8EncodeChar c
    rw [code] at size
    rw [List.flatMap_cons, code, List.singleton_append, find?, if_neg unmarked, ← size]
    rfl
  · cases mark with
    | nil => exact absurd List.nil_prefix other
    | cons d mark =>
      have first := ascii d List.mem_cons_self
      obtain ⟨b, code, number⟩ := encode_ascii first
      have outside : b ∉ String.utf8EncodeChar c := by
        intro mem
        have high : 128 ≤ (Char.ofUInt8 b).toNat := le_of_mem_encode (Nat.le_of_not_lt low) b mem
        rw [number] at high
        omega
      rw [List.flatMap_cons, code, List.singleton_append, List.flatMap_cons,
        find?_append_of_notMem outside, String.length_utf8EncodeChar]

theorem find?_encode {mark : List Char} (ascii : ∀ d ∈ mark, d.toNat < 128) (cs : List Char) :
    (find? (mark.flatMap String.utf8EncodeChar) (cs.flatMap String.utf8EncodeChar)).elim
        (byteLength cs) (· + byteLength mark) =
      byteLength (Segment.splitThrough mark cs).1 := by
  induction cs with
  | nil => rfl
  | cons c cs ih =>
    unfold Segment.splitThrough
    by_cases start : mark <+: c :: cs
    · rw [if_pos (List.isPrefixOf_iff_prefix.mpr start)]
      have here : find? (mark.flatMap String.utf8EncodeChar)
          ((c :: cs).flatMap String.utf8EncodeChar) = some 0 := by
        obtain ⟨b, more, code⟩ := List.exists_cons_of_ne_nil
          (show (c :: cs).flatMap String.utf8EncodeChar ≠ [] by simp)
        obtain ⟨behind, whole⟩ := start
        rw [code, find?]
        refine if_pos (List.isPrefixOf_iff_prefix.mpr ?_)
        rw [← code, ← whole, List.flatMap_append]
        exact List.prefix_append _ _
      obtain ⟨behind, whole⟩ := start
      rw [here, ← whole, List.take_left]
      exact Nat.zero_add _
    · rw [if_neg (mt List.isPrefixOf_iff_prefix.mp start), find?_encode_cons ascii start,
        byteLength]
      change _ = c.utf8Size + byteLength (Segment.splitThrough mark cs).1
      rw [← ih]
      cases find? (mark.flatMap String.utf8EncodeChar) (cs.flatMap String.utf8EncodeChar) with
      | none => rfl
      | some n =>
        simp only [Option.map_some, Option.elim_some]
        omega

namespace Stands

theorem search_char (h : Stands text front back i) (ascii : d.toNat < 128) :
    Bytewise.search text [d] i =
      .ok (if d ∈ back then some (byteLength (back.takeWhile (· != d))) else none) := by
  rw [h.search, find?_char ascii]

theorem search_first (h : Stands text front (mid ++ d :: back) i) (ascii : d.toNat < 128)
    (other : d ∉ mid) : Bytewise.search text [d] i = .ok (some (byteLength mid)) := by
  have inside : ∀ c ∈ mid, (c != d) = true := fun c mem =>
    bne_iff_ne.mpr (ne_of_mem_of_not_mem mem other)
  rw [h.search_char ascii, if_pos (by simp), List.takeWhile_append_of_pos inside,
    List.takeWhile_cons_of_neg (by simp), List.append_nil]

theorem skipTo (h : Stands text front back i) (ascii : d.toNat < 128) :
    skipTo text d i = .ok (i + byteLength (back.takeWhile (· != d))) := by
  rw [Bytewise.skipTo, h.search_char ascii]
  by_cases mem : d ∈ back
  · rw [if_pos mem]
    rfl
  · have all : back.takeWhile (· != d) = back :=
      List.takeWhile_eq_self_iff.mpr fun c inside => bne_iff_ne.mpr fun same => mem (same ▸ inside)
    rw [if_neg mem, all, ← h.size]
    rfl

theorem skipThrough (h : Stands text front back i) (mark : List Char)
    (ascii : ∀ d ∈ mark, d.toNat < 128) :
    skipThrough text mark i = .ok (i + byteLength (Segment.splitThrough mark back).1) := by
  have found := find?_encode ascii back
  rw [Bytewise.skipThrough, h.search, ← found]
  cases find? (mark.flatMap String.utf8EncodeChar) (back.flatMap String.utf8EncodeChar) with
  | none => exact congrArg Except.ok h.size
  | some n => exact congrArg Except.ok (Nat.add_assoc ..)

end Stands

end Bytewise

end ScopeScript
