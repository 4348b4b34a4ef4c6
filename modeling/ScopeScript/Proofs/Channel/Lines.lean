import ScopeScript.Channel.Input
import ScopeScript.Proofs.Bytewise.Encoding

set_option autoImplicit false

namespace ScopeScript.Input

def lines : List UInt8 → List (List UInt8)
  | [] => []
  | b :: rest =>
    if b = newline then [b] :: lines rest
    else
      match lines rest with
      | [] => [[b]]
      | line :: others => (b :: line) :: others

variable {input rest : Input} {bytes line tail : List UInt8}

theorem lines_eq_nil : lines bytes = [] ↔ bytes = [] := by
  cases bytes with
  | nil => exact iff_of_true rfl rfl
  | cons b bytes =>
    refine iff_of_false ?_ (List.cons_ne_nil _ _)
    unfold lines
    split
    · exact List.cons_ne_nil _ _
    · split <;> exact List.cons_ne_nil _ _

theorem flatten_lines (bytes : List UInt8) : (lines bytes).flatten = bytes := by
  induction bytes with
  | nil => rfl
  | cons b rest ih =>
    unfold lines
    split
    · rw [List.flatten_cons, ih, List.singleton_append]
    · split
      next none =>
        rw [lines_eq_nil.mp none]
        rfl
      next line others found =>
        rw [found, List.flatten_cons] at ih
        rw [List.flatten_cons, List.cons_append, ih]

theorem length_lines_le (bytes : List UInt8) : (lines bytes).length ≤ bytes.length := by
  induction bytes with
  | nil => exact Nat.le_refl 0
  | cons b rest ih =>
    unfold lines
    split
    · exact Nat.succ_le_succ ih
    · split
      next none => exact Nat.succ_le_succ (Nat.zero_le _)
      next line others found =>
        rw [found] at ih
        exact Nat.le_succ_of_le ih

theorem lines_append (none : ∀ b ∈ line, b ≠ newline) :
    lines (line ++ newline :: tail) = (line ++ [newline]) :: lines tail := by
  induction line with
  | nil => exact if_pos rfl
  | cons b line ih =>
    obtain ⟨other, none⟩ := List.forall_mem_cons.mp none
    rw [List.cons_append, lines, if_neg other, ih none]
    rfl

theorem lines_of_no_newline (some : line ≠ []) (none : ∀ b ∈ line, b ≠ newline) :
    lines line = [line] := by
  induction line with
  | nil => exact absurd rfl some
  | cons b line ih =>
    obtain ⟨other, none⟩ := List.forall_mem_cons.mp none
    rw [lines, if_neg other]
    by_cases last : line = []
    · rw [last]
      rfl
    · rw [ih last none]

structure Gives (input : Input) (next : List (List UInt8)) (rest : Input) : Prop where
  lines : lines input.bytes = next ++ lines rest.bytes
  ended : rest.ended = input.ended

namespace Gives

variable {next next' : List (List UInt8)} {rest' : Input}

theorem refl (input : Input) : input.Gives [] input := ⟨rfl, rfl⟩

theorem trans (first : input.Gives next rest) (second : rest.Gives next' rest') :
    input.Gives (next ++ next') rest' :=
  ⟨by rw [first.lines, second.lines, List.append_assoc], second.ended.trans first.ended⟩

end Gives

theorem gives_of_read (read : input.line = .read line rest) : input.Gives [line] rest := by
  have whole : input.bytes.takeWhile (· != newline) ++ input.bytes.dropWhile (· != newline) =
    input.bytes := List.takeWhile_append_dropWhile
  have none : ∀ b ∈ input.bytes.takeWhile (· != newline), b ≠ newline := fun b mem => by
    simpa using List.mem_takeWhile_imp mem
  have first := List.head?_dropWhile_not (· != newline) input.bytes
  unfold Input.line at read
  split at read
  next b others found =>
    obtain ⟨rfl, rfl⟩ := Line.read.inj read
    rw [found] at first whole
    have same : b = newline := by simpa using first
    rw [same] at whole
    exact ⟨(congrArg lines whole.symm).trans (lines_append none), rfl⟩
  next found =>
    rw [found, List.append_nil] at whole
    rw [whole] at none
    split at read
    · cases read
    split at read
    · cases read
    next some =>
      obtain ⟨rfl, rfl⟩ := Line.read.inj read
      exact ⟨lines_of_no_newline (fun empty => some (by rw [empty]; rfl)) none, rfl⟩

theorem line_of_ended (ended : input.ended = true) :
    input.bytes = [] ∧ input.line = .atEnd ∨ ∃ line rest, input.line = .read line rest := by
  unfold Input.line
  split
  · exact .inr ⟨_, _, rfl⟩
  · rw [ended]
    by_cases empty : input.bytes = []
    · exact .inl ⟨empty, by simp [empty]⟩
    · refine .inr ⟨input.bytes, { input with bytes := [] }, ?_⟩
      simp [empty, ended]

-- Decoding.

def Decodable (bytes : List UInt8) : Prop := (decode? bytes).isSome

theorem decodable_iff :
    Decodable bytes ↔ ∃ cs : List Char, bytes = cs.flatMap String.utf8EncodeChar := by
  have valid : Decodable bytes ↔ (ByteArray.mk bytes.toArray).IsValidUTF8 := by
    unfold Decodable decode? String.fromUTF8?
    split
    next valid => exact iff_of_true rfl valid
    next wrong => exact iff_of_false Bool.false_ne_true wrong
  rw [valid]
  constructor
  · rintro ⟨cs, same⟩
    refine ⟨cs, ?_⟩
    have data := congrArg (fun b => b.data.toList) same
    simpa [List.utf8Encode] using data
  · rintro ⟨cs, rfl⟩
    refine ⟨cs, ?_⟩
    apply ByteArray.ext
    simp [List.utf8Encode]

theorem agrees_newline : Bytewise.Agrees (· != newline) (· != '\n') :=
  Bytewise.agrees_ne (by decide) rfl

theorem decodable_of_read (decodable : Decodable input.bytes)
    (read : input.line = .read line rest) : Decodable line ∧ Decodable rest.bytes := by
  obtain ⟨cs, text⟩ := decodable_iff.mp decodable
  have first := List.head?_dropWhile_not (· != '\n') cs
  unfold Input.line at read
  rw [text, agrees_newline.dropWhile, agrees_newline.takeWhile] at read
  cases behind : cs.dropWhile (· != '\n') with
  | cons c others =>
    rw [behind] at first read
    obtain rfl : c = '\n' := by simpa using first
    obtain ⟨rfl, rfl⟩ := Line.read.inj read
    refine ⟨decodable_iff.mpr ⟨cs.takeWhile (· != '\n') ++ ['\n'], ?_⟩,
      decodable_iff.mpr ⟨others, rfl⟩⟩
    rw [List.flatMap_append]
    rfl
  | nil =>
    rw [behind, List.flatMap_nil] at read
    dsimp only at read
    split at read
    · cases read
    split at read
    · cases read
    · obtain ⟨rfl, rfl⟩ := Line.read.inj read
      exact ⟨text ▸ decodable, decodable_iff.mpr ⟨[], rfl⟩⟩

theorem decodable_append (first : Decodable bytes) (second : Decodable tail) :
    Decodable (bytes ++ tail) := by
  obtain ⟨cs, rfl⟩ := decodable_iff.mp first
  obtain ⟨cs', rfl⟩ := decodable_iff.mp second
  exact decodable_iff.mpr ⟨cs ++ cs', List.flatMap_append.symm⟩

theorem decodable_flatten {all : List (List UInt8)} (each : ∀ line ∈ all, Decodable line) :
    Decodable all.flatten := by
  induction all with
  | nil => exact decodable_iff.mpr ⟨[], rfl⟩
  | cons line all ih =>
    obtain ⟨first, others⟩ := List.forall_mem_cons.mp each
    exact decodable_append first (ih others)

theorem decodable_iff_lines : Decodable bytes ↔ ∀ line ∈ lines bytes, Decodable line := by
  refine ⟨fun decodable => ?_, fun each => flatten_lines bytes ▸ decodable_flatten each⟩
  induction count : (lines bytes).length generalizing bytes with
  | zero =>
    rw [List.length_eq_zero_iff.mp count]
    exact List.forall_mem_nil _
  | succ count ih =>
    have first : (ofBytes bytes).ended = true := rfl
    rcases line_of_ended first with ⟨empty, -⟩ | ⟨line, rest, read⟩
    · have none : lines bytes = [] := lines_eq_nil.mpr empty
      rw [none] at count
      cases count
    · obtain ⟨first, others⟩ := decodable_of_read decodable read
      have next := (gives_of_read read).lines
      change lines bytes = line :: lines rest.bytes at next
      rw [next] at count ⊢
      exact List.forall_mem_cons.mpr ⟨first, ih others (Nat.succ.inj count)⟩

namespace Gives

variable {next : List (List UInt8)}

theorem decodable (gives : input.Gives next rest) (whole : Decodable input.bytes) :
    (∀ line ∈ next, Decodable line) ∧ Decodable rest.bytes := by
  have each := decodable_iff_lines.mp whole
  rw [gives.lines] at each
  obtain ⟨first, others⟩ := List.forall_mem_append.mp each
  exact ⟨first, decodable_iff_lines.mpr others⟩

end Gives

end ScopeScript.Input
