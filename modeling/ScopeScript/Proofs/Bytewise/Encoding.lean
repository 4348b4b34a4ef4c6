import Mathlib.Data.List.TakeWhile

set_option autoImplicit false

namespace ScopeScript

namespace Bytewise

def Alike (c d : Char) : Prop := c = d ∨ 128 ≤ c.toNat ∧ 128 ≤ d.toNat

namespace Alike

variable {c d : Char}

theorem symm (alike : Alike c d) : Alike d c :=
  Or.imp Eq.symm And.symm alike

theorem eq_of_lt (alike : Alike c d) (ascii : d.toNat < 128) : c = d := by
  rcases alike with same | ⟨-, high⟩
  · exact same
  · omega

theorem beyond (alike : Alike c d) (high : 128 ≤ d.toNat) : 128 ≤ c.toNat := by
  rcases alike with rfl | ⟨high', -⟩
  · exact high
  · exact high'

end Alike

theorem encode_ascii {c : Char} (ascii : c.toNat < 128) :
    ∃ b, String.utf8EncodeChar c = [b] ∧ Char.ofUInt8 b = c := by
  have value : c.val.toNat = c.toNat := rfl
  refine ⟨UInt8.ofNat c.toNat, ?_, Char.toNat_inj.mp ?_⟩
  · unfold String.utf8EncodeChar
    dsimp only
    rw [if_pos (by omega), value]
  · exact UInt8.toNat_ofNat_of_lt' (Nat.lt_of_lt_of_le ascii (by decide))

theorem le_of_mem_encode {c : Char} (beyond : 128 ≤ c.toNat) :
    ∀ b ∈ String.utf8EncodeChar c, 128 ≤ b.toNat := by
  have value : c.val.toNat = c.toNat := rfl
  have high {n : Nat} (least : 128 ≤ n) (most : n < 256) : 128 ≤ (UInt8.ofNat n).toNat := by
    rwa [UInt8.toNat_ofNat_of_lt' most]
  unfold String.utf8EncodeChar
  dsimp only
  rw [if_neg (by omega)]
  split
  · exact List.forall_mem_cons.mpr ⟨high (by omega) (by omega),
      List.forall_mem_singleton.mpr (high (by omega) (by omega))⟩
  split
  · exact List.forall_mem_cons.mpr ⟨high (by omega) (by omega), List.forall_mem_cons.mpr
      ⟨high (by omega) (by omega), List.forall_mem_singleton.mpr (high (by omega) (by omega))⟩⟩
  · exact List.forall_mem_cons.mpr ⟨high (by omega) (by omega), List.forall_mem_cons.mpr
      ⟨high (by omega) (by omega), List.forall_mem_cons.mpr ⟨high (by omega) (by omega),
        List.forall_mem_singleton.mpr (high (by omega) (by omega))⟩⟩⟩

theorem alike_of_mem_encode {c : Char} {b : UInt8} (mem : b ∈ String.utf8EncodeChar c) :
    Alike (Char.ofUInt8 b) c := by
  by_cases ascii : c.toNat < 128
  · obtain ⟨b', single, same⟩ := encode_ascii ascii
    rw [single] at mem
    exact .inl (List.mem_singleton.mp mem ▸ same)
  · have beyond : 128 ≤ c.toNat := Nat.le_of_not_lt ascii
    exact .inr ⟨le_of_mem_encode beyond b mem, beyond⟩

def Uniform (p : Char → Bool) : Prop := ∀ c d, Alike c d → p c = p d

theorem uniform_of_beyond {p : Char → Bool} {r : Bool} (beyond : ∀ c, 128 ≤ c.toNat → p c = r) :
    Uniform p := by
  rintro c d (rfl | ⟨high, high'⟩)
  · rfl
  · rw [beyond c high, beyond d high']

theorem uniform_ne {c : Char} (ascii : c.toNat < 128) : Uniform (· != c) :=
  uniform_of_beyond (r := true) fun d high => by
    refine bne_iff_ne.mpr ?_
    rintro rfl
    omega

/-- A test of bytes has on each byte of a character the result that a test of characters has on it.
-/
def Agrees (q : UInt8 → Bool) (p : Char → Bool) : Prop :=
  ∀ c, ∀ b ∈ String.utf8EncodeChar c, q b = p c

theorem Uniform.agrees {p : Char → Bool} (uniform : Uniform p) :
    Agrees (fun b => p (Char.ofUInt8 b)) p :=
  fun _ _ mem => uniform _ _ (alike_of_mem_encode mem)

theorem agrees_ne {c : Char} {b : UInt8} (ascii : c.toNat < 128)
    (code : String.utf8EncodeChar c = [b]) :
    Agrees (· != b) (· != c) := by
  have number : Char.ofUInt8 b = c :=
    (alike_of_mem_encode (code ▸ List.mem_singleton_self b)).eq_of_lt ascii
  intro c' b' mem
  rw [Bool.eq_iff_iff, bne_iff_ne, bne_iff_ne, not_iff_not]
  constructor
  · rintro rfl
    have alike := alike_of_mem_encode mem
    rw [number] at alike
    exact (alike.symm.eq_of_lt ascii)
  · rintro rfl
    rw [code] at mem
    exact List.mem_singleton.mp mem

namespace Agrees

variable {q : UInt8 → Bool} {p : Char → Bool}

theorem takeWhile (agrees : Agrees q p) (cs : List Char) :
    (cs.flatMap String.utf8EncodeChar).takeWhile q =
      (cs.takeWhile p).flatMap String.utf8EncodeChar := by
  induction cs with
  | nil => rfl
  | cons c cs ih =>
    by_cases passes : p c = true
    · have inside : ∀ b ∈ String.utf8EncodeChar c, q b = true :=
        fun b mem => (agrees c b mem).trans passes
      rw [List.flatMap_cons, List.takeWhile_append_of_pos inside, ih,
        List.takeWhile_cons_of_pos passes, List.flatMap_cons]
    · obtain ⟨b, bytes, code⟩ := List.exists_cons_of_ne_nil (@String.utf8EncodeChar_ne_nil c)
      have stop : ¬q b = true := by
        rw [agrees c b (code ▸ List.mem_cons_self)]
        exact passes
      rw [List.flatMap_cons, code, List.cons_append, List.takeWhile_cons_of_neg stop,
        List.takeWhile_cons_of_neg passes]
      rfl

theorem dropWhile (agrees : Agrees q p) (cs : List Char) :
    (cs.flatMap String.utf8EncodeChar).dropWhile q =
      (cs.dropWhile p).flatMap String.utf8EncodeChar := by
  have whole : (cs.takeWhile p).flatMap String.utf8EncodeChar ++
      (cs.dropWhile p).flatMap String.utf8EncodeChar = cs.flatMap String.utf8EncodeChar := by
    rw [← List.flatMap_append, List.takeWhile_append_dropWhile]
  have split := List.takeWhile_append_dropWhile (p := q) (l := cs.flatMap String.utf8EncodeChar)
  rw [agrees.takeWhile] at split
  exact List.append_cancel_left (split.trans whole.symm)

end Agrees

end Bytewise

end ScopeScript
