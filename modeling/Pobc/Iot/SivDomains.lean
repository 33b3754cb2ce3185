import Pobc.Iot.AesPobcSiv

/-!
# The first byte of what AES-POBC-SIV authenticates

The loops of `pobc_mac` start from a nonce whose first byte is 1, and the block they
end with has a first byte 0. In between every block is added into the nonce, so
the first byte of what is enciphered is that of the data as much as that of the nonce.
-/

namespace Pobc.Iot
open Pobc.Loop

/-- No block before the last one starts with a zero byte, so none of them is the
last one. -/
def InnerApart (inputs : List Block) : Prop :=
  ∀ x ∈ inputs.dropLast, byteAt x 0 ≠ 0 ∧ ∀ final ∈ inputs.getLast?, x ≠ final

/-- Byte `16i` of `data ‖ 0x80`. -/
def headByte (data : Buffer) (datalen i : ℕ) : Byte :=
  if 16 * i < datalen then data (16 * i) else 0x80

/-- The sum of the bytes 0, 16, …, `16i` of `data ‖ 0x80`. -/
def headSum (data : Buffer) (datalen i : ℕ) : Byte :=
  forRange (i + 1) (fun k b => b ^^^ headByte data datalen k) 0

section Heads

variable (data : Buffer) (datalen : ℕ)

theorem padBlock_zero (i : ℕ) (hi : 16 * i ≤ datalen) :
    padBlock data datalen i 0 = headByte data datalen i := by
  have hpos : i * 16 = 16 * i := Nat.mul_comm i 16
  unfold padBlock headByte
  by_cases hlt : 16 * i < datalen
  · have hcopied : (0 : Fin 16).val < if datalen - i * 16 < 16 then datalen - i * 16 else 16 := by
      split_ifs <;> simp only [Fin.val_zero] <;> omega
    have hne : ¬ (0 : Fin 16).val = if datalen - i * 16 < 16 then datalen - i * 16 else 16 :=
      Nat.ne_of_lt hcopied
    rw [if_pos hlt]
    by_cases hshort : (if datalen - i * 16 < 16 then datalen - i * 16 else 16) < 16
    · simp only [if_pos hshort, setByte, if_neg hne, if_pos hcopied]
      rw [hpos]
      rfl
    · simp only [if_neg hshort, if_pos hcopied]
      rw [hpos]
      rfl
  · have hnone : datalen - i * 16 = 0 := by omega
    rw [if_neg hlt, hnone]
    rfl

theorem gcmIncr_zero (y : Block) : gcmIncr y 0 = y 0 :=
  byteAt_carryUp 12 4 0 y (by decide) (Or.inl (by decide))

/- Counting leaves the first byte alone. -/
theorem macInput_zero (i : ℕ) (hi : 16 * i ≤ datalen) :
    macInput data datalen i 0 = 0x01 ^^^ headSum data datalen i := by
  induction i with
  | zero =>
    have hhead := padBlock_zero data datalen 0 hi
    have hsum : headSum data datalen 0 = headByte data datalen 0 := BitVec.zero_xor
    rw [macInput, xorBlocks, hhead, hsum]
    rfl
  | succ i ih =>
    have hhead := padBlock_zero data datalen (i + 1) hi
    have hnonce : macNonce data datalen (i + 1) 0 = macInput data datalen i 0 :=
      gcmIncr_zero (macInput data datalen i)
    have hsum : headSum data datalen (i + 1) =
        headSum data datalen i ^^^ headByte data datalen (i + 1) := rfl
    rw [macInput, xorBlocks, hhead, hnonce, ih (by omega), hsum, BitVec.xor_assoc]

theorem macInputs_zero_iff : (∀ x ∈ macInputs data datalen, x 0 ≠ 0) ↔
    ∀ i ≤ datalen / 16, headSum data datalen i ≠ 0x01 := by
  have hbyte : ∀ i ≤ datalen / 16,
      (macInput data datalen i 0 ≠ 0 ↔ headSum data datalen i ≠ 0x01) := by
    intro i hi
    rw [macInput_zero data datalen i (by omega)]
    exact not_congr (BitVec.xor_eq_zero_iff.trans eq_comm)
  constructor
  · intro h i hi
    exact (hbyte i hi).mp
      (h _ (List.mem_map.mpr ⟨i, List.mem_range.mpr (Nat.lt_succ_of_le hi), rfl⟩))
  · intro h x hx
    obtain ⟨i, hi, rfl⟩ := List.mem_map.mp hx
    have hle := Nat.le_of_lt_succ (List.mem_range.mp hi)
    exact (hbyte i hle).mpr (h i hle)

end Heads

theorem finalNonce_zero (y : Block) : finalNonce y 0 = 0 := rfl

theorem innerApart_append_iff (inner : List Block) (final : Block) (hfinal : final 0 = 0) :
    InnerApart (inner ++ [final]) ↔ ∀ x ∈ inner, x 0 ≠ 0 := by
  rw [InnerApart, List.dropLast_concat, List.getLast?_concat]
  constructor
  · exact fun h x hx => (h x hx).1
  · intro h x hx
    refine ⟨h x hx, fun y hy heq => h x hx ?_⟩
    rw [heq, ← Option.some.inj hy, hfinal]

/-- The inner blocks are told from the final one by their first byte exactly when none
of the sums of the bytes 0, 16, … of `ad ‖ 0x80` and of `m ‖ 0x80` is 1. Without a key
nothing is enciphered. -/
theorem pobcMac_innerApart_iff (lib : Mbedtls) (call : ℕ) (iv₀ : Block) (ad : Buffer) (adlen : ℕ)
    (m : Buffer) (mlen : ℕ) (k : Block) :
    InnerApart (pobcMac lib call iv₀ ad adlen m mlen k).inputs ↔ lib.setkeyEnc call k ≠ 0 ∨
      (∀ i ≤ adlen / 16, headSum ad adlen i ≠ 0x01) ∧
      ∀ i ≤ mlen / 16, headSum m mlen i ≠ 0x01 := by
  by_cases hkey : lib.setkeyEnc call k = 0
  · have hspec := pobcMac_spec lib call iv₀ ad adlen m mlen k hkey
    simp only at hspec
    rw [hspec, innerApart_append_iff _ _ (finalNonce_zero _), List.forall_mem_append,
      macInputs_zero_iff, macInputs_zero_iff]
    exact (or_iff_right (not_not.mpr hkey)).symm
  · have hnone : (pobcMac lib call iv₀ ad adlen m mlen k).inputs = [] := by
      simp only [pobcMac, ne_eq, hkey, not_false_eq_true, if_true]
    rw [hnone]
    exact iff_of_true (fun x hx => absurd hx List.not_mem_nil) (Or.inl hkey)

/- Associated data of the one byte 1. -/
theorem pobcMac_inner_zero : ¬ InnerApart (pobcMac (Mbedtls.ofCipher id) 0 zeroBlock (fun _ => 1) 1
    (fun _ => 0) 0 zeroBlock).inputs := by
  intro h
  have hspec := pobcMac_spec (Mbedtls.ofCipher id) 0 zeroBlock (fun _ => 1) 1 (fun _ => 0) 0
    zeroBlock rfl
  simp only at hspec
  rw [hspec, innerApart_append_iff _ _ (finalNonce_zero _), List.forall_mem_append] at h
  exact (macInputs_zero_iff _ _).mp h.1 0 (Nat.zero_le _) (by decide)

end Pobc.Iot
