import Pobc.Iot.AesPobcSiv

/-!
# What AES-POBC-SIV decryption leaves behind when it fails

The key is set up twice: before the plaintext is written and, inside `pobc_mac`, after
it. The return for a wrong IV clears the message buffer first; the return for a second
set-up that failed does not.
-/

namespace Pobc.Iot

/-- If the return value is not 0, the message buffer is what it was before or starts
with `clen` zero bytes. -/
def NothingReleased (m₀ : Buffer) (clen : ℕ) (out : SivDecryptOutput) : Prop :=
  out.ret ≠ 0 → out.m = m₀ ∨ ∀ p < clen, out.m p = 0

section Decrypt

variable (lib : Mbedtls) (m₀ c : Buffer) (clen : ℕ) (ad : Buffer) (adlen : ℕ) (iv k : Block)

/-- Byte `p` of the keystream that decryption adds. -/
def sivKeystream (p : ℕ) : Byte := ctrStream gcmIncr (lib.cryptEcb k) iv p

theorem decrypt_of_first_failed (h : lib.setkeyEnc 0 k ≠ 0) :
    aesPobcSivDecrypt lib m₀ c clen ad adlen iv k = ⟨lib.setkeyEnc 0 k, m₀⟩ := by
  simp only [aesPobcSivDecrypt, if_pos h]

theorem decrypt_of_second_failed (h0 : lib.setkeyEnc 0 k = 0) (h1 : lib.setkeyEnc 1 k ≠ 0) :
    aesPobcSivDecrypt lib m₀ c clen ad adlen iv k = ⟨lib.setkeyEnc 1 k, fun p =>
      if p < clen then c p ^^^ sivKeystream lib iv k p else m₀ p⟩ := by
  have hstream := funext fun p => sivStream_c c clen ⟨0, ⟨lib.cryptEcb k, []⟩, iv, m₀⟩ rfl p
  simp only [aesPobcSivDecrypt, pobcMac, h0, ne_eq, not_true_eq_false, if_false, h1,
    not_false_eq_true, if_true, hstream]
  rfl

/- With both set-ups behind it the only return other than 0 is the one that clears. -/
theorem nothingReleased_of_second_succeeded (h0 : lib.setkeyEnc 0 k = 0)
    (h1 : lib.setkeyEnc 1 k = 0) :
    NothingReleased m₀ clen (aesPobcSivDecrypt lib m₀ c clen ad adlen iv k) := by
  intro hret
  right
  intro p hp
  have hmac : ∀ m, (pobcMac lib 1 zeroBlock ad adlen m clen k).ret = 0 := fun m => by
    rw [pobcMac_spec lib 1 zeroBlock ad adlen m clen k h1]
  have hin : 0 ≤ p ∧ p < 0 + clen := by omega
  simp only [aesPobcSivDecrypt, h0, hmac, ne_eq, not_true_eq_false, if_false] at hret ⊢
  split_ifs at hret ⊢
  · exact absurd rfl hret
  · simp only [writeBytes, if_pos hin]

/-- Exactly when does no plaintext get out: the first set-up fails or the second one does
not, or the ciphertext is the keystream, so that the plaintext is zero, or the plaintext
stood in the buffer before. -/
theorem nothingReleased_iff :
    NothingReleased m₀ clen (aesPobcSivDecrypt lib m₀ c clen ad adlen iv k) ↔
      lib.setkeyEnc 0 k ≠ 0 ∨ lib.setkeyEnc 1 k = 0 ∨
        (∀ p < clen, c p = sivKeystream lib iv k p) ∨
        ∀ p < clen, c p = m₀ p ^^^ sivKeystream lib iv k p := by
  by_cases h0 : lib.setkeyEnc 0 k = 0
  · by_cases h1 : lib.setkeyEnc 1 k = 0
    · refine iff_of_true ?_ (Or.inr (Or.inl h1))
      exact nothingReleased_of_second_succeeded lib m₀ c clen ad adlen iv k h0 h1
    · have hzero : (∀ p < clen, (if p < clen then c p ^^^ sivKeystream lib iv k p else m₀ p) = 0) ↔
          ∀ p < clen, c p = sivKeystream lib iv k p := by
        refine forall₂_congr fun p hp => ?_
        rw [if_pos hp]
        exact BitVec.xor_eq_zero_iff
      have hsame : ((fun p => if p < clen then c p ^^^ sivKeystream lib iv k p else m₀ p) = m₀) ↔
          ∀ p < clen, c p = m₀ p ^^^ sivKeystream lib iv k p := by
        rw [funext_iff]
        refine forall_congr' fun p => ?_
        by_cases hp : p < clen
        · rw [if_pos hp]
          exact (xor_eq_iff _ _ _).trans (imp_iff_right hp).symm
        · rw [if_neg hp]
          exact iff_of_true rfl fun h => absurd h hp
      rw [decrypt_of_second_failed lib m₀ c clen ad adlen iv k h0 h1, NothingReleased, hzero, hsame]
      simp only [h0, h1, ne_eq, not_true_eq_false, not_false_eq_true, false_or, forall_const]
      exact or_comm
  · refine iff_of_true (fun _ => Or.inl ?_) (Or.inl h0)
    rw [decrypt_of_first_failed lib m₀ c clen ad adlen iv k h0]

end Decrypt

/-- A library whose second set-up fails, with the identity for a cipher. -/
def failingLib : Mbedtls := ⟨fun call _ => if call = 1 then -0x70 else 0, fun _ => id⟩

/- One byte, decrypted and left in the buffer. -/
theorem plaintext_released : ¬ NothingReleased (fun _ => 0) 1
    (aesPobcSivDecrypt failingLib (fun _ => 0) (fun _ => 1) 1 (fun _ => 0) 0 zeroBlock
      zeroBlock) := by
  have hsecond : failingLib.setkeyEnc 1 zeroBlock ≠ 0 := by decide
  rw [decrypt_of_second_failed failingLib _ _ 1 _ 0 zeroBlock zeroBlock rfl hsecond]
  intro h
  have hkept : (fun _ => 0 : Buffer) 0 ≠ 1 ^^^ sivKeystream failingLib zeroBlock zeroBlock 0 := by
    decide
  rcases h hsecond with hm | hm
  · exact hkept (congrFun hm 0).symm
  · exact hkept (hm 0 Nat.one_pos).symm

end Pobc.Iot
