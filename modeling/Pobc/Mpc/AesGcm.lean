import Pobc.Mpc.CounterMode
import Pobc.Mpc.Ghash

/-!
# AES-GCM decryption (`MPC/code/aes_gcm.py`)

The circuit enciphers embedded blocks, collapses what it needs as bytes and
compares the tag through a product of negated bits. On byte cells it computes
AES-GCM: the message is decrypted whatever the tag is, and the check value is
one for the tag of the ciphertext and zero for any other.
-/

namespace Pobc.Mpc
open Pobc.Loop Pobc.Aes Pobc.Mode Pobc.Gcm

/-- `aes_gcm_128_decrypt` (`aes_gcm.py:196-228`). -/
def aesGcm128Decrypt (ciphertext : List Gf2n) (tag key : Fin 16 → Gf2n) (nonce : Fin 12 → Gf2n) :
    Circuit (Gf2n × List Gf2n) := do
  let key := secretArrayEmbedd key
  let expandedKey ← expandAESKey key
  let messageAuthenticationKey ← aesMain expandedKey (secretArrayEmbedd fun _ => cgf2n 0)
  let plaintext ← aesCtrDec expandedKey (ctrInit nonce 2) ciphertext
  let s ← ghash ciphertext messageAuthenticationKey
  let tagMask ← aesMain expandedKey (secretArrayEmbedd (ctrInit nonce 1))
  let collapsed ← stateCollapse tagMask
  let computedTag : Fin 16 → Gf2n := fun i => s i + collapsed i
  let check ← reveal (tagCheck (List.ofFn tag) (List.ofFn computedTag) (bitDecompose 8))
  return (check, plaintext)

/-! ### Blocks of constants -/

theorem embedd_zero : secretArrayEmbedd (fun _ => cgf2n 0) = embBlock zeroBlock := by
  funext j
  exact applyEmbedding_raw 0

theorem embedd_ctrInit (nonce : Nonce) :
    secretArrayEmbedd (ctrInit (fun j => raw (nonce j)) 1) = embBlock (nonceCtrBlock nonce 1) := by
  have hcell : ∀ j : Fin 16, ctrInit (fun j => raw (nonce j)) 1 j =
      raw (nonceCtrBlock nonce 1 j) := by
    intro j
    fin_cases j <;> rfl
  funext j
  rw [secretArrayEmbedd, hcell, applyEmbedding_raw]
  rfl

/- The keystream of the circuit is that of GCM. -/
theorem gctr_eq (E : Block → Block) (nonce : Nonce) (c : List Byte) :
    gctr E (inc32 (nonceCtrBlock nonce 1)) c =
      xorStream (fun p => byteAt (E (nonceCtrBlock nonce (2 + p / 16))) (p % 16)) c := by
  have hstream : gctrStream E (inc32 (nonceCtrBlock nonce 1)) =
      fun p => byteAt (E (nonceCtrBlock nonce (2 + p / 16))) (p % 16) := by
    funext p
    rw [gctrStream, inc32_nonceCtrBlock, iterate_inc32]
  rw [gctr, hstream]

/-! ### One run -/

theorem aesGcm128Decrypt_returns (key : Block) (nonce : Nonce) (tag : Block) (c : List Byte) :
    Returns (aesGcm128Decrypt (c.map raw) (rawBlock tag) (rawBlock key) fun j => raw (nonce j))
      (tagCheck (List.ofFn (rawBlock tag)) (List.ofFn (rawBlock (gcmTag (aes128 key) nonce c [])))
        (bitDecompose 8),
      (gctr (aes128 key) (inc32 (nonceCtrBlock nonce 1)) c).map raw) := by
  let w := keyExpansion key
  let h := aes128 key zeroBlock
  let s := Gcm.ghash h (padBlocks c ++ [lengthBlock 0 c.length])
  let mask := aes128 key (nonceCtrBlock nonce 1)
  have hctr := aesCtrDec_returns w (fun _ => 0) (fun _ => unembed_zero) nonce 2 (by omega) c
  rw [← embKey_eq] at hctr
  have hghash := ghash_returns (embBlock h) c
  rw [unembedBlock_embBlock] at hghash
  have htag : (fun i => rawBlock s i + rawBlock mask i) =
      rawBlock (gcmTag (aes128 key) nonce c []) := by
    funext i
    exact (raw_xor (s i) (mask i)).symm
  rw [gctr_eq, aesGcm128Decrypt, secretArrayEmbedd_raw, embedd_zero, embedd_ctrInit]
  refine returns_bind _ _ (embKey w) _ (expandAESKey_computes key).returns ?_
  refine returns_bind _ _ (embBlock h) _ (aesMain_computes w zeroBlock).returns ?_
  refine returns_bind _ _ _ _ hctr ?_
  refine returns_bind _ _ _ _ hghash ?_
  refine returns_bind _ _ (embBlock mask) _ (aesMain_computes w _).returns ?_
  refine returns_bind _ _ (rawBlock mask) _ (stateCollapse_computes mask).returns ?_
  rw [htag]
  exact returns_bind _ _ _ _ (returns_reveal _) (returns_pure _)

end Pobc.Mpc
