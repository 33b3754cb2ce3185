import Pobc.Mpc.CounterMode
import Pobc.Mpc.Ghash
import Mathlib.Tactic.IntervalCases

/-!
# AES-GCM-SIV decryption (`MPC/code/aes_gcm_siv.py`)

The derived keys stay embedded between the two ciphers. The counter is taken
from the expected tag, so the message depends on the tag, and the hash of that
message is compared with it. On byte cells the circuit computes the mode.
-/

namespace Pobc.Mpc
open Pobc.Loop Pobc.Aes Pobc.Mode Pobc.Gcm

/-- `aes_ctr_dec` (`aes_gcm_siv.py:73-99`). -/
def sivCtrDec (expandedKey : ℕ → Gf2n) (counter : Fin 16 → Gf2n) (ciphertext : List Gf2n) :
    Circuit (List Gf2n) :=
  let counterBits := (List.range 4).flatMap fun i => bitDecompose 8 (byteAt counter i)
  let tagBits := bitDecompose 7 (byteAt counter 15) ++ [1]
  let ctr := regint (counterBits.zipIdx.map fun b => cgf2n (2^b.2) * b.1).sum
  ctrLoop expandedKey (fun i j =>
    let ctrCell := valPart ((ctr + i) % 2^32)
    if j.val < 4 then applyEmbedding (ctrCell (3 - j.val))
    else if j.val < 15 then applyEmbedding (counter j)
    else applyBDEmbedding tagBits) ciphertext

/-- `derive_keys` (`aes_gcm_siv.py:17-39`): encryption key and authentication key,
both embedded, from an embedded nonce. -/
def deriveKeys (key : Fin 16 → Gf2n) (nonce : Fin 12 → Gf2n) :
    Circuit ((Fin 16 → Gf2n) × (Fin 16 → Gf2n)) := do
  let expandedKey ← expandAESKey (secretArrayEmbedd key)
  let block1 : Fin 16 → Gf2n := fun j =>
    if j.val < 4 then applyEmbedding (cgf2n 0) else tailOf nonce (j.val - 4)
  let authKeyPart1 ← aesMain expandedKey block1
  let authKeyPart2 ← aesMain expandedKey (setByte block1 0 (applyEmbedding (cgf2n 1)))
  let encKeyPart1 ← aesMain expandedKey (setByte block1 0 (applyEmbedding (cgf2n 0x2)))
  let encKeyPart2 ← aesMain expandedKey (setByte block1 0 (applyEmbedding (cgf2n 3)))
  return (halves encKeyPart1 encKeyPart2, halves authKeyPart1 authKeyPart2)

/-- The input of the tag (`aes_gcm_siv.py:149-155`): the nonce added to the hash
and the top bit of its last byte cleared. -/
def tagInput (s : Fin 16 → Gf2n) (nonce : Fin 12 → Gf2n) : Circuit (Fin 16 → Gf2n) := do
  let s : Fin 16 → Gf2n := fun i => if i.val < 12 then s i + tailOf nonce i else s i
  let sBits ← preprocInverseEmbedding (byteAt s 15)
  return setByte s 15 (applyBDEmbedding (sBits.set 7 (cgf2n 0)))

/-- `aes_gcm_siv_128_decrypt` (`aes_gcm_siv.py:127-160`). -/
def aesGcmSiv128Decrypt (ciphertext : List Gf2n) (tag key : Fin 16 → Gf2n)
    (nonce : Fin 12 → Gf2n) : Circuit (Gf2n × List Gf2n) := do
  let nonce : Fin 12 → Gf2n := fun i => applyEmbedding (nonce i)
  let (messageEncryptionKey, messageAuthenticationKey) ← deriveKeys key nonce
  let expandedKey ← expandAESKey messageEncryptionKey
  let plaintext ← sivCtrDec expandedKey tag ciphertext
  let s ← polyval plaintext messageAuthenticationKey
  let s ← tagInput s nonce
  let state ← aesMain expandedKey s
  let computedTag ← stateCollapse state
  let check ← reveal (tagCheck (List.ofFn tag) (List.ofFn computedTag) (bitDecompose 8))
  return (check, plaintext)

/-! ### The counter of a tag -/

theorem applyBDEmbedding_bitsOf (b : Byte) : applyBDEmbedding (bitsOf b) = emb b := by
  rw [applyBDEmbedding_eq _ (le_of_eq (length_bitsOf b)), emb, embHom_apply]
  refine congrArg List.sum (List.map_congr_left fun j hj => ?_)
  rw [getD_bitsOf b j (List.mem_range.mp hj), ofBit_mul]
  rfl

/- Seven bits of a byte and a one on top. -/
theorem tagBits_eq (b : Byte) : bitDecompose 7 (raw b) ++ [1] = bitsOf (b ||| 0x80) := by
  simp [bitDecompose, bitsOf, raw, List.range, List.range.loop, ofBit]

theorem sivCounterBits_eq (tag : Block) :
    ((List.range 4).flatMap fun i => bitDecompose 8 (byteAt (rawBlock tag) i)) =
      (List.range 32).map fun k => ofBit ((byteAt tag (k / 8)).getLsbD (k % 8)) := by
  have hbyte : ∀ b : Byte, bitDecompose 8 (raw b) =
      (List.range 8).map fun k => ofBit (b.getLsbD k) := by
    intro b
    rw [bitDecompose]
    refine List.map_congr_left fun k hk => ?_
    have hlt := List.mem_range.mp hk
    have hwide : k < 128 := by omega
    simp [raw, hlt, hwide]
  have hcell : ∀ i, byteAt (rawBlock tag) i = raw (byteAt tag i) := fun _ => rfl
  simp only [hcell, hbyte]
  rfl

theorem sivStart_eq (tag : Block) :
    regint ((((List.range 4).flatMap fun i => bitDecompose 8 (byteAt (rawBlock tag) i)).zipIdx.map
      fun b => cgf2n (2^b.2) * b.1).sum) = leWord tag := by
  rw [sivCounterBits_eq]
  have hbits := fun k => getLsbD_sum_zipIdx (fun k => (byteAt tag (k / 8)).getLsbD (k % 8)) 32 k
    (by omega)
  generalize hz : ((((List.range 32).map fun k =>
    ofBit ((byteAt tag (k / 8)).getLsbD (k % 8))).zipIdx).map
    fun b => cgf2n (2^b.2) * b.1).sum = z at hbits
  have hlt : z.bits.toNat < 2^32 := by
    apply Nat.lt_pow_two_of_testBit
    intro k hk
    rw [BitVec.testBit_toNat, hbits, decide_eq_false (by omega), Bool.false_and]
  rw [regint, Nat.mod_eq_of_lt (by omega)]
  symm
  apply leWord_eq tag _ hlt
  intro j hj
  have hbyte : (z.bits >>> (8 * j)).setWidth 8 = byteAt tag j := by
    apply BitVec.eq_of_getLsbD_eq
    intro k hk
    have hdiv : (8 * j + k) / 8 = j := by omega
    have hmod : (8 * j + k) % 8 = k := by omega
    have hin : 8 * j + k < 32 := by omega
    rw [BitVec.getLsbD_setWidth, BitVec.getLsbD_ushiftRight, hbits, hdiv, hmod,
      decide_eq_true hin, decide_eq_true hk, Bool.true_and, Bool.true_and]
  rw [← hbyte, BitVec.toNat_setWidth, BitVec.toNat_ushiftRight, Nat.shiftRight_eq_div_pow]

theorem sivCtrDec_returns (key : Block) (tag : Block) (c : List Byte) :
    Returns (sivCtrDec (embKey (keyExpansion key)) (rawBlock tag) (c.map raw))
      ((xorStream (sivCtrStream (aes128 key) tag) c).map raw) := by
  have h := ctrLoop_returns (keyExpansion key) (fun _ => 0) (fun _ => unembed_zero) (fun i j =>
    let ctrCell := valPart ((leWord tag + i) % 2^32)
    if j.val < 4 then applyEmbedding (ctrCell (3 - j.val))
    else if j.val < 15 then applyEmbedding (rawBlock tag j)
    else applyBDEmbedding (bitDecompose 7 (byteAt (rawBlock tag) 15) ++ [1])) c
  have htop : applyBDEmbedding (bitDecompose 7 (byteAt (rawBlock tag) 15) ++ [1]) =
      emb (byteAt tag 15 ||| 0x80) := by
    rw [← applyBDEmbedding_bitsOf, ← tagBits_eq]
    rfl
  have hblock : ∀ i, (unembedBlock fun j : Fin 16 =>
      if j.val < 4 then applyEmbedding (valPart ((leWord tag + i) % 2^32) (3 - j.val))
      else if j.val < 15 then applyEmbedding (rawBlock tag j)
      else applyBDEmbedding (bitDecompose 7 (byteAt (rawBlock tag) 15) ++ [1])) =
      sivCtrBlock tag i := by
    intro i
    funext j
    rw [unembedBlock, sivCtrBlock]
    by_cases h4 : j.val < 4
    · have hback : 3 - (3 - j.val) = j.val := by omega
      rw [if_pos h4, if_pos h4, valPart_eq _ _ (by omega), applyEmbedding_raw, unembed_emb,
        beByte, hback]
    · rw [if_neg h4, if_neg h4]
      by_cases h15 : j.val = 15
      · have hlast : ¬ j.val < 15 := by omega
        rw [if_neg hlast, if_pos h15, htop, unembed_emb, ← h15, byteAt_val]
      · rw [if_pos (by omega), if_neg h15, rawBlock, applyEmbedding_raw, unembed_emb]
  simp only [hblock] at h
  rw [sivCtrDec, sivStart_eq, embKey_eq]
  exact h

/-! ### Derived keys and tag input -/

theorem embBlock_setByte (y : Block) (i : ℕ) (b : Byte) :
    setByte (embBlock y) i (emb b) = embBlock (setByte y i b) := by
  funext j
  simp only [setByte, embBlock]
  exact (apply_ite emb (j.val = i) b (y j)).symm

theorem embBlock_halves (y z : Block) :
    halves (embBlock y) (embBlock z) = embBlock (halves y z) := by
  funext j
  simp only [halves, embBlock]
  exact (apply_ite emb (j.val < 8) (y j) (byteAt z (j.val - 8))).symm

theorem deriveKeys_returns (key : Block) (nonce : Nonce) :
    Returns (deriveKeys (rawBlock key) fun j => emb (nonce j))
      (embBlock (sivEncKey (aes128 key) nonce), embBlock (sivAuthKey (aes128 key) nonce)) := by
  let w := keyExpansion key
  let block1 : Fin 16 → Gf2n := fun j =>
    if j.val < 4 then applyEmbedding (cgf2n 0) else tailOf (fun j => emb (nonce j)) (j.val - 4)
  have hconst : ∀ n < 4, applyEmbedding (cgf2n n) = emb (BitVec.ofNat 8 n) := by
    have hraw : ∀ n < 4, cgf2n n = raw (BitVec.ofNat 8 n) := by decide
    intro n hn
    rw [hraw n hn, applyEmbedding_raw]
  have h0 : block1 = embBlock (sivKeyBlock nonce 0) := by
    funext j
    simp only [block1, hconst 0 (by omega)]
    fin_cases j <;> rfl
  have hset : ∀ n < 4, setByte block1 0 (applyEmbedding (cgf2n n)) =
      embBlock (sivKeyBlock nonce n) := by
    intro n hn
    have hblock : setByte (sivKeyBlock nonce 0) 0 (BitVec.ofNat 8 n) = sivKeyBlock nonce n := by
      funext j
      interval_cases n <;> fin_cases j <;> rfl
    rw [h0, hconst n hn, embBlock_setByte, hblock]
  have haes : ∀ n, Returns (aesMain (embKey w) (embBlock (sivKeyBlock nonce n)))
      (embBlock (aes128 key (sivKeyBlock nonce n))) := fun n => (aesMain_computes w _).returns
  rw [deriveKeys, secretArrayEmbedd_raw, sivEncKey, sivAuthKey, ← embBlock_halves,
    ← embBlock_halves]
  refine returns_bind _ _ (embKey w) _ (expandAESKey_computes key).returns ?_
  simp only
  rw [hset 1 (by omega), hset 2 (by omega), hset 3 (by omega)]
  refine returns_bind _ _ _ _ (h0 ▸ haes 0) ?_
  refine returns_bind _ _ _ _ (haes 1) ?_
  refine returns_bind _ _ _ _ (haes 2) ?_
  exact returns_bind _ _ _ _ (haes 3) (returns_pure _)

theorem tagInput_returns (s : Block) (nonce : Nonce) :
    Returns (tagInput (embBlock s) fun j => emb (nonce j)) (embBlock (sivTagInput s nonce)) := by
  let t : Block := fun j => if j.val < 12 then s j ^^^ tailOf nonce j else s j
  have hsum : (fun i : Fin 16 => if i.val < 12 then embBlock s i +
      tailOf (fun j => emb (nonce j)) i else embBlock s i) = embBlock t := by
    funext i
    simp only [embBlock, t]
    by_cases hi : i.val < 12
    · rw [if_pos hi, if_pos hi, emb_xor]
      rfl
    · rw [if_neg hi, if_neg hi]
  -- clearing the top bit of the decomposed byte
  have hclear : applyBDEmbedding ((bitsOf (byteAt t 15)).set 7 (cgf2n 0)) =
      emb (byteAt t 15 &&& 0x7f) := by
    have hzero : cgf2n 0 = 0 := rfl
    have hbits : ∀ b : Byte, (bitsOf b).set 7 (cgf2n 0) = bitsOf (b &&& 0x7f) := by
      intro b
      simp [bitsOf, List.range, List.range.loop, ofBit, hzero]
    rw [hbits, applyBDEmbedding_bitsOf]
  have hblock : setByte t 15 (byteAt t 15 &&& 0x7f) = sivTagInput s nonce := by
    funext j
    fin_cases j <;> rfl
  simp only [tagInput, hsum]
  rw [← hblock, ← embBlock_setByte, ← hclear]
  exact returns_bind _ _ _ _ (preprocInverseEmbedding_computes (byteAt t 15)).returns
    (returns_pure _)

/-! ### One run -/

theorem aesGcmSiv128Decrypt_returns (key : Block) (nonce : Nonce) (tag : Block) (c : List Byte) :
    let authKey := sivAuthKey (aes128 key) nonce
    let encKey := sivEncKey (aes128 key) nonce
    let m := xorStream (sivCtrStream (aes128 encKey) tag) c
    let computedTag := aes128 encKey (sivTagInput (Gcm.ghash authKey
      (padBlocks m ++ [sivLengthBlock 0 m.length])) nonce)
    Returns (aesGcmSiv128Decrypt (c.map raw) (rawBlock tag) (rawBlock key) fun j => raw (nonce j))
      (tagCheck (List.ofFn (rawBlock tag)) (List.ofFn (rawBlock computedTag)) (bitDecompose 8),
        m.map raw) := by
  intro authKey encKey m computedTag
  let w := keyExpansion encKey
  let s := Gcm.ghash authKey (padBlocks m ++ [sivLengthBlock 0 m.length])
  have hnonce : (fun i => applyEmbedding (raw (nonce i))) = fun i => emb (nonce i) :=
    funext fun i => applyEmbedding_raw (nonce i)
  have hhash := polyval_returns (embBlock authKey) m
  rw [unembedBlock_embBlock] at hhash
  rw [aesGcmSiv128Decrypt, hnonce]
  refine returns_bind _ _ (embBlock encKey, embBlock authKey) _ (deriveKeys_returns key nonce) ?_
  refine returns_bind _ _ (embKey w) _ (expandAESKey_computes encKey).returns ?_
  refine returns_bind _ _ _ _ (sivCtrDec_returns encKey tag c) ?_
  refine returns_bind _ _ _ _ hhash ?_
  refine returns_bind _ _ _ _ (tagInput_returns s nonce) ?_
  refine returns_bind _ _ (embBlock computedTag) _ (aesMain_computes w _).returns ?_
  refine returns_bind _ _ (rawBlock computedTag) _ (stateCollapse_computes computedTag).returns ?_
  exact returns_bind _ _ _ _ (returns_reveal _) (returns_pure _)

end Pobc.Mpc
