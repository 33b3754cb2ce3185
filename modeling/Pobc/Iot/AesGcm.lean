import Pobc.Iot.AesModes
import Pobc.Iot.Ghash

/-!
# AES-GCM encryption (`aes/aes_gcm.c`)

`aes_gcm_128_encrypt` enciphers two counter blocks at a time and keeps two
counters one apart, each moved by two in a round. What is left after the last
pair of blocks, up to 31 bytes, comes from one more pair.

Lengths are natural numbers below 2^64; the bit lengths of the last block of
GHASH are computed modulo 2^64 as in the source.
-/

namespace Pobc.Iot
open Pobc.Loop Pobc.Gcm Pobc.Mode

def outByte (out : Block × Block) (j : ℕ) : Byte :=
  if j < 16 then byteAt out.1 j else byteAt out.2 (j - 16)

structure PairState where
  cnt0 : Block
  cnt1 : Block
  c : Buffer

/-- Round `i` of the loop over pairs of blocks (`aes_gcm.c:78-91`). -/
def pairStep (E : Block → Block) (m : Buffer) (i : ℕ) (s : PairState) : PairState :=
  let out := aes128EncryptFfs E s.cnt0 s.cnt1
  { c := writeBytes s.c (32 * i) 32 fun j => m (32 * i + j) ^^^ outByte out j
    cnt0 := gcmIncr (gcmIncr s.cnt0)
    cnt1 := gcmIncr (gcmIncr s.cnt1) }

/-- The ciphertext (`aes_gcm.c:70-96`) from the counter block `cnt0`. -/
def pairStream (E : Block → Block) (m : Buffer) (mlen : ℕ) (cnt0 : Block) (c₀ : Buffer) : Buffer :=
  let cnt1 := gcmIncr cnt0
  let nBlocks := mlen / 16
  let s := forRange (nBlocks / 2) (pairStep E m) ⟨cnt0, cnt1, c₀⟩
  let out := aes128EncryptFfs E s.cnt0 s.cnt1
  writeBytes s.c (32 * (nBlocks / 2)) (mlen - nBlocks / 2 * 32) fun j =>
    m (32 * (nBlocks / 2) + j) ^^^ outByte out j

/-- The length block (`aes_gcm.c:124-129`). -/
def putLengths (adlen mlen : ℕ) : Block :=
  let adbits := BitVec.ofNat 64 (8 * adlen)
  let mbits := BitVec.ofNat 64 (8 * mlen)
  let buf := putUint32Be (adbits >>> 32) zeroBlock 0
  let buf := putUint32Be adbits buf 4
  let buf := putUint32Be (mbits >>> 32) buf 8
  putUint32Be mbits buf 12

structure GcmOutput where
  ret : Int
  c : Buffer
  tag : Block

/-- `aes_gcm_128_encrypt` (`aes_gcm.c:40-139`). -/
def aesGcm128Encrypt (cipher : Block → Block → Block) (c₀ m : Buffer) (mlen : ℕ) (ad : Buffer)
    (adlen : ℕ) (npub : Nonce) (k : Block) : GcmOutput :=
  let aesSchedule := cipher k
  let cnt0 := setByte (nonceBlock npub) 15 1
  let (hashKey, tagMask) := aes128EncryptFfs aesSchedule zeroBlock cnt0
  let c := pairStream aesSchedule m mlen (gcmIncr cnt0) c₀
  let ghash := ghashInit hashKey
  let ghash := if adlen > 0 then ghashFeed ghash ad adlen else ghash
  let ghash := if mlen > 0 then ghashFeed ghash c mlen else ghash
  let ghash := ghashProcessBlock ghash (putLengths adlen mlen)
  ⟨0, c, xorBlocks ghash.buf tagMask⟩

/-! ### The counter -/

theorem beVal_word (y : Block) : beVal y 12 4 = beWord y := by
  have hval : beVal y 12 4 = (((0 * 256 + (byteAt y 12).toNat) * 256 + (byteAt y 13).toNat) * 256 +
      (byteAt y 14).toNat) * 256 + (byteAt y 15).toNat := rfl
  rw [hval, beWord]
  omega

/- The carry loop over four bytes is `inc_32`. -/
theorem gcmIncr_eq (y : Block) : gcmIncr y = inc32 y := by
  have hword : beVal (gcmIncr y) 12 4 = beVal (inc32 y) 12 4 := by
    have hpow : (256 : ℕ)^4 = 2^32 := by norm_num
    rw [gcmIncr, beVal_carryUp 12 4 y (by omega), beVal_word, beVal_word, beWord_inc32, hpow]
  apply block_ext
  intro i hi
  rcases Nat.lt_or_ge i 12 with hlt | hge
  · have hmod : i % 16 = i := Nat.mod_eq_of_lt hi
    rw [gcmIncr, byteAt_carryUp 12 4 i y hi (by omega), byteAt, byteAt, inc32, Fin.val_ofNat, hmod,
      if_pos hlt]
  · have h := beVal_inj _ _ 12 4 hword (i - 12) (by omega)
    have hpos : 12 + (i - 12) = i := by omega
    rwa [hpos] at h

/-! ### The ciphertext -/

/-- The two counters at the head of round `i`, and the bytes written. -/
structure PairInv (E : Block → Block) (m : Buffer) (start : Block) (c₀ : Buffer) (i : ℕ)
    (s : PairState) : Prop where
  cnt0 : s.cnt0 = inc32^[2 * i] start
  cnt1 : s.cnt1 = inc32^[2 * i + 1] start
  c : ∀ p, s.c p = if p < 32 * i then m p ^^^ gctrStream E start p else c₀ p

/- The 32 bytes of a pair of blocks are those of the one-block keystream. -/
theorem outByte_eq (E : Block → Block) (start : Block) (i j : ℕ) (hj : j < 32) :
    outByte (aes128EncryptFfs E (inc32^[2 * i] start) (inc32^[2 * i + 1] start)) j =
      gctrStream E start (32 * i + j) := by
  by_cases hlow : j < 16
  · have hdiv : (32 * i + j) / 16 = 2 * i := by omega
    have hmod : (32 * i + j) % 16 = j := by omega
    rw [outByte, if_pos hlow, gctrStream, hdiv, hmod]
    rfl
  · have hdiv : (32 * i + j) / 16 = 2 * i + 1 := by omega
    have hmod : (32 * i + j) % 16 = j - 16 := by omega
    rw [outByte, if_neg hlow, gctrStream, hdiv, hmod]
    rfl

theorem pairStep_inv (E : Block → Block) (m : Buffer) (start : Block) (c₀ : Buffer) (i : ℕ)
    (s : PairState) (h : PairInv E m start c₀ i s) :
    PairInv E m start c₀ (i + 1) (pairStep E m i s) where
  cnt0 := by
    show gcmIncr (gcmIncr s.cnt0) = inc32^[2 * i + 1 + 1] start
    rw [gcmIncr_eq, gcmIncr_eq, h.cnt0, Function.iterate_succ_apply', Function.iterate_succ_apply']
  cnt1 := by
    show gcmIncr (gcmIncr s.cnt1) = inc32^[2 * i + 1 + 1 + 1] start
    rw [gcmIncr_eq, gcmIncr_eq, h.cnt1, Function.iterate_succ_apply' inc32 (2 * i + 1 + 1),
      Function.iterate_succ_apply' inc32 (2 * i + 1)]
  c p := by
    have hpiece := writeBytes_prefix s.c c₀ (fun p => m p ^^^ gctrStream E start p)
      (fun j => m (32 * i + j) ^^^ outByte (aes128EncryptFfs E s.cnt0 s.cnt1) j) (32 * i) 32 h.c
      (fun j hj => by rw [h.cnt0, h.cnt1, outByte_eq E start i j hj]) p
    have hnext : 32 * (i + 1) = 32 * i + 32 := by omega
    rw [hnext]
    exact hpiece

/-- Counter mode block by block, for every length. -/
theorem pairStream_eq (E : Block → Block) (m : Buffer) (mlen : ℕ) (start : Block) (c₀ : Buffer)
    (p : ℕ) : pairStream E m mlen start c₀ p =
      if p < mlen then m p ^^^ gctrStream E start p else c₀ p := by
  let n := mlen / 16 / 2
  have hinv := forRange_inv (PairInv E m start c₀) n (pairStep E m) ⟨start, gcmIncr start, c₀⟩
    ⟨rfl, gcmIncr_eq start, fun p => (if_neg (Nat.not_lt_zero p)).symm⟩
    fun i _ s hs => pairStep_inv E m start c₀ i s hs
  have hlen : mlen - n * 32 < 32 := by
    have hn : n = mlen / 16 / 2 := rfl
    omega
  have hend : 32 * n + (mlen - n * 32) = mlen := by
    have hn : n = mlen / 16 / 2 := rfl
    omega
  let s := forRange n (pairStep E m) ⟨start, gcmIncr start, c₀⟩
  have hpiece := writeBytes_prefix s.c c₀ (fun p => m p ^^^ gctrStream E start p)
    (fun j => m (32 * n + j) ^^^ outByte (aes128EncryptFfs E s.cnt0 s.cnt1) j) (32 * n)
    (mlen - n * 32) hinv.c
    (fun j hj => by rw [hinv.cnt0, hinv.cnt1, outByte_eq E start n j (by omega)]) p
  rw [hend] at hpiece
  exact hpiece

/-! ### The tag -/

theorem putLengths_eq (adlen mlen : ℕ) : putLengths adlen mlen = lengthBlock adlen mlen := by
  funext j
  apply BitVec.eq_of_toNat_eq
  fin_cases j <;>
    simp [putLengths, putUint32Be, setByte, lengthBlock, BitVec.toNat_setWidth,
      BitVec.toNat_ushiftRight, Nat.shiftRight_eq_div_pow] <;> omega

theorem streamBlock_eq (npub : Nonce) : setByte (nonceBlock npub) 15 1 = nonceCtrBlock npub 1 := by
  funext j
  fin_cases j <;> rfl

/- The guards of the two hash loops make no difference. -/
theorem ghashFeed_guard (ctx : GhashContext) (data : Buffer) (len : ℕ) :
    (if len > 0 then ghashFeed ctx data len else ctx) = ghashFeed ctx data len := by
  by_cases h : len > 0
  · rw [if_pos h]
  · have hzero : len = 0 := by omega
    rw [if_neg h, hzero]
    rfl

section Call

variable (cipher : Block → Block → Block) (c₀ m : Buffer) (mlen : ℕ) (ad : Buffer) (adlen : ℕ)
  (npub : Nonce) (k : Block)

theorem aesGcm128Encrypt_c (p : ℕ) : (aesGcm128Encrypt cipher c₀ m mlen ad adlen npub k).c p =
    if p < mlen then m p ^^^ gctrStream (cipher k) (inc32 (nonceCtrBlock npub 1)) p else c₀ p := by
  rw [← streamBlock_eq, ← gcmIncr_eq]
  exact pairStream_eq _ m mlen _ c₀ p

theorem aesGcm128Encrypt_ciphertext :
    bytesOf (aesGcm128Encrypt cipher c₀ m mlen ad adlen npub k).c mlen =
      gctr (cipher k) (inc32 (nonceCtrBlock npub 1)) (bytesOf m mlen) := by
  rw [gctr, xorStream, length_bytesOf]
  apply bytesOf_congr
  intro p hp
  rw [aesGcm128Encrypt_c, if_pos hp, bufferOf_bytesOf m mlen p hp]

theorem aesGcm128Encrypt_tag :
    let out := aesGcm128Encrypt cipher c₀ m mlen ad adlen npub k
    out.tag = gcmTag (cipher k) npub (bytesOf out.c mlen) (bytesOf ad adlen) := by
  intro out
  let E := cipher k
  have h0 := ghashInit_absorbed (E zeroBlock)
  have h1 := ghashFeed_absorbed _ _ _ ad adlen h0
  have h2 := ghashFeed_absorbed _ _ _ out.c mlen h1
  have h3 := (ghashProcessBlock_absorbed _ _ (putLengths adlen mlen) _ h2).buf
  rw [List.nil_append, putLengths_eq] at h3
  rw [gcmTag, length_bytesOf, length_bytesOf, ← h3, ← streamBlock_eq]
  show xorBlocks (ghashProcessBlock (if mlen > 0 then ghashFeed (if adlen > 0
    then ghashFeed (ghashInit (E zeroBlock)) ad adlen else ghashInit (E zeroBlock)) out.c mlen
    else _) _).buf _ = _
  rw [ghashFeed_guard, ghashFeed_guard, putLengths_eq]

end Call

/-- Every call writes the ciphertext and the tag of AES-GCM, and no byte behind
the ciphertext. -/
theorem aesGcm128Encrypt_eq (cipher : Block → Block → Block) (c₀ m : Buffer) (mlen : ℕ)
    (ad : Buffer) (adlen : ℕ) (npub : Nonce) (k : Block) :
    let out := aesGcm128Encrypt cipher c₀ m mlen ad adlen npub k
    out.ret = 0 ∧
    (bytesOf out.c mlen, out.tag) =
      gcmEncrypt (cipher k) npub (bytesOf m mlen) (bytesOf ad adlen) ∧
    ∀ p, mlen ≤ p → out.c p = c₀ p := by
  refine ⟨rfl, ?_, fun p hp => ?_⟩
  · rw [aesGcm128Encrypt_tag, aesGcm128Encrypt_ciphertext]
    rfl
  · rw [aesGcm128Encrypt_c, if_neg (Nat.not_lt.mpr hp)]

end Pobc.Iot
