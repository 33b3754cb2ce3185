import Pobc.Iot.AesGcm
import Pobc.Iot.AesPobcSiv

/-!
# AES-GCM-SIV encryption (`aes/aes_gcm_siv.c`)

The variant with `USE_GHASH_POLY`. The hash runs over the message, the tag is
one cipher call on it, and the counter starts from the tag: a little-endian word
in bytes 0 to 3 that wraps around, with the top bit of byte 15 set.

`mbedtls_aes_crypt_ecb` returns 0 for every call in encryption mode, so the code
of a call is that of its two key set-ups. The buffers do not overlap.
-/

namespace Pobc.Iot
open Pobc.Loop Pobc.Gcm Pobc.Mode

/-- `MBEDTLS_GET_UINT32_LE`. -/
def getUint32Le (data : Block) (offset : ℕ) : BitVec 32 :=
  (byteAt data offset).setWidth 32 ||| (byteAt data (offset + 1)).setWidth 32 <<< 8 |||
    (byteAt data (offset + 2)).setWidth 32 <<< 16 ||| (byteAt data (offset + 3)).setWidth 32 <<< 24

/-- `MBEDTLS_PUT_UINT32_LE`. -/
def putUint32Le (n : BitVec 32) (data : Block) (offset : ℕ) : Block :=
  setByte (setByte (setByte (setByte data offset (n.setWidth 8))
    (offset + 1) ((n >>> 8).setWidth 8)) (offset + 2) ((n >>> 16).setWidth 8))
    (offset + 3) ((n >>> 24).setWidth 8)

/-- `MBEDTLS_PUT_UINT64_LE`. -/
def putUint64Le (n : BitVec 64) (data : Block) (offset : ℕ) : Block :=
  forRange 8 (fun i data => setByte data (offset + i) ((n >>> (8 * i)).setWidth 8)) data

/-- `memcpy(dst + offset, src, 8)`. -/
def copyHalf (dst : Block) (offset : ℕ) (src : Block) : Block :=
  fun j => if offset ≤ j.val ∧ j.val < offset + 8 then byteAt src (j.val - offset) else dst j

structure DerivedKeys where
  ret : Int
  authKey : Block
  encKey : Block

/-- `derive_keys` (`aes_gcm_siv.c:22-48`). -/
def deriveKeys (lib : Mbedtls) (authKey₀ encKey₀ key : Block) (nonce : Nonce) : DerivedKeys :=
  let block : Block := fun j => if j.val < 4 then zeroBlock j else tailOf nonce (j.val - 4)
  let ret := lib.setkeyEnc 0 key
  if ret ≠ 0 then ⟨ret, authKey₀, encKey₀⟩
  else
    let out := lib.cryptEcb key block
    let authKey := copyHalf authKey₀ 0 out
    let block := setByte block 0 1
    let out := lib.cryptEcb key block
    let authKey := copyHalf authKey 8 out
    let block := setByte block 0 2
    let out := lib.cryptEcb key block
    let encKey := copyHalf encKey₀ 0 out
    let block := setByte block 0 3
    let out := lib.cryptEcb key block
    let encKey := copyHalf encKey 8 out
    ⟨0, authKey, encKey⟩

structure SivCounter where
  cnt : BitVec 32
  counter : Block
  c : Buffer

/-- Round `i` of the counter loop (`aes_gcm_siv.c:166-176`). -/
def sivCounterStep (E : Block → Block) (m : Buffer) (i : ℕ) (s : SivCounter) : SivCounter :=
  let block := E s.counter
  let cnt := s.cnt + 1
  { c := writeBytes s.c (16 * i) 16 fun j => byteAt block j ^^^ m (16 * i + j)
    cnt := cnt
    counter := putUint32Le cnt s.counter 0 }

/-- The ciphertext of a tag (`aes_gcm_siv.c:158-184`). -/
def sivCounterMode (E : Block → Block) (m : Buffer) (mlen : ℕ) (tag : Block) (c₀ : Buffer) :
    Buffer :=
  let mblocks := mlen / 16
  let mRem := mlen % 16
  let counter := setByte tag 15 (byteAt tag 15 ||| 0x80)
  let cnt := getUint32Le counter 0
  let s := forRange mblocks (sivCounterStep E m) ⟨cnt, counter, c₀⟩
  if mRem ≠ 0 then
    let block := E s.counter
    writeBytes s.c (16 * mblocks) mRem fun j => byteAt block j ^^^ m (16 * mblocks + j)
  else s.c

/-- The input of the tag (`aes_gcm_siv.c:74-150`): the hash of data, message and
lengths, the nonce added and the top bit cleared. -/
def sivTagBlock (authKey : Block) (m : Buffer) (mlen : ℕ) (ad : Buffer) (adlen : ℕ)
    (npub : Nonce) : Block :=
  let ghashCtx := ghashInit authKey
  let ghashCtx := ghashFeed ghashCtx ad adlen
  let ghashCtx := ghashFeed ghashCtx m mlen
  let lengthBlock := putUint64Le (BitVec.ofNat 64 (8 * mlen))
    (putUint64Le (BitVec.ofNat 64 (8 * adlen)) zeroBlock 0) 8
  let ghashCtx := ghashProcessBlock ghashCtx lengthBlock
  let lengthBlock := ghashCtx.buf
  let lengthBlock : Block := fun j =>
    if j.val < 12 then lengthBlock j ^^^ tailOf npub j else lengthBlock j
  setByte lengthBlock 15 (byteAt lengthBlock 15 &&& 0x7f)

/-- `aes_gcm_siv_128_encrypt` (`aes_gcm_siv.c:50-187`). -/
def aesGcmSiv128Encrypt (lib : Mbedtls) (c₀ : Buffer) (tag₀ : Block) (m : Buffer) (mlen : ℕ)
    (ad : Buffer) (adlen : ℕ) (npub : Nonce) (k : Block) : GcmOutput :=
  let keys := deriveKeys lib zeroBlock zeroBlock k npub
  if keys.ret ≠ 0 then ⟨keys.ret, c₀, tag₀⟩
  else
    let block := sivTagBlock keys.authKey m mlen ad adlen npub
    let ret := lib.setkeyEnc 1 keys.encKey
    if ret ≠ 0 then ⟨ret, c₀, tag₀⟩
    else
      let tag := lib.cryptEcb keys.encKey block
      ⟨0, sivCounterMode (lib.cryptEcb keys.encKey) m mlen tag c₀, tag⟩

/-! ### The keys -/

theorem deriveKeys_eq (lib : Mbedtls) (authKey₀ encKey₀ key : Block) (nonce : Nonce)
    (hkey : lib.setkeyEnc 0 key = 0) : deriveKeys lib authKey₀ encKey₀ key nonce =
      ⟨0, sivAuthKey (lib.cryptEcb key) nonce, sivEncKey (lib.cryptEcb key) nonce⟩ := by
  let block : Block := fun j => if j.val < 4 then zeroBlock j else tailOf nonce (j.val - 4)
  have h0 : block = sivKeyBlock nonce 0 := by
    funext j
    fin_cases j <;> rfl
  have h1 : setByte block 0 1 = sivKeyBlock nonce 1 := by
    funext j
    fin_cases j <;> rfl
  have h2 : setByte (setByte block 0 1) 0 2 = sivKeyBlock nonce 2 := by
    funext j
    fin_cases j <;> rfl
  have h3 : setByte (setByte (setByte block 0 1) 0 2) 0 3 = sivKeyBlock nonce 3 := by
    funext j
    fin_cases j <;> rfl
  have hhalves : ∀ dst y z : Block, copyHalf (copyHalf dst 0 y) 8 z = halves y z := by
    intro dst y z
    funext j
    fin_cases j <;> rfl
  have hret : ¬ lib.setkeyEnc 0 key ≠ 0 := not_not.mpr hkey
  rw [deriveKeys, if_neg hret]
  show DerivedKeys.mk 0 (copyHalf (copyHalf authKey₀ 0 (lib.cryptEcb key block)) 8
    (lib.cryptEcb key (setByte block 0 1))) (copyHalf (copyHalf encKey₀ 0
    (lib.cryptEcb key (setByte (setByte block 0 1) 0 2))) 8
    (lib.cryptEcb key (setByte (setByte (setByte block 0 1) 0 2) 0 3))) = _
  rw [hhalves, hhalves, h3, h2, h1, h0]
  rfl

/-! ### The tag -/

theorem putUint64Le_eq (adlen mlen : ℕ) :
    putUint64Le (BitVec.ofNat 64 (8 * mlen))
      (putUint64Le (BitVec.ofNat 64 (8 * adlen)) zeroBlock 0) 8 = sivLengthBlock adlen mlen := by
  funext j
  apply BitVec.eq_of_toNat_eq
  fin_cases j <;>
    simp [putUint64Le, setByte, sivLengthBlock, BitVec.toNat_setWidth,
      BitVec.toNat_ushiftRight, Nat.shiftRight_eq_div_pow] <;> omega

theorem sivTagBlock_eq (authKey : Block) (m : Buffer) (mlen : ℕ) (ad : Buffer) (adlen : ℕ)
    (npub : Nonce) : sivTagBlock authKey m mlen ad adlen npub =
      sivTagInput (ghash authKey (padBlocks (bytesOf ad adlen) ++ padBlocks (bytesOf m mlen) ++
        [sivLengthBlock adlen mlen])) npub := by
  have h0 := ghashInit_absorbed authKey
  have h1 := ghashFeed_absorbed _ _ _ ad adlen h0
  have h2 := ghashFeed_absorbed _ _ _ m mlen h1
  have h3 := (ghashProcessBlock_absorbed _ _ (sivLengthBlock adlen mlen) _ h2).buf
  rw [List.nil_append] at h3
  rw [sivTagBlock, putUint64Le_eq]
  simp only [h3]
  funext j
  fin_cases j <;> rfl

/-! ### The counter -/

theorem getUint32Le_byte (y : Block) (j : ℕ) (hj : j < 4) :
    ((getUint32Le y 0) >>> (8 * j)).setWidth 8 = byteAt y j := by
  have hhigh : ∀ (b : Byte) (k : ℕ), 8 ≤ k → b.getLsbD k = false := fun b k hk =>
    BitVec.getLsbD_of_ge b k hk
  have hcases : j = 0 ∨ j = 1 ∨ j = 2 ∨ j = 3 := by omega
  apply BitVec.eq_of_getLsbD_eq
  intro k hk
  simp only [getUint32Le, BitVec.getLsbD_or, BitVec.getLsbD_shiftLeft, BitVec.getLsbD_setWidth,
    BitVec.getLsbD_ushiftRight]
  rcases hcases with rfl | rfl | rfl | rfl
  · grind
  · grind
  · grind
  · grind

theorem toNat_byte (n : BitVec 32) (j : ℕ) :
    ((n >>> (8 * j)).setWidth 8).toNat = n.toNat / 2^(8 * j) % 2^8 := by
  rw [BitVec.toNat_setWidth, BitVec.toNat_ushiftRight, Nat.shiftRight_eq_div_pow]

theorem toNat_getUint32Le (y : Block) : (getUint32Le y 0).toNat = leWord y := by
  symm
  apply leWord_eq y _ (getUint32Le y 0).isLt
  intro j hj
  rw [← getUint32Le_byte y j hj, toNat_byte]

theorem putUint32Le_kept (n : BitVec 32) (y : Block) (j : Fin 16) (hj : 4 ≤ j.val) :
    putUint32Le n y 0 j = y j := by
  have h0 : ¬ j.val = 0 := by omega
  have h1 : ¬ j.val = 0 + 1 := by omega
  have h2 : ¬ j.val = 0 + 2 := by omega
  have h3 : ¬ j.val = 0 + 3 := by omega
  simp only [putUint32Le, setByte, if_neg h0, if_neg h1, if_neg h2, if_neg h3]

/- Increments leave the bytes behind the word alone. -/
theorem sivCtrBlock_kept (tag : Block) (n : ℕ) (j : Fin 16) (hj : 4 ≤ j.val) :
    sivCtrBlock tag n j = setByte tag 15 (byteAt tag 15 ||| 0x80) j := by
  have hlow : ¬ j.val < 4 := by omega
  rw [sivCtrBlock, if_neg hlow, setByte]
  by_cases h15 : j.val = 15
  · rw [if_pos h15, if_pos h15, ← h15, byteAt_val]
  · rw [if_neg h15, if_neg h15]

/- The counter block of a tag after `n` increments. -/
theorem putUint32Le_counter (tag : Block) (n : ℕ) (cnt : BitVec 32)
    (hcnt : cnt.toNat = ((getUint32Le tag 0).toNat + n) % 2^32) (y : Block)
    (hy : ∀ j : Fin 16, 4 ≤ j.val → y j = setByte tag 15 (byteAt tag 15 ||| 0x80) j) :
    putUint32Le cnt y 0 = sivCtrBlock tag n := by
  have hword : ∀ j, BitVec.ofNat 8 ((leWord tag + n) % 2^32 / 2^(8 * j)) =
      (cnt >>> (8 * j)).setWidth 8 := by
    intro j
    rw [← toNat_getUint32Le, ← hcnt]
    apply BitVec.eq_of_toNat_eq
    rw [toNat_byte, BitVec.toNat_ofNat]
  funext j
  by_cases hj : j.val < 4
  · have hcases : j = 0 ∨ j = 1 ∨ j = 2 ∨ j = 3 := by omega
    simp only [sivCtrBlock, if_pos hj, hword]
    rcases hcases with rfl | rfl | rfl | rfl <;> rfl
  · rw [putUint32Le_kept cnt y j (by omega), hy j (by omega), sivCtrBlock_kept tag n j (by omega)]

/-- Word and block of the counter at the head of round `n`, and the bytes written. -/
structure SivCounterInv (E : Block → Block) (m : Buffer) (tag : Block) (c₀ : Buffer) (n : ℕ)
    (s : SivCounter) : Prop where
  cnt : s.cnt.toNat = ((getUint32Le tag 0).toNat + n) % 2^32
  counter : s.counter = sivCtrBlock tag n
  c : ∀ p, s.c p = if p < 16 * n then m p ^^^ sivCtrStream E tag p else c₀ p

theorem sivCtrStream_block (E : Block → Block) (tag : Block) (n j : ℕ) (hj : j < 16) :
    sivCtrStream E tag (16 * n + j) = byteAt (E (sivCtrBlock tag n)) j := by
  have hdiv : (16 * n + j) / 16 = n := by omega
  have hmod : (16 * n + j) % 16 = j := by omega
  rw [sivCtrStream, hdiv, hmod]

theorem sivCounterInv_zero (E : Block → Block) (m : Buffer) (tag : Block) (c₀ : Buffer) :
    let counter := setByte tag 15 (byteAt tag 15 ||| 0x80)
    SivCounterInv E m tag c₀ 0 ⟨getUint32Le counter 0, counter, c₀⟩ := by
  intro counter
  have hcnt : getUint32Le counter 0 = getUint32Le tag 0 := rfl
  have hlt := (getUint32Le tag 0).isLt
  have hzero : (getUint32Le counter 0).toNat = ((getUint32Le tag 0).toNat + 0) % 2^32 := by
    rw [hcnt, Nat.add_zero, Nat.mod_eq_of_lt hlt]
  refine ⟨hzero, ?_, fun p => (if_neg (Nat.not_lt_zero p)).symm⟩
  -- writing the word that was read changes nothing
  have hback : putUint32Le (getUint32Le counter 0) counter 0 = counter := by
    have hbyte := getUint32Le_byte counter
    funext j
    by_cases hj : j.val < 4
    · have hcases : j = 0 ∨ j = 1 ∨ j = 2 ∨ j = 3 := by omega
      rcases hcases with rfl | rfl | rfl | rfl
      · exact hbyte 0 (by omega)
      · exact hbyte 1 (by omega)
      · exact hbyte 2 (by omega)
      · exact hbyte 3 (by omega)
    · exact putUint32Le_kept _ counter j (by omega)
  show counter = sivCtrBlock tag 0
  rw [← hback]
  exact putUint32Le_counter tag 0 _ hzero counter fun _ _ => rfl

theorem sivCounterStep_inv (E : Block → Block) (m : Buffer) (tag : Block) (c₀ : Buffer) (n : ℕ)
    (s : SivCounter) (h : SivCounterInv E m tag c₀ n s) :
    SivCounterInv E m tag c₀ (n + 1) (sivCounterStep E m n s) := by
  have hcnt : (s.cnt + 1).toNat = ((getUint32Le tag 0).toNat + (n + 1)) % 2^32 := by
    have hone : (1 : BitVec 32).toNat = 1 := rfl
    rw [BitVec.toNat_add, h.cnt, hone]
    omega
  refine ⟨hcnt, ?_, fun p => ?_⟩
  · apply putUint32Le_counter tag (n + 1) _ hcnt
    intro j hj
    rw [h.counter, sivCtrBlock_kept tag n j hj]
  · have hpiece := writeBytes_prefix s.c c₀ (fun p => m p ^^^ sivCtrStream E tag p)
      (fun j => byteAt (E s.counter) j ^^^ m (16 * n + j)) (16 * n) 16 h.c
      (fun j hj => by rw [h.counter, sivCtrStream_block E tag n j hj, BitVec.xor_comm]) p
    have hnext : 16 * (n + 1) = 16 * n + 16 := by omega
    rw [hnext]
    exact hpiece

theorem sivCounterMode_eq (E : Block → Block) (m : Buffer) (mlen : ℕ) (tag : Block) (c₀ : Buffer)
    (p : ℕ) : sivCounterMode E m mlen tag c₀ p =
      if p < mlen then m p ^^^ sivCtrStream E tag p else c₀ p := by
  let counter := setByte tag 15 (byteAt tag 15 ||| 0x80)
  let n := mlen / 16
  have hn : n = mlen / 16 := rfl
  have hinv := forRange_inv (SivCounterInv E m tag c₀) n (sivCounterStep E m)
    ⟨getUint32Le counter 0, counter, c₀⟩ (sivCounterInv_zero E m tag c₀)
    fun i _ s hs => sivCounterStep_inv E m tag c₀ i s hs
  let s := forRange n (sivCounterStep E m) ⟨getUint32Le counter 0, counter, c₀⟩
  show (if mlen % 16 ≠ 0 then writeBytes s.c (16 * n) (mlen % 16)
    (fun j => byteAt (E s.counter) j ^^^ m (16 * n + j)) else s.c) p = _
  by_cases hrest : mlen % 16 = 0
  · have hlen : 16 * n = mlen := by omega
    have hc := hinv.c p
    rw [hlen] at hc
    rw [if_neg (not_not.mpr hrest)]
    exact hc
  · have hpiece := writeBytes_prefix s.c c₀ (fun p => m p ^^^ sivCtrStream E tag p)
      (fun j => byteAt (E s.counter) j ^^^ m (16 * n + j)) (16 * n) (mlen % 16) hinv.c
      (fun j hj => by
        rw [hinv.counter, sivCtrStream_block E tag n j (by omega), BitVec.xor_comm]) p
    have hlen : 16 * n + mlen % 16 = mlen := by omega
    rw [hlen] at hpiece
    rw [if_pos hrest]
    exact hpiece

/-! ### One call -/

/-- With successful key set-ups a call writes the ciphertext and the tag of the
mode, and no byte behind the ciphertext. -/
theorem aesGcmSiv128Encrypt_spec (lib : Mbedtls) (c₀ : Buffer) (tag₀ : Block) (m : Buffer)
    (mlen : ℕ) (ad : Buffer) (adlen : ℕ) (npub : Nonce) (k : Block)
    (hkey : lib.setkeyEnc 0 k = 0)
    (hencKey : lib.setkeyEnc 1 (sivEncKey (lib.cryptEcb k) npub) = 0) :
    let out := aesGcmSiv128Encrypt lib c₀ tag₀ m mlen ad adlen npub k
    out.ret = 0 ∧
    (bytesOf out.c mlen, out.tag) =
      gcmSivEncrypt lib.cryptEcb k npub (bytesOf m mlen) (bytesOf ad adlen) ∧
    ∀ p, mlen ≤ p → out.c p = c₀ p := by
  intro out
  let encKey := sivEncKey (lib.cryptEcb k) npub
  let E := lib.cryptEcb encKey
  let tag := gcmSivTag lib.cryptEcb k npub (bytesOf m mlen) (bytesOf ad adlen)
  have hout : out = ⟨0, sivCounterMode E m mlen tag c₀, tag⟩ := by
    have hret : ¬ lib.setkeyEnc 1 (sivEncKey (lib.cryptEcb k) npub) ≠ 0 := not_not.mpr hencKey
    have htag : tag = E (sivTagBlock (sivAuthKey (lib.cryptEcb k) npub) m mlen ad adlen npub) := by
      rw [sivTagBlock_eq]
      simp only [tag, gcmSivTag, length_bytesOf]
      rfl
    rw [htag]
    simp only [out, aesGcmSiv128Encrypt, deriveKeys_eq lib zeroBlock zeroBlock k npub hkey,
      if_neg hret]
    rfl
  have hc : ∀ p, out.c p = if p < mlen then m p ^^^ sivCtrStream E tag p else c₀ p := by
    intro p
    rw [hout]
    exact sivCounterMode_eq E m mlen tag c₀ p
  refine ⟨by rw [hout], ?_, fun p hp => ?_⟩
  · have hbytes : bytesOf out.c mlen = xorStream (sivCtrStream E tag) (bytesOf m mlen) := by
      rw [xorStream, length_bytesOf]
      apply bytesOf_congr
      intro p hp
      rw [hc p, if_pos hp, bufferOf_bytesOf m mlen p hp]
    have htag : out.tag = tag := by rw [hout]
    rw [hbytes, htag]
    rfl
  · rw [hc p, if_neg (Nat.not_lt.mpr hp)]

end Pobc.Iot
