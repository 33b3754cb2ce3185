import Pobc.Iot.PolyvalHash
import Pobc.Iot.AesGcmSiv

/-!
# AES-GCM-SIV with POLYVAL (`aes/aes_gcm_siv.c`)

`aes_gcm_siv_128_encrypt` when `USE_GHASH_POLY` is not defined. Keys, counter and tag
input are those of the other variant; with POLYVAL as the hash a call is
`AEAD_AES_128_GCM_SIV` of RFC 8452.
-/

namespace Pobc.Polyval
open Pobc.Loop Pobc.Gcm Pobc.Mode Pobc.Iot

/-! ### The AEAD of the RFC -/

variable (cipher : Block → Block → Block) (key : Block) (nonce : Nonce)

def rfcTag (m ad : List Byte) : Block :=
  let s := polyval (sivAuthKey (cipher key) nonce)
    (padBlocks ad ++ padBlocks m ++ [sivLengthBlock ad.length m.length])
  cipher (sivEncKey (cipher key) nonce) (sivTagInput s nonce)

def rfcEncrypt (m ad : List Byte) : List Byte × Block :=
  let tag := rfcTag cipher key nonce m ad
  (xorStream (sivCtrStream (cipher (sivEncKey (cipher key) nonce)) tag) m, tag)

/-! ### The code -/

/-- The loops over a string (`aes_gcm_siv.c:85-125`). -/
def polyvalFeed (ctx : PolyvalContext) (data : Buffer) (len : ℕ) : PolyvalContext :=
  let blocks := len / 16
  let ctx := forRange blocks (fun i ctx =>
    polyvalProcessBlock ctx fun j => data (i * 16 + j)) ctx
  if len % 16 ≠ 0 then
    polyvalProcessBlock ctx fun j =>
      if j.val < len % 16 then data (blocks * 16 + j) else zeroBlock j
  else ctx

/-- The input of the tag (`aes_gcm_siv.c:74-150`). -/
def tagBlock (authKey : Block) (m : Buffer) (mlen : ℕ) (ad : Buffer) (adlen : ℕ)
    (npub : Nonce) : Block :=
  let polyCtx := polyvalInit authKey
  let polyCtx := polyvalFeed polyCtx ad adlen
  let polyCtx := polyvalFeed polyCtx m mlen
  let lengthBlock := putUint64Le (BitVec.ofNat 64 (8 * mlen))
    (putUint64Le (BitVec.ofNat 64 (8 * adlen)) zeroBlock 0) 8
  let polyCtx := polyvalProcessBlock polyCtx lengthBlock
  let lengthBlock := polyvalFinalize polyCtx lengthBlock
  let lengthBlock : Block := fun j =>
    if j.val < 12 then lengthBlock j ^^^ tailOf npub j else lengthBlock j
  setByte lengthBlock 15 (byteAt lengthBlock 15 &&& 0x7f)

/-- `aes_gcm_siv_128_encrypt` (`aes_gcm_siv.c:50-187`). -/
def aesGcmSiv128Encrypt (lib : Mbedtls) (c₀ : Buffer) (tag₀ : Block) (m : Buffer) (mlen : ℕ)
    (ad : Buffer) (adlen : ℕ) (npub : Nonce) (k : Block) : GcmOutput :=
  let keys := deriveKeys lib zeroBlock zeroBlock k npub
  if keys.ret ≠ 0 then ⟨keys.ret, c₀, tag₀⟩
  else
    let block := tagBlock keys.authKey m mlen ad adlen npub
    let ret := lib.setkeyEnc 1 keys.encKey
    if ret ≠ 0 then ⟨ret, c₀, tag₀⟩
    else
      let tag := lib.cryptEcb keys.encKey block
      ⟨0, sivCounterMode (lib.cryptEcb keys.encKey) m mlen tag c₀, tag⟩

/-! ### The hash of a call -/

/- Full blocks and the padded rest are the blocks of the padded string. -/
theorem polyvalFeed_eq (ctx : PolyvalContext) (data : Buffer) (len : ℕ) :
    polyvalFeed ctx data len = (padBlocks (bytesOf data len)).foldl polyvalProcessBlock ctx := by
  let block (i : ℕ) : Block := fun j => bufferOf (bytesOf data len) (i * 16 + j)
  have hfull : ∀ i < len / 16, (fun j : Fin 16 => data (i * 16 + j)) = block i := by
    intro i hi
    funext j
    have hj := j.isLt
    exact (bufferOf_bytesOf data len _ (by omega)).symm
  have hrun : forRange (len / 16) (fun i ctx =>
      polyvalProcessBlock ctx fun j => data (i * 16 + j)) ctx =
      ((List.range (len / 16)).map block).foldl polyvalProcessBlock ctx := by
    rw [← forRange_eq_foldl]
    exact forRange_congr _ _ _ _ fun i hi ctx => by rw [hfull i hi]
  rw [polyvalFeed, padBlocks, length_bytesOf, hrun]
  by_cases hrest : len % 16 = 0
  · have hcount : (len + 15) / 16 = len / 16 := by omega
    rw [if_neg (not_not.mpr hrest), hcount]
  · have hcount : (len + 15) / 16 = len / 16 + 1 := by omega
    have hlast : (fun j : Fin 16 => if j.val < len % 16 then data (len / 16 * 16 + j)
        else zeroBlock j) = block (len / 16) := by
      funext j
      by_cases hj : j.val < len % 16
      · rw [if_pos hj]
        exact (bufferOf_bytesOf data len _ (by omega)).symm
      · rw [if_neg hj]
        have hout : (bytesOf data len).length ≤ len / 16 * 16 + j.val := by
          rw [length_bytesOf]
          omega
        show zeroBlock j = (bytesOf data len).getD (len / 16 * 16 + j.val) 0
        exact (List.getD_eq_default _ _ hout).symm
    rw [if_pos hrest, hcount, hlast, List.range_succ, List.map_append, List.map_cons,
      List.map_nil, List.foldl_append, List.foldl_cons, List.foldl_nil]

theorem tagBlock_eq (authKey : Block) (m : Buffer) (mlen : ℕ) (ad : Buffer) (adlen : ℕ)
    (npub : Nonce) : tagBlock authKey m mlen ad adlen npub =
      sivTagInput (polyval authKey (padBlocks (bytesOf ad adlen) ++ padBlocks (bytesOf m mlen) ++
        [sivLengthBlock adlen mlen])) npub := by
  rw [tagBlock, putUint64Le_eq]
  simp only [polyvalFeed_eq, ← List.foldl_append]
  have hlast : ∀ (xs : List Block) (x : Block), polyvalProcessBlock
      (xs.foldl polyvalProcessBlock (polyvalInit authKey)) x =
      (xs ++ [x]).foldl polyvalProcessBlock (polyvalInit authKey) := by
    intro xs x
    rw [List.foldl_append, List.foldl_cons, List.foldl_nil]
  simp only [hlast, finalize_foldl]
  funext j
  fin_cases j <;> rfl

/-! ### One call -/

theorem aesGcmSiv128Encrypt_spec (lib : Mbedtls) (c₀ : Buffer) (tag₀ : Block) (m : Buffer)
    (mlen : ℕ) (ad : Buffer) (adlen : ℕ) (npub : Nonce) (k : Block)
    (hkey : lib.setkeyEnc 0 k = 0)
    (hencKey : lib.setkeyEnc 1 (sivEncKey (lib.cryptEcb k) npub) = 0) :
    let out := aesGcmSiv128Encrypt lib c₀ tag₀ m mlen ad adlen npub k
    out.ret = 0 ∧
    (bytesOf out.c mlen, out.tag) =
      rfcEncrypt lib.cryptEcb k npub (bytesOf m mlen) (bytesOf ad adlen) ∧
    ∀ p, mlen ≤ p → out.c p = c₀ p := by
  intro out
  let E := lib.cryptEcb (sivEncKey (lib.cryptEcb k) npub)
  let tag := rfcTag lib.cryptEcb k npub (bytesOf m mlen) (bytesOf ad adlen)
  have hout : out = ⟨0, sivCounterMode E m mlen tag c₀, tag⟩ := by
    have hret : ¬ lib.setkeyEnc 1 (sivEncKey (lib.cryptEcb k) npub) ≠ 0 := not_not.mpr hencKey
    have htag : tag = E (tagBlock (sivAuthKey (lib.cryptEcb k) npub) m mlen ad adlen npub) := by
      rw [tagBlock_eq]
      simp only [tag, rfcTag, length_bytesOf]
      rfl
    rw [htag]
    simp only [out, aesGcmSiv128Encrypt, deriveKeys_eq lib zeroBlock zeroBlock k npub hkey,
      if_neg hret]
    rfl
  have hc : ∀ p, out.c p = if p < mlen then m p ^^^ sivCtrStream E tag p else c₀ p := by
    intro p
    rw [hout]
    exact sivCounterMode_eq E m mlen tag c₀ p
  refine ⟨by rw [hout], ?_, fun p hp => ?_⟩
  · have hbytes : bytesOf out.c mlen = xorStream (sivCtrStream E tag) (bytesOf m mlen) := by
      rw [xorStream, length_bytesOf]
      apply bytesOf_congr
      intro p hp
      rw [hc p, if_pos hp, bufferOf_bytesOf m mlen p hp]
    have htag : out.tag = tag := by rw [hout]
    rw [hbytes, htag]
    rfl
  · rw [hc p, if_neg (Nat.not_lt.mpr hp)]

end Pobc.Polyval
