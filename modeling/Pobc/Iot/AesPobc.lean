import Pobc.Lib.Loop
import Pobc.Iot.Counter
import Mathlib.Algebra.BigOperators.Group.Finset.Basic

/-!
# AES-POBC encryption (`aes-pobc/aes_pobc.c`)

The encryptor of `aes_pobc.c` over an arbitrary block cipher, and what one call
leaves behind: the ciphertext, the tag as a sum of masks and data in every byte
column, and the list of blocks given to the cipher.

Lengths are natural numbers: they are those of buffers in memory, on which
`datalen + 15` and `i + 16` do not wrap around 2^64.
-/

namespace Pobc.Iot
open Pobc.Loop

/-- What the code uses of mbedTLS: the return code of the `n`-th
`mbedtls_aes_setkey_enc(&ctx, k, 128)` of a call, and encryption under a key. -/
structure Mbedtls where
  setkeyEnc : ℕ → Block → Int
  cryptEcb : Block → Block → Block

def Mbedtls.ofCipher (E : Block → Block) : Mbedtls := ⟨fun _ _ => 0, fun _ => E⟩

/-- `mbedtls_aes_context` after set-up. `inputs` is not in the source: it records
the blocks enciphered so far. -/
structure AesContext where
  crypt : Block → Block
  inputs : List Block

/-- `aes_ecb_encrypt_safe` (`aes_pobc.c:19-24`); the copy of the input makes it
safe to encrypt in place. -/
def aesEcbEncryptSafe (ctx : AesContext) (input : Block) : AesContext × Block :=
  ({ ctx with inputs := ctx.inputs ++ [input] }, ctx.crypt input)

structure TagState where
  ctx : AesContext
  nonceTmp : Block
  tag : Block

def tagStep (order : ByteOrder) (data : Buffer) (datalen b : ℕ) (s : TagState) : TagState :=
  let (ctx, tagBlock) := aesEcbEncryptSafe s.ctx s.nonceTmp
  let offset := b * 16
  let limit := if datalen - offset < 16 then datalen - offset else 16
  { ctx := ctx
    tag := fun j =>
      if j.val < limit then s.tag j ^^^ (tagBlock j ^^^ data (offset + j)) else s.tag j
    nonceTmp := nonceIncr order s.nonceTmp }

/-- The first mask block of a family: the prefix in byte 12, one in byte 15. -/
def maskStart (noncePrefix : Byte) : Block := setByte (setByte zeroBlock 12 noncePrefix) 15 1

/-- `process_blocks` (`aes_pobc.c:26-42`). -/
def processBlocks (order : ByteOrder) (ctx : AesContext) (data : Buffer) (datalen : ℕ) (tag : Block)
    (noncePrefix : Byte) : TagState :=
  let blocks := (datalen + 16 - 1) / 16
  forRange blocks (tagStep order data datalen) ⟨ctx, maskStart noncePrefix, tag⟩

structure StreamState where
  i : ℕ
  ctx : AesContext
  nonceCounter : Block
  c : Buffer

/-- One round of the loop over full blocks (`aes_pobc.c:56-63`). -/
def fullBlockStep (order : ByteOrder) (m : Buffer) (s : StreamState) : StreamState :=
  let (ctx, streamBlock) := aesEcbEncryptSafe s.ctx s.nonceCounter
  { i := s.i + 16
    ctx := ctx
    nonceCounter := nonceIncr order s.nonceCounter
    c := writeBytes s.c s.i 16 fun j => m (s.i + j) ^^^ byteAt streamBlock j }

def lastBlockStep (m : Buffer) (mlen : ℕ) (s : StreamState) : StreamState :=
  let (ctx, streamBlock) := aesEcbEncryptSafe s.ctx s.nonceCounter
  { i := mlen
    ctx := ctx
    nonceCounter := s.nonceCounter
    c := writeBytes s.c s.i (mlen - s.i) fun j =>
      m (s.i + j) ^^^ byteAt streamBlock ((s.i + j) % 16) }

/-- The encryption loop and its partial last block (`aes_pobc.c:56-69`). -/
def encryptStream (order : ByteOrder) (m : Buffer) (mlen : ℕ) (s : StreamState) : StreamState :=
  let s := whileLoop mlen (fun s => decide (s.i + 16 ≤ mlen)) (fullBlockStep order m) s
  if s.i < mlen then lastBlockStep m mlen s else s

/-- Return code and output buffers of a call, with the recorded cipher inputs. -/
structure PobcOutput where
  ret : Int
  c : Buffer
  tag : Block
  inputs : List Block

/-- `aes_pobc_encrypt` (`aes_pobc.c:44-74`). -/
def aesPobcEncrypt (order : ByteOrder) (lib : Mbedtls) (c₀ : Buffer) (tag₀ : Block) (m : Buffer)
    (mlen : ℕ) (ad : Buffer) (adlen : ℕ) (npub : Nonce) (k : Block) : PobcOutput :=
  let ret := lib.setkeyEnc 0 k
  if ret ≠ 0 then ⟨ret, c₀, tag₀, []⟩
  else
    let ctx : AesContext := ⟨lib.cryptEcb k, []⟩
    let (ctx, tag) := aesEcbEncryptSafe ctx (nonceBlock npub)
    let nonceCounter := setByte (nonceBlock npub) 15 0x01
    let s := encryptStream order m mlen ⟨0, ctx, nonceCounter, c₀⟩
    let t := processBlocks order s.ctx ad adlen tag 0x60
    let t := processBlocks order t.ctx s.c mlen t.tag 0x40
    ⟨0, s.c, t.tag, t.ctx.inputs⟩

/- A call depends on mbedTLS and the key only through the set-up and the cipher. -/
theorem aesPobcEncrypt_congr (order : ByteOrder) (lib lib' : Mbedtls) (c₀ : Buffer) (tag₀ : Block)
    (m : Buffer) (mlen : ℕ) (ad : Buffer) (adlen : ℕ) (npub : Nonce) (k k' : Block)
    (hsetkey : lib.setkeyEnc 0 k = lib'.setkeyEnc 0 k')
    (hcrypt : lib.cryptEcb k = lib'.cryptEcb k') :
    aesPobcEncrypt order lib c₀ tag₀ m mlen ad adlen npub k =
      aesPobcEncrypt order lib' c₀ tag₀ m mlen ad adlen npub k' := by
  simp only [aesPobcEncrypt, hsetkey, hcrypt]

/-! ### The mask loop -/

/-- How many of the 16-byte blocks of a buffer reach byte column `j`. -/
def columnBlocks (datalen j : ℕ) : ℕ := (datalen + 15 - j) / 16

def blockCount (datalen : ℕ) : ℕ := (datalen + 15) / 16

def counterRun (order : ByteOrder) (start : Block) (n : ℕ) : List Block :=
  (List.range n).map fun b => (nonceIncr order)^[b] start

theorem counterRun_succ (order : ByteOrder) (start : Block) (n : ℕ) :
    counterRun order start (n + 1) = counterRun order start n ++ [(nonceIncr order)^[n] start] := by
  simp only [counterRun, List.range_succ, List.map_append, List.map_cons, List.map_nil]

structure TagInv (order : ByteOrder) (data : Buffer) (datalen : ℕ) (s₀ : TagState) (n : ℕ)
    (s : TagState) : Prop where
  crypt : s.ctx.crypt = s₀.ctx.crypt
  inputs : s.ctx.inputs = s₀.ctx.inputs ++ counterRun order s₀.nonceTmp n
  nonce : s.nonceTmp = (nonceIncr order)^[n] s₀.nonceTmp
  tag : ∀ j : Fin 16, lane (s.tag j) = lane (s₀.tag j) +
    ∑ b ∈ Finset.range (min n (columnBlocks datalen j)),
      (lane (s₀.ctx.crypt ((nonceIncr order)^[b] s₀.nonceTmp) j) + lane (data (b * 16 + j)))

theorem tagInv_zero (order : ByteOrder) (data : Buffer) (datalen : ℕ) (s₀ : TagState) :
    TagInv order data datalen s₀ 0 s₀ where
  crypt := rfl
  inputs := (List.append_nil _).symm
  nonce := rfl
  tag j := by simp

theorem tagInv_step (order : ByteOrder) (data : Buffer) (datalen : ℕ) (s₀ : TagState) (n : ℕ)
    (s : TagState) (h : TagInv order data datalen s₀ n s) :
    TagInv order data datalen s₀ (n + 1) (tagStep order data datalen n s) where
  crypt := h.crypt
  inputs := by
    simp only [tagStep, aesEcbEncryptSafe, h.inputs, h.nonce, counterRun_succ, List.append_assoc]
  nonce := by
    rw [Function.iterate_succ_apply', ← h.nonce]
    rfl
  tag j := by
    have hj := j.isLt
    simp only [tagStep, aesEcbEncryptSafe, h.crypt, h.nonce]
    -- column `j` of block `n` exists exactly when the limit of the round exceeds `j`
    by_cases hcol : n < columnBlocks datalen j
    · have hlimit : j.val < if datalen - n * 16 < 16 then datalen - n * 16 else 16 := by
        unfold columnBlocks at hcol
        split <;> omega
      have h1 : min (n + 1) (columnBlocks datalen j) = n + 1 := by omega
      have h2 : min n (columnBlocks datalen j) = n := by omega
      have htag := h.tag j
      rw [h2] at htag
      rw [if_pos hlimit, h1, Finset.sum_range_succ, lane_xor, lane_xor, htag, add_assoc]
    · have hlimit : ¬ j.val < if datalen - n * 16 < 16 then datalen - n * 16 else 16 := by
        unfold columnBlocks at hcol
        split <;> omega
      have h1 : min (n + 1) (columnBlocks datalen j) = columnBlocks datalen j := by omega
      have h2 : min n (columnBlocks datalen j) = columnBlocks datalen j := by omega
      have htag := h.tag j
      rw [h2] at htag
      rw [if_neg hlimit, h1, htag]

theorem processBlocks_inv (order : ByteOrder) (ctx : AesContext) (data : Buffer) (datalen : ℕ)
    (tag : Block) (noncePrefix : Byte) :
    TagInv order data datalen ⟨ctx, maskStart noncePrefix, tag⟩ (blockCount datalen)
      (processBlocks order ctx data datalen tag noncePrefix) :=
  forRange_inv (TagInv order data datalen ⟨ctx, maskStart noncePrefix, tag⟩) (blockCount datalen)
    (tagStep order data datalen) _ (tagInv_zero order data datalen _)
    fun n _ s hs => tagInv_step order data datalen _ n s hs

/-! ### The encryption loop -/

/-- The state after `t` blocks have been given to the cipher and the bytes below
`i` written. -/
structure StreamInv (order : ByteOrder) (m : Buffer) (s₀ : StreamState) (t : ℕ)
    (s : StreamState) : Prop where
  crypt : s.ctx.crypt = s₀.ctx.crypt
  inputs : s.ctx.inputs = s₀.ctx.inputs ++ counterRun order s₀.nonceCounter t
  c : ∀ p, s.c p = if p < s.i then
    m p ^^^ ctrStream (nonceIncr order) s₀.ctx.crypt s₀.nonceCounter p else s₀.c p

theorem fullBlockStep_inv (order : ByteOrder) (m : Buffer) (s₀ : StreamState) (t : ℕ)
    (s : StreamState) (hi : s.i = 16 * t)
    (hnonce : s.nonceCounter = (nonceIncr order)^[t] s₀.nonceCounter)
    (h : StreamInv order m s₀ t s) : StreamInv order m s₀ (t + 1) (fullBlockStep order m s) where
  crypt := h.crypt
  inputs := by
    simp only [fullBlockStep, aesEcbEncryptSafe, h.inputs, hnonce, counterRun_succ,
      List.append_assoc]
  c := by
    refine writeBytes_prefix s.c s₀.c _
      (fun j => m (s.i + j) ^^^ byteAt (s.ctx.crypt s.nonceCounter) j) s.i 16 h.c fun j hj => ?_
    rw [h.crypt, hnonce, hi, ctrStream_block (nonceIncr order) _ _ t j hj]

theorem lastBlockStep_inv (order : ByteOrder) (m : Buffer) (mlen : ℕ) (s₀ : StreamState) (t : ℕ)
    (s : StreamState) (hi : s.i = 16 * t) (hlo : s.i < mlen) (hhi : mlen < s.i + 16)
    (hnonce : s.nonceCounter = (nonceIncr order)^[t] s₀.nonceCounter)
    (h : StreamInv order m s₀ t s) : StreamInv order m s₀ (t + 1) (lastBlockStep m mlen s) where
  crypt := h.crypt
  inputs := by
    simp only [lastBlockStep, aesEcbEncryptSafe, h.inputs, hnonce, counterRun_succ,
      List.append_assoc]
  c p := by
    have hlen : s.i + (mlen - s.i) = mlen := by omega
    have hpiece := writeBytes_prefix s.c s₀.c
      (fun p => m p ^^^ ctrStream (nonceIncr order) s₀.ctx.crypt s₀.nonceCounter p)
      (fun j => m (s.i + j) ^^^ byteAt (s.ctx.crypt s.nonceCounter) ((s.i + j) % 16))
      s.i (mlen - s.i) h.c (fun j hj => ?_) p
    · rwa [hlen] at hpiece
    · have hmod : (16 * t + j) % 16 = j := by omega
      rw [h.crypt, hnonce, hi, ctrStream_block (nonceIncr order) _ _ t j (by omega), hmod]

theorem encryptStream_inv (order : ByteOrder) (m : Buffer) (mlen : ℕ) (s₀ : StreamState)
    (h0 : s₀.i = 0) : StreamInv order m s₀ (blockCount mlen) (encryptStream order m mlen s₀) ∧
      (encryptStream order m mlen s₀).i = mlen := by
  -- at the loop head the counter has moved once per block and `i` is a multiple of 16
  let I (s : StreamState) : Prop := ∃ t, s.i = 16 * t ∧ s.i ≤ mlen ∧
    s.nonceCounter = (nonceIncr order)^[t] s₀.nonceCounter ∧ StreamInv order m s₀ t s
  have hstep : ∀ s, I s → decide (s.i + 16 ≤ mlen) = true → I (fullBlockStep order m s) ∧
      mlen - (fullBlockStep order m s).i < mlen - s.i := by
    rintro s ⟨t, hi, _, hnonce, hinv⟩ hcond
    have hle : s.i + 16 ≤ mlen := of_decide_eq_true hcond
    have hi' : (fullBlockStep order m s).i = s.i + 16 := rfl
    refine ⟨⟨t + 1, by omega, by omega, ?_, fullBlockStep_inv order m s₀ t s hi hnonce hinv⟩,
      by omega⟩
    rw [Function.iterate_succ_apply', ← hnonce]
    rfl
  have hinit : I s₀ := by
    refine ⟨0, by omega, by omega, rfl, rfl, (List.append_nil _).symm, ?_⟩
    intro p
    rw [h0]
    simp
  obtain ⟨⟨t, hi, hle, hnonce, hinv⟩, hexit⟩ := whileLoop_inv I (fun s => mlen - s.i)
    (fun s => decide (s.i + 16 ≤ mlen)) (fullBlockStep order m) hstep mlen s₀ hinit (by omega)
  have hlt : ¬ (whileLoop mlen (fun s => decide (s.i + 16 ≤ mlen)) (fullBlockStep order m)
      s₀).i + 16 ≤ mlen := of_decide_eq_false hexit
  simp only [encryptStream]
  split
  · rename_i hrest
    have hcount : blockCount mlen = t + 1 := by
      unfold blockCount
      omega
    rw [hcount]
    exact ⟨lastBlockStep_inv order m mlen s₀ t _ hi hrest (by omega) hnonce hinv, rfl⟩
  · rename_i hdone
    have hcount : blockCount mlen = t := by
      unfold blockCount
      omega
    rw [hcount]
    exact ⟨hinv, by omega⟩

/-! ### One call -/

def streamStart (npub : Nonce) : Block := setByte (nonceBlock npub) 15 1

def pobcInputs (order : ByteOrder) (npub : Nonce) (mlen adlen : ℕ) : List Block :=
  nonceBlock npub :: (counterRun order (streamStart npub) (blockCount mlen) ++
    counterRun order (maskStart 0x60) (blockCount adlen) ++
    counterRun order (maskStart 0x40) (blockCount mlen))

def columnSum (order : ByteOrder) (E : Block → Block) (noncePrefix : Byte) (data : Buffer)
    (datalen : ℕ) (j : Fin 16) : AesField :=
  ∑ b ∈ Finset.range (columnBlocks datalen j),
    (lane (E ((nonceIncr order)^[b] (maskStart noncePrefix)) j) + lane (data (b * 16 + j)))

theorem processBlocks_column (order : ByteOrder) (ctx : AesContext) (data : Buffer) (datalen : ℕ)
    (tag : Block) (noncePrefix : Byte) (j : Fin 16) :
    lane ((processBlocks order ctx data datalen tag noncePrefix).tag j) =
      lane (tag j) + columnSum order ctx.crypt noncePrefix data datalen j := by
  have hj := j.isLt
  have h := (processBlocks_inv order ctx data datalen tag noncePrefix).tag j
  have hmin : min (blockCount datalen) (columnBlocks datalen j) = columnBlocks datalen j := by
    unfold blockCount columnBlocks
    omega
  rw [hmin] at h
  exact h

theorem columnSum_congr (order : ByteOrder) (E : Block → Block) (noncePrefix : Byte)
    (data data' : Buffer) (datalen : ℕ) (j : Fin 16) (h : ∀ p < datalen, data p = data' p) :
    columnSum order E noncePrefix data datalen j =
      columnSum order E noncePrefix data' datalen j := by
  refine Finset.sum_congr rfl fun b hb => ?_
  have hlt := Finset.mem_range.mp hb
  have hj := j.isLt
  rw [h (b * 16 + j) (by unfold columnBlocks at hlt; omega)]

/-- What `aes_pobc_encrypt` leaves behind when key set-up succeeds. -/
theorem aesPobcEncrypt_spec (order : ByteOrder) (lib : Mbedtls) (c₀ : Buffer) (tag₀ : Block)
    (m : Buffer) (mlen : ℕ) (ad : Buffer) (adlen : ℕ) (npub : Nonce) (k : Block)
    (hkey : lib.setkeyEnc 0 k = 0) :
    let out := aesPobcEncrypt order lib c₀ tag₀ m mlen ad adlen npub k
    let E := lib.cryptEcb k
    out.ret = 0 ∧
    (∀ p, out.c p = if p < mlen then
      m p ^^^ ctrStream (nonceIncr order) E (streamStart npub) p else c₀ p) ∧
    (∀ j, lane (out.tag j) = lane (E (nonceBlock npub) j) + columnSum order E 0x60 ad adlen j +
      columnSum order E 0x40 out.c mlen j) ∧
    out.inputs = pobcInputs order npub mlen adlen := by
  intro out E
  let s₀ : StreamState := ⟨0, ⟨E, [nonceBlock npub]⟩, streamStart npub, c₀⟩
  let s := encryptStream order m mlen s₀
  let t := processBlocks order s.ctx ad adlen (E (nonceBlock npub)) 0x60
  let u := processBlocks order t.ctx s.c mlen t.tag 0x40
  obtain ⟨hs, hend⟩ := encryptStream_inv order m mlen s₀ rfl
  have ht := processBlocks_inv order s.ctx ad adlen (E (nonceBlock npub)) 0x60
  have hu := processBlocks_inv order t.ctx s.c mlen t.tag 0x40
  have hcrypt : s.ctx.crypt = E := hs.crypt
  have hout : out = ⟨0, s.c, u.tag, u.ctx.inputs⟩ := by
    simp only [out, aesPobcEncrypt, hkey, ne_eq, not_true_eq_false, if_false]
    rfl
  rw [hout]
  refine ⟨rfl, fun p => ?_, fun j => ?_, ?_⟩
  · have hp := hs.c p
    rw [hend] at hp
    exact hp
  · rw [processBlocks_column, processBlocks_column, ht.crypt, hcrypt]
  · rw [hu.inputs, ht.inputs, hs.inputs, List.append_assoc, List.append_assoc]
    simp only [pobcInputs, s₀, List.singleton_append, List.append_assoc]

end Pobc.Iot
