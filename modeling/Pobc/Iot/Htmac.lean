import Pobc.Iot.Pmac
import Mathlib.Algebra.BigOperators.Intervals
import Mathlib.Data.BitVec

/-!
# AES-CTR-HTMAC (`digest`, `enc_htmac_aes128`, `dec_htmac_aes128` of `aes_modes.c`)

`digest` adds up the nonce and the blocks in two 64-bit words, which it copies
out in the byte order of the machine. Both mode functions hash the ciphertext
over its whole blocks only, so decryption recomputes what encryption computed.
-/

namespace Pobc.Iot
open Pobc.Loop
open Pobc.Mode (tailOf)

/-- `sigma[j / 8] += ((uint64_t)b) << (8 * (j % 8))`. -/
def addByte (sigma : ℕ → BitVec 64) (j : ℕ) (b : Byte) : ℕ → BitVec 64 :=
  fun l => if l = j / 8 then sigma l + b.setWidth 64 <<< (8 * (j % 8)) else sigma l

def wordByte (order : ByteOrder) (w : BitVec 64) (k : ℕ) : Byte :=
  match order with
  | .little => (w >>> (8 * k)).setWidth 8
  | .big => (w >>> (8 * (7 - k))).setWidth 8

/-- `memcpy(hash, sigma, 16)`. -/
def hashBytes (order : ByteOrder) (sigma : ℕ → BitVec 64) : Block :=
  fun j => wordByte order (sigma (j.val / 8)) (j.val % 8)

/-- `digest` (`aes_modes.c:105-114`). -/
def digest (order : ByteOrder) (blocks : Memory) (numBlocks : ℕ) (nonce : Nonce) :
    Option Block := do
  let sigma := forRange 12 (fun i sigma => addByte sigma i (tailOf nonce i)) fun _ => 0
  let sigma ← forRangeM numBlocks (fun i sigma => do
    let bytes ← readBytes blocks (i * 16) 16
    return forRange 16 (fun j sigma => addByte sigma j (bytes j)) sigma) sigma
  return hashBytes order sigma

/-- `enc_htmac_aes128` (`aes_modes.c:174-187`): ciphertext and tag. -/
def encHtmacAes128 (order : ByteOrder) (cipher : Block → Block → Block) (ciphertext₀ : Memory)
    (message : Memory) (messageLen : ℕ) (key : Block) (nonce : Nonce) :
    Option (Memory × Block) := do
  let rkeys := cipher key
  let ciphertext ← aesCtrDec rkeys ciphertext₀ (modesCounter nonce) message messageLen
  let numBlocks := messageLen / 16
  let h ← digest order ciphertext numBlocks nonce
  return (ciphertext, (aes128EncryptFfs rkeys h h).1)

/-- `dec_htmac_aes128` (`aes_modes.c:189-204`): message and result of the tag check. -/
def decHtmacAes128 (order : ByteOrder) (cipher : Block → Block → Block) (message₀ : Memory)
    (ciphertext : Memory) (ciphertextLen : ℕ) (tag : Block) (key : Block) (nonce : Nonce) :
    Option (Memory × Bool) := do
  let rkeys := cipher key
  let message ← aesCtrDec rkeys message₀ (modesCounter nonce) ciphertext ciphertextLen
  let numBlocks := ciphertextLen / 16
  let h ← digest order ciphertext numBlocks nonce
  let computedTag := (aes128EncryptFfs rkeys h h).1
  return (message, tagCompare tag computedTag)

/-! ### The digest as a sum -/

/-- What byte `j` of a block, or of the nonce, adds to word `l`. -/
def byteTerm (f : ℕ → Byte) (l j : ℕ) : BitVec 64 :=
  if l = j / 8 then (f j).setWidth 64 <<< (8 * (j % 8)) else 0

def blockTerm (b : Block) (l : ℕ) : BitVec 64 := ∑ j ∈ Finset.range 16, byteTerm (byteAt b) l j

def nonceTerm (nonce : Nonce) (l : ℕ) : BitVec 64 :=
  ∑ j ∈ Finset.range 12, byteTerm (tailOf nonce) l j

def digestWord (f : Buffer) (n : ℕ) (nonce : Nonce) (l : ℕ) : BitVec 64 :=
  nonceTerm nonce l + ∑ i ∈ Finset.range n, blockTerm (blockAt f i) l

theorem addByte_eq (sigma : ℕ → BitVec 64) (f : ℕ → Byte) (l j : ℕ) :
    addByte sigma j (f j) l = sigma l + byteTerm f l j := by
  unfold addByte byteTerm
  split
  · rfl
  · rw [add_zero]

theorem forRange_addByte (sigma : ℕ → BitVec 64) (f : ℕ → Byte) (l n : ℕ) :
    forRange n (fun j s => addByte s j (f j)) sigma l =
      sigma l + ∑ j ∈ Finset.range n, byteTerm f l j := by
  induction n with
  | zero => rw [Finset.sum_range_zero, add_zero]; rfl
  | succ n ih => rw [forRange_succ, addByte_eq, ih, Finset.sum_range_succ, add_assoc]

theorem digest_eq (order : ByteOrder) (mem : Memory) (f : Buffer) (n : ℕ) (nonce : Nonce)
    (hin : ∀ p < n * 16, mem p = some (f p)) :
    digest order mem n nonce = some (hashBytes order (digestWord f n nonce)) := by
  let start : ℕ → BitVec 64 := forRange 12 (fun i s => addByte s i (tailOf nonce i)) fun _ => 0
  have hstart : ∀ l, start l = digestWord f 0 nonce l := by
    intro l
    rw [digestWord, Finset.sum_range_zero, add_zero]
    exact (forRange_addByte _ (tailOf nonce) l 12).trans (zero_add _)
  have hround : ∀ i < n, ∀ s : ℕ → BitVec 64, (∀ l, s l = digestWord f i nonce l) →
      ∃ s', (do
        let bytes ← readBytes mem (i * 16) 16
        return forRange 16 (fun j s => addByte s j (bytes j)) s : Option (ℕ → BitVec 64)) =
          some s' ∧ ∀ l, s' l = digestWord f (i + 1) nonce l := by
    intro i hi s hs
    obtain ⟨bytes, hread, hbytes⟩ := readBytes_some mem (i * 16) 16 (fun j => f (i * 16 + j))
      fun j hj => hin (i * 16 + j) (by omega)
    have hblock : ∀ l, ∑ j ∈ Finset.range 16, byteTerm bytes l j = blockTerm (blockAt f i) l := by
      intro l
      apply Finset.sum_congr rfl
      intro j hj
      have hj' := Finset.mem_range.mp hj
      have hbyte : byteAt (blockAt f i) j = bytes j := by
        rw [hbytes j hj', byteAt, blockAt, Fin.val_ofNat, Nat.mod_eq_of_lt hj']
      rw [byteTerm, byteTerm, hbyte]
    refine ⟨_, by rw [hread]; rfl, ?_⟩
    intro l
    rw [forRange_addByte, hblock, hs, digestWord, digestWord, Finset.sum_range_succ, add_assoc]
  obtain ⟨sigma, hsigma, hwords⟩ := forRangeM_some
    (fun i s => ∀ l, s l = digestWord f i nonce l) n _ start hstart hround
  have hfun : sigma = digestWord f n nonce := funext hwords
  simp only [digest]
  rw [hsigma, hfun]
  rfl

/-! ### Encryption and decryption on byte strings -/

def htmacTag (order : ByteOrder) (E : Block → Block) (nonce : Nonce) (c : List Byte) : Block :=
  E (hashBytes order (digestWord (bufferOf c) (c.length / 16) nonce))

/-- `enc_htmac_aes128` into a fresh buffer, read back by the caller. -/
def encHtmac (order : ByteOrder) (cipher : Block → Block → Block) (m : List Byte) (key : Block)
    (nonce : Nonce) : Option (List Byte × Block) := do
  let (ciphertext, tag) ← encHtmacAes128 order cipher unwritten (memoryOf m) m.length key nonce
  let bytes ← readBytes ciphertext 0 m.length
  return (bytesOf bytes m.length, tag)

/-- `dec_htmac_aes128` into a fresh buffer, read back by the caller. -/
def decHtmac (order : ByteOrder) (cipher : Block → Block → Block) (c : List Byte) (tag : Block)
    (key : Block) (nonce : Nonce) : Option (List Byte × Bool) := do
  let (message, ok) ← decHtmacAes128 order cipher unwritten (memoryOf c) c.length tag key nonce
  let bytes ← readBytes message 0 c.length
  return (bytesOf bytes c.length, ok)

theorem encHtmac_eq (order : ByteOrder) (cipher : Block → Block → Block) (m : List Byte)
    (key : Block) (nonce : Nonce) :
    let c := xorStream (modesStream (cipher key) (modesCounter nonce)) m
    encHtmac order cipher m key nonce = some (c, htmacTag order (cipher key) nonce c) := by
  intro c
  obtain ⟨out, bytes, hout, hmem, hread, hback⟩ :=
    stream_readback (cipher key) (modesCounter nonce) m
  have hlen : c.length = m.length := length_xorStream _ _
  have hdigest := digest_eq order out (bufferOf c) (m.length / 16) nonce fun p hp =>
    hmem p (by omega)
  have henc : encHtmacAes128 order cipher unwritten (memoryOf m) m.length key nonce =
      some (out, htmacTag order (cipher key) nonce c) := by
    simp only [encHtmacAes128]
    rw [hout, Option.bind_eq_bind, Option.bind_some, hdigest, htmacTag, hlen]
    rfl
  rw [encHtmac, henc, Option.bind_eq_bind, Option.bind_some]
  show ((readBytes out 0 m.length).bind fun bytes => some (bytesOf bytes m.length, _)) = _
  rw [hread, Option.bind_some, hback]

theorem decHtmac_eq (order : ByteOrder) (cipher : Block → Block → Block) (c : List Byte)
    (tag : Block) (key : Block) (nonce : Nonce) :
    decHtmac order cipher c tag key nonce =
      some (xorStream (modesStream (cipher key) (modesCounter nonce)) c,
        tagCompare tag (htmacTag order (cipher key) nonce c)) := by
  obtain ⟨out, bytes, hout, _, hread, hback⟩ := stream_readback (cipher key) (modesCounter nonce) c
  have hdigest := digest_eq order (memoryOf c) (bufferOf c) (c.length / 16) nonce fun p hp =>
    memoryOf_eq c p (by omega)
  have hdec : decHtmacAes128 order cipher unwritten (memoryOf c) c.length tag key nonce =
      some (out, tagCompare tag (htmacTag order (cipher key) nonce c)) := by
    simp only [decHtmacAes128]
    rw [hout, Option.bind_eq_bind, Option.bind_some, hdigest]
    rfl
  rw [decHtmac, hdec, Option.bind_eq_bind, Option.bind_some]
  show ((readBytes out 0 c.length).bind fun bytes => some (bytesOf bytes c.length, _)) = _
  rw [hread, Option.bind_some, hback]

theorem decHtmac_accepts_iff (order : ByteOrder) (cipher : Block → Block → Block)
    (key : Block) (nonce : Nonce) (c : List Byte) (tag : Block) (m : List Byte) :
    decHtmac order cipher c tag key nonce = some (m, true) ↔
      encHtmac order cipher m key nonce = some (c, tag) := by
  rw [decHtmac_eq, encHtmac_eq]
  constructor
  · intro h
    obtain ⟨hm, htag⟩ := Prod.mk.inj (Option.some.inj h)
    have hc : xorStream (modesStream (cipher key) (modesCounter nonce)) m = c := by
      rw [← hm, xorStream_xorStream]
    rw [hc, (tagCompare_iff _ _).mp htag]
  · intro h
    obtain ⟨hc, htag⟩ := Prod.mk.inj (Option.some.inj h)
    rw [hc] at htag
    rw [← htag, tagCompare_self, ← hc, xorStream_xorStream]

end Pobc.Iot
