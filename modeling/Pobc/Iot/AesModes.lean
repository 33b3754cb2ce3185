import Pobc.Lib.Loop
import Pobc.Iot.Counter

/-!
# AES-CTR with PMAC (`aes-modes/aes_modes.c`)

`aes128_encrypt_ffs` is one block cipher on each of its two lanes. Output buffers
start out unwritten: a `Memory` knows the bytes written so far, and a read of any
other byte has no result, so a call that succeeds has read written bytes only.
-/

namespace Pobc.Iot
open Pobc.Loop

abbrev Memory := ℕ → Option Byte

def unwritten : Memory := fun _ => none

def memoryOf (l : List Byte) : Memory := fun p => l[p]?

/-- The `n` bytes from `off` on, if all of them have been written. -/
def readBytes (mem : Memory) (off n : ℕ) : Option Buffer :=
  if ∀ j < n, (mem (off + j)).isSome then some fun j => (mem (off + j)).getD 0 else none

def writeMemory (mem : Memory) (off len : ℕ) (f : ℕ → Byte) : Memory :=
  fun p => if off ≤ p ∧ p < off + len then some (f (p - off)) else mem p

def aes128EncryptFfs (E : Block → Block) (pt0 pt1 : Block) : Block × Block := (E pt0, E pt1)

/-- `gf128_double` (`aes_modes.c:14-27`). -/
def gf128Double (input : Block) : Block :=
  let (temp, carry) := forRange 16 (fun n (s : Block × Byte) =>
    let i := 15 - n
    let b := byteAt input i
    let msb := b >>> 7
    (setByte s.1 i ((b <<< 1) ||| s.2), msb)) (zeroBlock, 0)
  setByte temp 15 (byteAt temp 15 ^^^ 0x87 * carry)

/-- `tag_compare` (`aes_modes.c:29-35`). -/
def tagCompare (tag1 tag2 : Block) : Bool :=
  forRange 16 (fun i result => result ||| (byteAt tag1 i ^^^ byteAt tag2 i)) (0 : Byte) == 0

structure CtrState where
  counterBlock : Block
  output : Memory

def ctrStep (E : Block → Block) (ctr : ℕ) (ciphertext : Memory) (ciphertextLen blocks i : ℕ)
    (s : CtrState) : Option CtrState := do
  let currentCtr := (ctr + i) % 2^32
  let counterBlock := storeWord .big s.counterBlock currentCtr
  let mask := (aes128EncryptFfs E counterBlock counterBlock).1
  let blockSize := if i = blocks - 1 ∧ ciphertextLen % 16 ≠ 0 then ciphertextLen % 16 else 16
  let input ← readBytes ciphertext (i * 16) blockSize
  return ⟨counterBlock, writeMemory s.output (i * 16) blockSize fun j => input j ^^^ byteAt mask j⟩

/-- `aes_ctr_dec` (`aes_modes.c:37-60`). -/
def aesCtrDec (E : Block → Block) (output : Memory) (counter : Block) (ciphertext : Memory)
    (ciphertextLen : ℕ) : Option Memory := do
  let ctr := loadWord .big counter
  let blocks := if ciphertextLen % 16 ≠ 0 then ciphertextLen / 16 + 1 else ciphertextLen / 16
  let s ← forRangeM blocks (ctrStep E ctr ciphertext ciphertextLen blocks) ⟨counter, output⟩
  return s.output

structure PmacState where
  masks : Block
  acc : Block

def pmacStep (E : Block → Block) (messageBlocks : Memory) (numBlocks i : ℕ) (s : PmacState) :
    Option PmacState := do
  let bytes ← readBytes messageBlocks (i * 16) 16
  let currentBlock : Block := fun j => bytes j
  if i = numBlocks - 1 then
    -- the flag is a constant of the source
    let isFullBlock := true
    let finalBlock :=
      if isFullBlock then xorBlocks currentBlock (gf128Double s.masks)
      else xorBlocks (setByte currentBlock 15 (byteAt currentBlock 15 ^^^ 0x80)) s.masks
    let cipherOut := (aes128EncryptFfs E finalBlock finalBlock).1
    return ⟨s.masks, xorBlocks s.acc cipherOut⟩
  else
    let masked := xorBlocks currentBlock s.masks
    let cipherOut := (aes128EncryptFfs E masked masked).1
    return ⟨gf128Double s.masks, xorBlocks s.acc cipherOut⟩

/-- `pmac` (`aes_modes.c:62-103`). -/
def pmac (E : Block → Block) (messageBlocks : Memory) (numBlocks : ℕ) : Option Block := do
  let L := (aes128EncryptFfs E zeroBlock zeroBlock).1
  let s ← forRangeM numBlocks (pmacStep E messageBlocks numBlocks) ⟨L, zeroBlock⟩
  return (aes128EncryptFfs E s.acc s.acc).1

/-- `counter` of the four mode functions: the nonce and `00 00 00 01`. -/
def modesCounter (nonce : Nonce) : Block := setByte (nonceBlock nonce) 15 1

/-- `enc_pmac_aes128` (`aes_modes.c:146-157`): ciphertext and tag. -/
def encPmacAes128 (cipher : Block → Block → Block) (ciphertext₀ : Memory) (message : Memory)
    (messageLen : ℕ) (key : Block) (nonce : Nonce) : Option (Memory × Block) := do
  let rkeys := cipher key
  let ciphertext ← aesCtrDec rkeys ciphertext₀ (modesCounter nonce) message messageLen
  let numBlocks := (messageLen + 15) / 16
  let tag ← pmac rkeys ciphertext numBlocks
  return (ciphertext, tag)

/-- `dec_pmac_aes128` (`aes_modes.c:159-172`): message and result of the tag check. -/
def decPmacAes128 (cipher : Block → Block → Block) (message₀ : Memory) (ciphertext : Memory)
    (ciphertextLen : ℕ) (tag : Block) (key : Block) (nonce : Nonce) : Option (Memory × Bool) := do
  let rkeys := cipher key
  let message ← aesCtrDec rkeys message₀ (modesCounter nonce) ciphertext ciphertextLen
  let numBlocks := ciphertextLen / 16
  let computedTag ← pmac rkeys ciphertext numBlocks
  return (message, tagCompare tag computedTag)

/-! ### Reads and writes -/

theorem readBytes_some (mem : Memory) (off n : ℕ) (f : ℕ → Byte)
    (h : ∀ j < n, mem (off + j) = some (f j)) :
    ∃ bytes, readBytes mem off n = some bytes ∧ ∀ j < n, bytes j = f j := by
  have hall : ∀ j < n, (mem (off + j)).isSome := fun j hj => by rw [h j hj]; rfl
  refine ⟨_, if_pos hall, fun j hj => ?_⟩
  rw [h j hj, Option.getD_some]

theorem readBytes_none (mem : Memory) (off n j : ℕ) (hj : j < n) (h : mem (off + j) = none) :
    readBytes mem off n = none := by
  refine if_neg fun hall => ?_
  have hj' := hall j hj
  rw [h] at hj'
  cases hj'

theorem tagCompare_self (tag : Block) : tagCompare tag tag = true := by
  have hzero : forRange 16 (fun i result => result ||| (byteAt tag i ^^^ byteAt tag i)) (0 : Byte) =
      0 := by
    refine forRange_inv (fun _ result => result = 0) 16 _ 0 rfl fun i _ result h => ?_
    rw [h, BitVec.xor_self]
    rfl
  rw [tagCompare, hzero]
  rfl

/-! ### The stream -/

def modesStream (E : Block → Block) (counter : Block) (p : ℕ) : Byte :=
  byteAt (E (storeWord .big counter ((loadWord .big counter + p / 16) % 2^32))) (p % 16)

theorem storeWord_congr (order : ByteOrder) (y z : Block) (w : ℕ)
    (h : ∀ k < 12, byteAt y k = byteAt z k) : storeWord order y w = storeWord order z w := by
  apply block_ext
  intro k hk
  rcases Nat.lt_or_ge k 12 with hlt | hge
  · rw [byteAt_storeWord order y w k hlt, byteAt_storeWord order z w k hlt, h k hlt]
  · have hcases : k = 12 ∨ k = 13 ∨ k = 14 ∨ k = 15 := by omega
    cases order <;> rcases hcases with rfl | rfl | rfl | rfl <;> rfl

structure CtrInv (E : Block → Block) (counter : Block) (f : ℕ → Byte) (output : Memory) (len n : ℕ)
    (s : CtrState) : Prop where
  nonce : ∀ k < 12, byteAt s.counterBlock k = byteAt counter k
  output : ∀ p, s.output p =
    if p < min (n * 16) len then some (f p ^^^ modesStream E counter p) else output p

theorem ctrStep_inv (E : Block → Block) (counter : Block) (ciphertext output : Memory)
    (f : ℕ → Byte)
    (len blocks n : ℕ) (s : CtrState) (hin : ∀ p < len, ciphertext p = some (f p))
    (hblocks : blocks = (len + 15) / 16) (hn : n < blocks) (h : CtrInv E counter f output len n s) :
    ∃ s', ctrStep E (loadWord .big counter) ciphertext len blocks n s = some s' ∧
      CtrInv E counter f output len (n + 1) s' := by
  let size := if n = blocks - 1 ∧ len % 16 ≠ 0 then len % 16 else 16
  have hsize : n * 16 + size = min ((n + 1) * 16) len := by
    simp only [size]
    split <;> omega
  have hle : size ≤ 16 := by
    simp only [size]
    split <;> omega
  obtain ⟨bytes, hread, hbytes⟩ := readBytes_some ciphertext (n * 16) size (fun j => f (n * 16 + j))
    fun j hj => hin (n * 16 + j) (by omega)
  have hcounter := storeWord_congr .big s.counterBlock counter
    ((loadWord .big counter + n) % 2^32) h.nonce
  let counterBlock := storeWord .big counter ((loadWord .big counter + n) % 2^32)
  refine ⟨⟨counterBlock, writeMemory s.output (n * 16) size fun j =>
    bytes j ^^^ byteAt (E counterBlock) j⟩, ?_, ?_, ?_⟩
  · simp only [ctrStep, aes128EncryptFfs, hcounter]
    rw [hread]
    rfl
  · intro k hk
    exact byteAt_storeWord .big counter _ k hk
  · intro p
    simp only [writeMemory, h.output, hsize]
    by_cases hold : p < n * 16
    · have h1 : ¬ (n * 16 ≤ p ∧ p < min ((n + 1) * 16) len) := by omega
      have h2 : p < min (n * 16) len := by omega
      have h3 : p < min ((n + 1) * 16) len := by omega
      rw [if_neg h1, if_pos h2, if_pos h3]
    · have hdrop : ¬ p < min (n * 16) len := by omega
      by_cases hnew : p < min ((n + 1) * 16) len
      · have hp : n * 16 + (p - n * 16) = p := by omega
        have hdiv : p / 16 = n := by omega
        have hmod : p % 16 = p - n * 16 := by omega
        rw [if_pos ⟨Nat.not_lt.mp hold, hnew⟩, if_pos hnew, hbytes _ (by omega), hp, modesStream,
          hdiv, hmod]
      · have h1 : ¬ (n * 16 ≤ p ∧ p < min ((n + 1) * 16) len) := by omega
        rw [if_neg h1, if_neg hdrop, if_neg hnew]

theorem aesCtrDec_spec (E : Block → Block) (output : Memory) (counter : Block) (ciphertext : Memory)
    (f : ℕ → Byte) (len : ℕ) (hin : ∀ p < len, ciphertext p = some (f p)) :
    ∃ out, aesCtrDec E output counter ciphertext len = some out ∧
      ∀ p, out p = if p < len then some (f p ^^^ modesStream E counter p) else output p := by
  have hblocks : (if len % 16 ≠ 0 then len / 16 + 1 else len / 16) = (len + 15) / 16 := by
    split <;> omega
  have hinit : CtrInv E counter f output len 0 ⟨counter, output⟩ := by
    refine ⟨fun _ _ => rfl, fun p => ?_⟩
    have hnone : ¬ p < min (0 * 16) len := by omega
    rw [if_neg hnone]
  obtain ⟨s, hs, hinv⟩ := forRangeM_some (CtrInv E counter f output len) ((len + 15) / 16)
    (ctrStep E (loadWord .big counter) ciphertext len ((len + 15) / 16)) ⟨counter, output⟩ hinit
    fun n hn t ht => ctrStep_inv E counter ciphertext output f len _ n t hin rfl hn ht
  refine ⟨s.output, ?_, ?_⟩
  · simp only [aesCtrDec]
    rw [hblocks, hs]
    rfl
  · have hmin : min ((len + 15) / 16 * 16) len = len := by omega
    have hout := hinv.output
    rwa [hmin] at hout

/-! ### The tag -/

theorem pmac_some (E : Block → Block) (mem : Memory) (numBlocks : ℕ)
    (h : ∀ p < numBlocks * 16, (mem p).isSome) : ∃ tag, pmac E mem numBlocks = some tag := by
  have hstep : ∀ i < numBlocks, ∀ s, True →
      ∃ s', pmacStep E mem numBlocks i s = some s' ∧ True := by
    intro i hi s _
    obtain ⟨bytes, hread, _⟩ := readBytes_some mem (i * 16) 16 (fun j => (mem (i * 16 + j)).getD 0)
      fun j hj => by
        obtain ⟨b, hb⟩ := Option.isSome_iff_exists.mp (h (i * 16 + j) (by omega))
        rw [hb, Option.getD_some]
    simp only [pmacStep, hread]
    split <;> exact ⟨_, rfl, trivial⟩
  obtain ⟨s, hs, _⟩ := forRangeM_some (fun _ _ => True) numBlocks (pmacStep E mem numBlocks)
    ⟨(aes128EncryptFfs E zeroBlock zeroBlock).1, zeroBlock⟩ trivial hstep
  exact ⟨_, by rw [pmac, hs]; rfl⟩

theorem pmac_none (E : Block → Block) (mem : Memory) (numBlocks p : ℕ) (hp : p < numBlocks * 16)
    (h : mem p = none) : pmac E mem numBlocks = none := by
  have hread : readBytes mem (p / 16 * 16) 16 = none := by
    refine readBytes_none mem (p / 16 * 16) 16 (p % 16) (by omega) ?_
    have hsum : p / 16 * 16 + p % 16 = p := by omega
    rw [hsum, h]
  rw [pmac, forRangeM_none numBlocks (pmacStep E mem numBlocks) _ (p / 16) (by omega) fun s => by
    rw [pmacStep, hread]; rfl]
  rfl

end Pobc.Iot
