import Pobc.Basic
import Pobc.Lib.Loop
import Pobc.Lib.Pad

/-!
# The POBC modes of the decryption circuits

What the circuits are there to compute, on bytes and over any block cipher `E`:
two keystreams, and a tag over the twelve-byte chunks of a padded string, each
chunk behind a four-byte big-endian counter.
-/

namespace Pobc.Mode
open Pobc.Loop

def beByte (n j : ℕ) : Byte := BitVec.ofNat 8 (n / 2^(8 * (3 - j)))

theorem beByte_mod (n j : ℕ) : beByte (n % 2^32) j = beByte n j := by
  apply BitVec.eq_of_toNat_eq
  rw [beByte, beByte, BitVec.toNat_ofNat, BitVec.toNat_ofNat]
  have hcases : 3 - j = 0 ∨ 3 - j = 1 ∨ 3 - j = 2 ∨ 3 - j = 3 := by omega
  rcases hcases with h | h | h | h <;> rw [h] <;> omega

theorem beByte_inj (n n' : ℕ) (hn : n < 2^32) (hn' : n' < 2^32)
    (h : ∀ j < 4, beByte n j = beByte n' j) : n = n' := by
  have hbyte : ∀ j < 4, n / 2^(8 * (3 - j)) % 2^8 = n' / 2^(8 * (3 - j)) % 2^8 := by
    intro j hj
    have htoNat := congrArg BitVec.toNat (h j hj)
    rwa [beByte, beByte, BitVec.toNat_ofNat, BitVec.toNat_ofNat] at htoNat
  have h0 : n / 2^24 % 2^8 = n' / 2^24 % 2^8 := hbyte 0 (by omega)
  have h1 : n / 2^16 % 2^8 = n' / 2^16 % 2^8 := hbyte 1 (by omega)
  have h2 : n / 2^8 % 2^8 = n' / 2^8 % 2^8 := hbyte 2 (by omega)
  have h3 : n / 2^0 % 2^8 = n' / 2^0 % 2^8 := hbyte 3 (by omega)
  omega

def tailOf {α : Type} (v : Fin 12 → α) (j : ℕ) : α := v (Fin.ofNat 12 j)

/-- `BE32(n) ‖ tail`. -/
def ctrBlock (n : ℕ) (tail : ℕ → Byte) : Block :=
  fun j => if j.val < 4 then beByte n j else tail (j.val - 4)

/-- `nonce ‖ BE32(n)`. -/
def nonceCtrBlock (nonce : Nonce) (n : ℕ) : Block :=
  fun j => if j.val < 12 then tailOf nonce j else beByte n (j.val - 12)

/-- Chunk `i` of `l ‖ 0x80 ‖ 0 … 0`. -/
def chunk (l : List Byte) (i j : ℕ) : Byte := (l ++ [0x80]).getD (12 * i + j) 0

def chunkCount (len : ℕ) : ℕ := len / 12 + 1

theorem ctrBlock_eq_iff (n n' : ℕ) (tail tail' : ℕ → Byte) (hn : n < 2^32) (hn' : n' < 2^32) :
    ctrBlock n tail = ctrBlock n' tail' ↔ n = n' ∧ ∀ j < 12, tail j = tail' j := by
  constructor
  · intro h
    refine ⟨beByte_inj n n' hn hn' fun j hj => ?_, fun j hj => ?_⟩
    · have hbyte := congrFun h ⟨j, by omega⟩
      simpa only [ctrBlock, if_pos hj] using hbyte
    · have hbyte := congrFun h ⟨4 + j, by omega⟩
      have hhigh : ¬ 4 + j < 4 := by omega
      simpa only [ctrBlock, if_neg hhigh, Nat.add_sub_cancel_left] using hbyte
  · rintro ⟨rfl, htail⟩
    funext j
    have hj := j.isLt
    rw [ctrBlock, ctrBlock, htail (j.val - 4) (by omega)]

/- The chunks of a string determine it. -/
theorem chunk_inj (l l' : List Byte) (hcount : chunkCount l.length = chunkCount l'.length)
    (h : ∀ i < chunkCount l.length, ∀ j < 12, chunk l i j = chunk l' i j) : l = l' := by
  have hmark : (0x80 : Byte) ≠ 0 := by decide
  have hout : ∀ (l : List Byte) (k : ℕ), 12 * chunkCount l.length ≤ k →
      (l ++ [0x80]).getD k 0 = 0 := by
    intro l k hk
    refine List.getD_eq_default _ _ ?_
    rw [chunkCount] at hk
    rw [List.length_append, List.length_singleton]
    omega
  refine Pad.marked_inj 0x80 0 hmark l l' fun k => ?_
  rcases Nat.lt_or_ge k (12 * chunkCount l.length) with hlt | hge
  · have hpos : 12 * (k / 12) + k % 12 = k := Nat.div_add_mod k 12
    have hchunk := h (k / 12) (by omega) (k % 12) (Nat.mod_lt k (by omega))
    rwa [chunk, chunk, hpos] at hchunk
  · rw [hout l k hge, hout l' k (hcount ▸ hge)]

/-- The XOR of the blocks `f 0, …, f (n - 1)`. -/
def xorSum (n : ℕ) (f : ℕ → Block) : Block :=
  forRange n (fun i acc => xorBlocks (f i) acc) zeroBlock

theorem xorSum_head (n : ℕ) (f : ℕ → Block) :
    xorSum (n + 1) f = xorBlocks (f 0) (xorSum n fun i => f (1 + i)) := by
  induction n with
  | zero => rfl
  | succ n ih =>
    have hlast : f (n + 1) = f (1 + n) := by rw [Nat.add_comm]
    calc xorSum (n + 1 + 1) f = xorBlocks (f (n + 1)) (xorSum (n + 1) f) := rfl
      _ = xorBlocks (f 0) (xorBlocks (f (1 + n)) (xorSum n fun i => f (1 + i))) := by
        rw [ih, xorBlocks_left_comm, hlast]

section Cipher

variable (E : Block → Block)

/-- `E(BE32(2^31) ‖ P₀) ⊕ E(BE32(2^31 + 1) ‖ P₁) ⊕ …` over the chunks of `l`. -/
def chunkSum (l : List Byte) : Block :=
  xorSum (chunkCount l.length) fun i => E (ctrBlock (2^31 + i) (chunk l i))

def pobcStream (nonce : Nonce) (p : ℕ) : Byte :=
  byteAt (E (ctrBlock (1 + p / 16) (tailOf nonce))) (p % 16)

def pobcTag (nonce : Nonce) (c : List Byte) : Block :=
  xorBlocks (E (ctrBlock 0 (tailOf nonce))) (chunkSum E c)

def sivStream (nonce : Nonce) (p : ℕ) : Byte := byteAt (E (nonceCtrBlock nonce (p / 16))) (p % 16)

def clearLow (y : Block) : Block := fun j => if j.val = 15 then y j &&& 0xFC else y j

def sivTag (m : List Byte) : Block := E (clearLow (chunkSum E m))

/- The bytes one block gives to a keystream. -/
theorem pobcStream_block (nonce : Nonce) (t j : ℕ) (hj : j < 16) :
    pobcStream E nonce (16 * t + j) = byteAt (E (ctrBlock (1 + t) (tailOf nonce))) j := by
  have hdiv : (16 * t + j) / 16 = t := by omega
  have hmod : (16 * t + j) % 16 = j := by omega
  rw [pobcStream, hdiv, hmod]

theorem sivStream_block (nonce : Nonce) (t j : ℕ) (hj : j < 16) :
    sivStream E nonce (16 * t + j) = byteAt (E (nonceCtrBlock nonce t)) j := by
  have hdiv : (16 * t + j) / 16 = t := by omega
  have hmod : (16 * t + j) % 16 = j := by omega
  rw [sivStream, hdiv, hmod]

end Cipher

end Pobc.Mode
