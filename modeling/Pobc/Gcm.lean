import Pobc.Mode
import Pobc.Lib.Reflected
import Pobc.Aes.Layers

/-!
# AES-GCM and the GHASH variant of AES-GCM-SIV

The two modes over any block cipher: GCM as in NIST SP 800-38D for nonces of
twelve bytes, and the construction of GCM-SIV with GHASH in place of POLYVAL.
A block is the bit string of its bytes, highest bit first; GHASH multiplies bit
strings by the bit-serial product, and `fieldOf` reads them as elements of
`GF(2)[y] / (y^128 + y^7 + y^2 + y + 1)`.
-/

namespace Pobc.Gcm
open Pobc.Loop Pobc.Reflected Pobc.Mode
open Pobc.Aes (blockOf)

abbrev GcmField := Gf 128 0x87#128

/-! ### Bit strings -/

/-- The bits of a block, byte 0 on top. -/
def bitString (y : Block) : BitVec 128 :=
  forRange 16 (fun j (bits : BitVec 128) => bits <<< 8 ||| (byteAt y j).setWidth 128) 0#128

theorem getLsbD_bitString (y : Block) (i : ℕ) (hi : i < 128) :
    (bitString y).getLsbD i = (byteAt y (15 - i / 8)).getLsbD (i % 8) := by
  -- after `n` bytes the low `8n` bits hold them, the last one lowest
  let body : ℕ → BitVec 128 → BitVec 128 :=
    fun j bits => bits <<< 8 ||| (byteAt y j).setWidth 128
  have hrun : ∀ n ≤ 16, ∀ i < 128, (forRange n body 0#128).getLsbD i =
      (decide (i < 8 * n) && (byteAt y (n - 1 - i / 8)).getLsbD (i % 8)) := by
    intro n
    induction n with
    | zero => intro _ i _; simp
    | succ n ih =>
      intro hn i hi
      rw [forRange_succ, BitVec.getLsbD_or, BitVec.getLsbD_shiftLeft, BitVec.getLsbD_setWidth]
      by_cases hlow : i < 8
      · have hdiv : n + 1 - 1 - i / 8 = n := by omega
        have hmod : i % 8 = i := by omega
        have hin : i < 8 * (n + 1) := by omega
        rw [hdiv, hmod]
        simp [hlow, hin, hi]
      · have hdiv : n - 1 - (i - 8) / 8 = n + 1 - 1 - i / 8 := by omega
        have hmod : (i - 8) % 8 = i % 8 := by omega
        have hin : decide (i - 8 < 8 * n) = decide (i < 8 * (n + 1)) := by
          rw [decide_eq_decide]
          omega
        have hzero : (byteAt y n).getLsbD i = false := BitVec.getLsbD_of_ge _ _ (by omega)
        rw [ih (by omega) (i - 8) (by omega), hdiv, hmod, hin, hzero]
        simp [hlow, hi]
  have hin : i < 8 * 16 := hi
  have hall := hrun 16 (le_refl 16) i hi
  rwa [decide_eq_true hin, Bool.true_and] at hall

theorem bitString_blockOf (x : BitVec 128) : bitString (blockOf x) = x := by
  apply BitVec.eq_of_getLsbD_eq
  intro i hi
  have hmod : (15 - i / 8) % 16 = 15 - i / 8 := by omega
  have hpos : 8 * (15 - (15 - i / 8)) + i % 8 = i := by omega
  have hlt : i % 8 < 8 := by omega
  rw [getLsbD_bitString _ _ hi, byteAt, blockOf, Fin.val_ofNat, hmod, BitVec.getLsbD_extractLsb',
    hpos, decide_eq_true hlt, Bool.true_and]

theorem blockOf_bitString (y : Block) : blockOf (bitString y) = y := by
  funext j
  have hj := j.isLt
  apply BitVec.eq_of_getLsbD_eq
  intro k hk
  have hdiv : 15 - (8 * (15 - j.val) + k) / 8 = j.val := by omega
  have hmod : (8 * (15 - j.val) + k) % 8 = k := by omega
  rw [blockOf, BitVec.getLsbD_extractLsb', decide_eq_true hk, Bool.true_and,
    getLsbD_bitString _ _ (by omega), hdiv, hmod, byteAt_val]

theorem bitString_xorBlocks (y z : Block) :
    bitString (xorBlocks y z) = bitString y ^^^ bitString z := by
  apply BitVec.eq_of_getLsbD_eq
  intro i hi
  rw [BitVec.getLsbD_xor, getLsbD_bitString _ _ hi, getLsbD_bitString _ _ hi,
    getLsbD_bitString _ _ hi, ← BitVec.getLsbD_xor]
  rfl

theorem getMsbD_bitString (y : Block) (i : ℕ) (hi : i < 128) :
    (bitString y).getMsbD i = (byteAt y (i / 8)).getLsbD (7 - i % 8) := by
  have hdiv : 15 - (128 - 1 - i) / 8 = i / 8 := by omega
  have hmod : (128 - 1 - i) % 8 = 7 - i % 8 := by omega
  rw [BitVec.getMsbD_eq_getLsbD, decide_eq_true hi, Bool.true_and,
    getLsbD_bitString _ _ (by omega), hdiv, hmod]

/-! ### GHASH -/

/-- `R`, the string `11100001 ‖ 0^120`. -/
def gcmR : BitVec 128 := 0xe1#128 <<< 120

def gfMul (x y : Block) : Block := blockOf (serialMul gcmR (bitString x) (bitString y))

def ghash (h : Block) (xs : List Block) : Block :=
  xs.foldl (fun y x => gfMul (xorBlocks y x) h) zeroBlock

def fieldOf (y : Block) : GcmField := toGf 0x87#128 (bitString y)

theorem gcmR_eq : gcmR = (0x87#128).reverse := by decide +kernel

/- Coefficient `i` is a bit of byte `i / 8`, counted from the top. -/
theorem getLsbD_fieldOf (y : Block) (i : ℕ) (hi : i < 128) :
    (fieldOf y).bits.getLsbD i = (byteAt y (i / 8)).getLsbD (7 - i % 8) := by
  rw [fieldOf, toGf, BitVec.getLsbD_reverse, getMsbD_bitString y i hi]

theorem fieldOf_injective : Function.Injective fieldOf := by
  intro y z h
  rw [← blockOf_bitString y, toGf_injective _ h, blockOf_bitString]

theorem fieldOf_xorBlocks (y z : Block) : fieldOf (xorBlocks y z) = fieldOf y + fieldOf z := by
  rw [fieldOf, bitString_xorBlocks, toGf_xor]
  rfl

theorem fieldOf_zeroBlock : fieldOf zeroBlock = 0 := by
  have hbits : bitString zeroBlock = 0#128 := by decide +kernel
  rw [fieldOf, hbits, toGf_zero]

theorem fieldOf_gfMul (x y : Block) : fieldOf (gfMul x y) = fieldOf x * fieldOf y := by
  rw [fieldOf, gfMul, bitString_blockOf, gcmR_eq, toGf_serialMul]
  rfl

/- GHASH is Horner's rule. -/
theorem fieldOf_ghash (h : Block) (xs : List Block) :
    fieldOf (ghash h xs) = xs.foldl (fun y x => (y + fieldOf x) * fieldOf h) 0 := by
  have hrun : ∀ y, fieldOf (xs.foldl (fun y x => gfMul (xorBlocks y x) h) y) =
      xs.foldl (fun y x => (y + fieldOf x) * fieldOf h) (fieldOf y) := by
    induction xs with
    | nil => intro y; rfl
    | cons x xs ih =>
      intro y
      rw [List.foldl_cons, List.foldl_cons, ih, fieldOf_gfMul, fieldOf_xorBlocks]
  rw [ghash, hrun, fieldOf_zeroBlock]

theorem fieldOf_ghash_append (h x : Block) (xs : List Block) :
    fieldOf (ghash h (xs ++ [x])) = (fieldOf (ghash h xs) + fieldOf x) * fieldOf h := by
  rw [fieldOf_ghash, fieldOf_ghash, List.foldl_append, List.foldl_cons, List.foldl_nil]

/-! ### Counter mode -/

/-- `int(LSB_32(y))`. -/
def beWord (y : Block) : ℕ :=
  (byteAt y 12).toNat * 2^24 + (byteAt y 13).toNat * 2^16 + (byteAt y 14).toNat * 2^8 +
    (byteAt y 15).toNat

/-- `inc_32`: the last four bytes count, modulo `2^32`. -/
def inc32 (y : Block) : Block :=
  fun j => if j.val < 12 then y j else beByte ((beWord y + 1) % 2^32) (j.val - 12)

/- The word of a block that ends in `BE32(n)`. -/
theorem beWord_eq (y : Block) (n : ℕ) (h : ∀ j < 4, byteAt y (12 + j) = beByte n j) :
    beWord y = n % 2^32 := by
  have hbyte : ∀ j < 4, (byteAt y (12 + j)).toNat = n / 2^(8 * (3 - j)) % 2^8 := by
    intro j hj
    rw [h j hj, beByte, BitVec.toNat_ofNat]
  have h0 : (byteAt y 12).toNat = n / 2^24 % 2^8 := hbyte 0 (by omega)
  have h1 : (byteAt y 13).toNat = n / 2^16 % 2^8 := hbyte 1 (by omega)
  have h2 : (byteAt y 14).toNat = n / 2^8 % 2^8 := hbyte 2 (by omega)
  have h3 : (byteAt y 15).toNat = n / 2^0 % 2^8 := hbyte 3 (by omega)
  rw [beWord, h0, h1, h2, h3]
  omega

theorem byteAt_inc32 (y : Block) (j : ℕ) (hj : j < 4) :
    byteAt (inc32 y) (12 + j) = beByte ((beWord y + 1) % 2^32) j := by
  have hmod : (12 + j) % 16 = 12 + j := by omega
  have hhigh : ¬ 12 + j < 12 := by omega
  rw [byteAt, inc32, Fin.val_ofNat, hmod, if_neg hhigh, Nat.add_sub_cancel_left]

theorem beWord_inc32 (y : Block) : beWord (inc32 y) = (beWord y + 1) % 2^32 := by
  rw [beWord_eq (inc32 y) _ (byteAt_inc32 y), Nat.mod_mod]

theorem inc32_nonceCtrBlock (nonce : Nonce) (n : ℕ) :
    inc32 (nonceCtrBlock nonce n) = nonceCtrBlock nonce (n + 1) := by
  have hword : beWord (nonceCtrBlock nonce n) = n % 2^32 := by
    apply beWord_eq
    intro j hj
    have hmod : (12 + j) % 16 = 12 + j := by omega
    have hhigh : ¬ 12 + j < 12 := by omega
    rw [byteAt, nonceCtrBlock, Fin.val_ofNat, hmod, if_neg hhigh, Nat.add_sub_cancel_left]
  funext j
  rw [inc32, hword, Nat.mod_add_mod, beByte_mod]
  by_cases hj : j.val < 12
  · rw [if_pos hj, nonceCtrBlock, nonceCtrBlock, if_pos hj, if_pos hj]
  · rw [if_neg hj, nonceCtrBlock, if_neg hj]

/- The counter blocks of GCM count behind the nonce. -/
theorem iterate_inc32 (nonce : Nonce) (n t : ℕ) :
    inc32^[t] (nonceCtrBlock nonce n) = nonceCtrBlock nonce (n + t) := by
  induction t with
  | zero => rfl
  | succ t ih => rw [Function.iterate_succ_apply', ih, inc32_nonceCtrBlock, Nat.add_assoc]

/-- Byte `p` of `E(ICB) ‖ E(inc_32(ICB)) ‖ …`. -/
def gctrStream (E : Block → Block) (icb : Block) (p : ℕ) : Byte :=
  byteAt (E (inc32^[p / 16] icb)) (p % 16)

def gctr (E : Block → Block) (icb : Block) (x : List Byte) : List Byte :=
  xorStream (gctrStream E icb) x

/-! ### AES-GCM -/

/-- The blocks of `l ‖ 0 … 0`. -/
def padBlocks (l : List Byte) : List Block :=
  (List.range ((l.length + 15) / 16)).map fun i j => bufferOf l (i * 16 + j)

/-- `[8a]_64 ‖ [8c]_64`. -/
def lengthBlock (a c : ℕ) : Block := fun j =>
  if j.val < 8 then BitVec.ofNat 8 (8 * a / 2^(8 * (7 - j.val)))
  else BitVec.ofNat 8 (8 * c / 2^(8 * (15 - j.val)))

def gcmTag (E : Block → Block) (nonce : Nonce) (c ad : List Byte) : Block :=
  let s := ghash (E zeroBlock) (padBlocks ad ++ padBlocks c ++ [lengthBlock ad.length c.length])
  xorBlocks s (E (nonceCtrBlock nonce 1))

/-- `GCM-AE` with the pre-counter block `nonce ‖ 0^31 ‖ 1`: ciphertext and tag. -/
def gcmEncrypt (E : Block → Block) (nonce : Nonce) (m ad : List Byte) : List Byte × Block :=
  let c := gctr E (inc32 (nonceCtrBlock nonce 1)) m
  (c, gcmTag E nonce c ad)

/-! ### AES-GCM-SIV with GHASH -/

/-- `LE32(n) ‖ nonce`. -/
def sivKeyBlock (nonce : Nonce) (n : ℕ) : Block :=
  fun j => if j.val < 4 then BitVec.ofNat 8 (n / 2^(8 * j.val)) else tailOf nonce (j.val - 4)

def halves {α : Type} (y z : Fin 16 → α) : Fin 16 → α :=
  fun j => if j.val < 8 then y j else byteAt z (j.val - 8)

def sivAuthKey (E : Block → Block) (nonce : Nonce) : Block :=
  halves (E (sivKeyBlock nonce 0)) (E (sivKeyBlock nonce 1))

def sivEncKey (E : Block → Block) (nonce : Nonce) : Block :=
  halves (E (sivKeyBlock nonce 2)) (E (sivKeyBlock nonce 3))

/-- `LE64(8a) ‖ LE64(8c)`. -/
def sivLengthBlock (a c : ℕ) : Block := fun j =>
  if j.val < 8 then BitVec.ofNat 8 (8 * a / 2^(8 * j.val))
  else BitVec.ofNat 8 (8 * c / 2^(8 * (j.val - 8)))

/-- The hash with the nonce added and its top bit cleared. -/
def sivTagInput (s : Block) (nonce : Nonce) : Block := fun j =>
  if j.val < 12 then s j ^^^ tailOf nonce j.val else if j.val = 15 then s j &&& 0x7f else s j

/-- The first four bytes, the lowest one first. -/
def leWord (y : Block) : ℕ :=
  (byteAt y 3).toNat * 2^24 + (byteAt y 2).toNat * 2^16 + (byteAt y 1).toNat * 2^8 +
    (byteAt y 0).toNat

theorem leWord_eq (y : Block) (n : ℕ) (hn : n < 2^32)
    (h : ∀ j < 4, (byteAt y j).toNat = n / 2^(8 * j) % 2^8) : leWord y = n := by
  rw [leWord, h 0 (by omega), h 1 (by omega), h 2 (by omega), h 3 (by omega)]
  omega

/-- The counter block of a tag: its first four bytes count little-endian. -/
def sivCtrBlock (tag : Block) (n : ℕ) : Block := fun j =>
  if j.val < 4 then BitVec.ofNat 8 ((leWord tag + n) % 2^32 / 2^(8 * j.val))
  else if j.val = 15 then tag j ||| 0x80 else tag j

def sivCtrStream (E : Block → Block) (tag : Block) (p : ℕ) : Byte :=
  byteAt (E (sivCtrBlock tag (p / 16))) (p % 16)

variable (cipher : Block → Block → Block) (key : Block) (nonce : Nonce)

def gcmSivTag (m ad : List Byte) : Block :=
  let s := ghash (sivAuthKey (cipher key) nonce)
    (padBlocks ad ++ padBlocks m ++ [sivLengthBlock ad.length m.length])
  cipher (sivEncKey (cipher key) nonce) (sivTagInput s nonce)

def gcmSivEncrypt (m ad : List Byte) : List Byte × Block :=
  let tag := gcmSivTag cipher key nonce m ad
  (xorStream (sivCtrStream (cipher (sivEncKey (cipher key) nonce)) tag) m, tag)

end Pobc.Gcm
