import Pobc.Iot.PolyvalProduct
import Pobc.Iot.Ghash
import Pobc.Lib.GfPoly

/-!
# POLYVAL of RFC 8452, and GHASH

`polyval` is the hash of the RFC: blocks are read with the lowest coefficient in the
lowest bit of byte 0, and a product carries the factor `x^-128`. The code computes it
for every sequence of blocks. Against `ghash.c` it is the same hash with the bytes of
key, blocks and result reversed and the key multiplied by `x`.
-/

namespace Pobc.Polyval
open Pobc.Loop Pobc.Clmul Pobc.Gcm Pobc.Reflected Polynomial
open Pobc.Aes (blockOf)

/-! ### The hash of the RFC -/

/-- `GF(2)[x] / (x^128 + x^127 + x^126 + x^121 + 1)`. -/
abbrev PolyvalField := Gf 128 0xc2000000000000000000000000000001#128

/-- `x^-128`, that is `x^127 + x^124 + x^121 + x^114 + 1`. -/
def xInv128 : PolyvalField := ⟨0x92040000000000000000000000000001#128⟩

def dot (a b : PolyvalField) : PolyvalField := a * b * xInv128

def byteReverse (y : Block) : Block := fun j => byteAt y (15 - j.val)

def elementOf (y : Block) : PolyvalField := ⟨bitString (byteReverse y)⟩

def ofElement (a : PolyvalField) : Block := byteReverse (blockOf a.bits)

def polyval (h : Block) (xs : List Block) : Block :=
  ofElement (xs.foldl (fun s x => dot (s + elementOf x) (elementOf h)) 0)

theorem byteReverse_byteReverse (y : Block) : byteReverse (byteReverse y) = y := by
  refine block_ext _ _ fun i hi => ?_
  have hin : (15 - i) % 16 = 15 - i := by omega
  have hback : 15 - (15 - i) = i := by omega
  rw [byteAt, byteReverse, Fin.val_ofNat, Nat.mod_eq_of_lt hi, byteAt, byteReverse, Fin.val_ofNat,
    hin, hback]

theorem ofElement_elementOf (y : Block) : ofElement (elementOf y) = y := by
  rw [ofElement, elementOf, blockOf_bitString, byteReverse_byteReverse]

theorem elementOf_ofElement (a : PolyvalField) : elementOf (ofElement a) = a := by
  rw [elementOf, ofElement, byteReverse_byteReverse, bitString_blockOf]

/-! ### Words and elements -/

/-- The first word lowest. -/
def wordsBits (w : Words) : BitVec 128 := w 3 ++ w 2 ++ w 1 ++ w 0

def elementOfWords (w : Words) : PolyvalField := ⟨wordsBits w⟩

theorem bits_elementOfWords (w : Words) : (elementOfWords w).bits = wordsBits w := rfl

theorem getLsbD_wordsBits (w : Words) (i : ℕ) (hi : i < 128) :
    (wordsBits w).getLsbD i = (w (i / 32)).getLsbD (i % 32) := by
  have hcases : i / 32 = 0 ∨ i / 32 = 1 ∨ i / 32 = 2 ∨ i / 32 = 3 := by omega
  simp only [wordsBits, BitVec.getLsbD_append]
  rcases hcases with h | h | h | h
  · have hpos : i % 32 = i := by omega
    rw [h, hpos, if_pos (by omega)]
  · have hpos : i % 32 = i - 32 := by omega
    rw [h, hpos, if_neg (by omega), if_pos (by omega)]
  · have hpos : i % 32 = i - 32 - 32 := by omega
    rw [h, hpos, if_neg (by omega), if_neg (by omega), if_pos (by omega)]
  · have hpos : i % 32 = i - 32 - 32 - 32 := by omega
    rw [h, hpos, if_neg (by omega), if_neg (by omega), if_neg (by omega)]

theorem poly_wordsBits (w : Words) : poly (wordsBits w) = value 4 w := by
  have happend : poly (wordsBits w) = poly (w 0) + X ^ 32 * (poly (w 1) + X ^ 32 *
      (poly (w 2) + X ^ 32 * poly (w 3))) := by
    rw [wordsBits, poly_append, poly_append, poly_append]
  rw [happend]
  simp only [value, Finset.sum_range_succ, Finset.sum_range_zero, pow_mul]
  ring

theorem reduce_value (w : Words) : Gf.reduce (value 4 w) = elementOfWords w := by
  rw [← poly_wordsBits, Gf.reduce_poly]
  rfl

theorem modulus_eq : modulus = X ^ 128 + poly 0xc2000000000000000000000000000001#128 := by
  have hbits : 0xc2000000000000000000000000000001#128 = BitVec.twoPow 128 127 ^^^
      BitVec.twoPow 128 126 ^^^ BitVec.twoPow 128 121 ^^^ BitVec.twoPow 128 0 := by
    decide +kernel
  rw [hbits, poly_xor, poly_xor, poly_xor, poly_twoPow 127 (by decide), poly_twoPow 126 (by decide),
    poly_twoPow 121 (by decide), poly_twoPow 0 (by decide), pow_zero]
  delta modulus
  ring

theorem power_xInv128 : Gf.power 128 _ 1 ^ 128 * xInv128 = 1 := by
  rw [Gf.power_one_pow_width (by decide)]
  decide +kernel

/- The code's product is that of the RFC. -/
theorem elementOfWords_mul (x y : Words) :
    elementOfWords (mul x y) = dot (elementOfWords x) (elementOfWords y) := by
  obtain ⟨q, hq⟩ := value_mul x y
  have hfield := congrArg (Gf.reduce (p := 0xc2000000000000000000000000000001#128)) hq
  have hzero := Gf.reduce_modulus (p := 0xc2000000000000000000000000000001#128) (by decide)
  rw [← modulus_eq] at hzero
  rw [map_add, map_mul, map_mul, map_mul, reduce_value, reduce_value, reduce_value, hzero, mul_zero,
    add_zero, map_pow, Gf.reduce_X] at hfield
  calc elementOfWords (mul x y)
      = Gf.power 128 _ 1 ^ 128 * xInv128 * elementOfWords (mul x y) := by
        rw [power_xInv128, one_mul]
    _ = Gf.power 128 _ 1 ^ 128 * elementOfWords (mul x y) * xInv128 := mul_right_comm _ _ _
    _ = dot (elementOfWords x) (elementOfWords y) := by rw [hfield, dot]

/-! ### Blocks -/

theorem getLsbD_elementOf (y : Block) (i : ℕ) (hi : i < 128) :
    (elementOf y).bits.getLsbD i = (byteAt y (i / 8)).getLsbD (i % 8) := by
  have hin : (15 - i / 8) % 16 = 15 - i / 8 := by omega
  have hback : 15 - (15 - i / 8) = i / 8 := by omega
  rw [elementOf, getLsbD_bitString _ i hi, byteAt, byteReverse, Fin.val_ofNat, hin, hback]

theorem getLsbD_getUint32Le (data : Block) (offset p : ℕ) (hp : p < 32) :
    (getUint32Le data offset).getLsbD p = (byteAt data (offset + p / 8)).getLsbD (p % 8) := by
  have hcases : p / 8 = 0 ∨ p / 8 = 1 ∨ p / 8 = 2 ∨ p / 8 = 3 := by omega
  have hhigh : ∀ (b : Byte) (k : ℕ), 8 ≤ k → b.getLsbD k = false := fun b k hk =>
    BitVec.getLsbD_of_ge b k hk
  simp only [getUint32Le, BitVec.getLsbD_or, BitVec.getLsbD_shiftLeft, BitVec.getLsbD_setWidth]
  rcases hcases with h | h | h | h
  · grind
  · grind
  · grind
  · grind

theorem elementOfWords_loadWords (y : Block) : elementOfWords (loadWords y) = elementOf y := by
  apply Gf.ext
  apply BitVec.eq_of_getLsbD_eq
  intro i hi
  have hcases : i / 32 = 0 ∨ i / 32 = 1 ∨ i / 32 = 2 ∨ i / 32 = 3 := by omega
  have hword : loadWords y (i / 32) = getUint32Le y (4 * (i / 32)) := by
    rcases hcases with h | h | h | h <;> rw [h] <;> rfl
  have hdiv : 4 * (i / 32) + i % 32 / 8 = i / 8 := by omega
  have hmod : i % 32 % 8 = i % 8 := by omega
  rw [bits_elementOfWords, getLsbD_wordsBits _ i hi, hword,
    getLsbD_getUint32Le _ _ _ (Nat.mod_lt _ (by decide)), hdiv, hmod, getLsbD_elementOf y i hi]

theorem elementOfWords_xor (x y : Words) :
    elementOfWords (fun i => if i < 4 then x i ^^^ y i else x i) =
      elementOfWords x + elementOfWords y := by
  apply Gf.ext
  apply BitVec.eq_of_getLsbD_eq
  intro i hi
  have hlt : i / 32 < 4 := by omega
  rw [Gf.bits_add, BitVec.getLsbD_xor, bits_elementOfWords, bits_elementOfWords, bits_elementOfWords,
    getLsbD_wordsBits _ i hi, getLsbD_wordsBits _ i hi, getLsbD_wordsBits _ i hi, if_pos hlt,
    BitVec.getLsbD_xor]

/- The four words of the accumulator, byte by byte. -/
theorem polyvalFinalize_eq (ctx : PolyvalContext) (output : Block) :
    polyvalFinalize ctx output = ofElement (elementOfWords ctx.s) := by
  have hmask : ∀ (n : Word) (k : ℕ), ((n >>> k) &&& 0xff#32).setWidth 8 = (n >>> k).setWidth 8 := by
    intro n k
    apply BitVec.eq_of_getLsbD_eq
    intro i hi
    have hones : ∀ i < 8, (0xff#32).getLsbD i = true := by decide
    rw [BitVec.getLsbD_setWidth, BitVec.getLsbD_setWidth, BitVec.getLsbD_and, hones i hi,
      Bool.and_true]
  have hbyte : ∀ j < 16, byteAt (ofElement (elementOfWords ctx.s)) j =
      (ctx.s (j / 4) >>> (8 * (j % 4))).setWidth 8 := by
    intro j hj
    apply BitVec.eq_of_getLsbD_eq
    intro i hi
    have helem := getLsbD_elementOf (ofElement (elementOfWords ctx.s)) (8 * j + i) (by omega)
    have hdiv : (8 * j + i) / 8 = j := by omega
    have hmod : (8 * j + i) % 8 = i := by omega
    have hword : (8 * j + i) / 32 = j / 4 := by omega
    have hpos : (8 * j + i) % 32 = 8 * (j % 4) + i := by omega
    rw [hdiv, hmod, elementOf_ofElement, bits_elementOfWords, getLsbD_wordsBits _ _ (by omega),
      hword, hpos] at helem
    rw [← helem, BitVec.getLsbD_setWidth, BitVec.getLsbD_ushiftRight, decide_eq_true hi,
      Bool.true_and]
  refine block_ext _ _ fun j hj => ?_
  have hzero : ∀ n : Word, n >>> 0 = n := fun n => BitVec.ushiftRight_zero n
  rw [hbyte j hj]
  have h0 := fun n => hmask n 0
  simp only [hzero] at h0
  interval_cases j <;>
    simp [polyvalFinalize, putUint32Le, byteAt, setByte, hmask, h0]

/-! ### A whole message -/

/-- The state after some blocks. -/
structure Absorbed (ctx : PolyvalContext) (h : Block) (s : PolyvalField) : Prop where
  key : elementOfWords ctx.h = elementOf h
  acc : elementOfWords ctx.s = s

theorem elementOfWords_zero : elementOfWords (fun _ => 0) = 0 := by
  have hbits : wordsBits (fun _ => 0) = 0#128 := by decide
  exact Gf.ext hbits

theorem polyvalInit_absorbed (key : Block) : Absorbed (polyvalInit key) key 0 where
  key := elementOfWords_loadWords key
  acc := elementOfWords_zero

theorem polyvalProcessBlock_absorbed (ctx : PolyvalContext) (h block : Block) (s : PolyvalField)
    (hctx : Absorbed ctx h s) :
    Absorbed (polyvalProcessBlock ctx block) h (dot (s + elementOf block) (elementOf h)) where
  key := hctx.key
  acc := by
    have hxor : forRange 4 (fun i s => Function.update s i (s i ^^^ loadWords block i)) ctx.s =
        fun i => if i < 4 then ctx.s i ^^^ loadWords block i else ctx.s i :=
      funext (forRange_update 4 (fun i v => v ^^^ loadWords block i) ctx.s)
    rw [polyvalProcessBlock, hxor, elementOfWords_mul, elementOfWords_xor, hctx.acc, hctx.key,
      elementOfWords_loadWords]

theorem foldl_absorbed (h : Block) (xs : List Block) (ctx : PolyvalContext) (s : PolyvalField)
    (hctx : Absorbed ctx h s) : Absorbed (xs.foldl polyvalProcessBlock ctx) h
      (xs.foldl (fun s x => dot (s + elementOf x) (elementOf h)) s) := by
  induction xs generalizing ctx s with
  | nil => exact hctx
  | cons x xs ih => exact ih _ _ (polyvalProcessBlock_absorbed ctx h x s hctx)

theorem finalize_foldl (h : Block) (xs : List Block) (output : Block) :
    polyvalFinalize (xs.foldl polyvalProcessBlock (polyvalInit h)) output = polyval h xs := by
  rw [polyvalFinalize_eq, (foldl_absorbed h xs _ _ (polyvalInit_absorbed h)).acc]
  rfl

/-- The code hashes any sequence of blocks as the RFC says; the output buffer is
overwritten. -/
theorem polyval_rfc8452 (h : Block) (xs : List Block) (output : Block) :
    polyvalFinalize (xs.foldl polyvalProcessBlock (polyvalInit h)) output = polyval h xs :=
  finalize_foldl h xs output

/-! ### GHASH -/

/-- `mulX_GHASH`: a step of the shift register of GHASH. -/
def mulXGhash (h : Block) : Block := blockOf (shiftReduce gcmR (bitString h))

theorem fieldOf_mulXGhash (h : Block) : fieldOf (mulXGhash h) = Gf.mulY (fieldOf h) := by
  rw [fieldOf, mulXGhash, bitString_blockOf, gcmR_eq, toGf_shiftReduce]
  rfl

/-- An element of GHASH with its coefficients in the opposite order. -/
def mirror : GcmField →+ PolyvalField where
  toFun a := ⟨a.bits.reverse⟩
  map_zero' := Gf.ext (BitVec.reverse_eq_zero_iff.mpr rfl)
  map_add' a b := Gf.ext (reverse_xor a.bits b.bits)

theorem elementOf_byteReverse (y : Block) : elementOf (byteReverse y) = mirror (fieldOf y) := by
  apply Gf.ext
  show bitString (byteReverse (byteReverse y)) = (bitString y).reverse.reverse
  rw [byteReverse_byteReverse, BitVec.reverse_reverse_eq]

/-- `x^-1`. -/
def xInv : PolyvalField := Gf.power 128 _ 127 * xInv128

/- A shift to the left undoes the step of the shift register of GHASH. -/
theorem mulY_shiftReduce (v : BitVec 128) :
    Gf.mulY (⟨shiftReduce gcmR v⟩ : PolyvalField) = ⟨v⟩ := by
  have hback : (v >>> 1) <<< 1 = v ^^^ (if v.getLsbD 0 then 1#128 else 0#128) := by
    apply BitVec.eq_of_getLsbD_eq
    intro i hi
    rw [BitVec.getLsbD_shiftLeft, BitVec.getLsbD_ushiftRight, BitVec.getLsbD_xor]
    rcases eq_or_ne i 0 with rfl | hne
    · cases hv : v.getLsbD 0 <;> simp
    · have hpos : 1 + (i - 1) = i := by omega
      have hone : (if v.getLsbD 0 then 1#128 else 0#128).getLsbD i = false := by
        split <;> simp [hne]
      rw [hpos, hone]
      simp [hi, hne]
  have hmsb : (shiftReduce gcmR v).msb = v.getLsbD 0 := by
    have htop : (v >>> 1).msb = false := by simp [BitVec.msb_ushiftRight]
    have hR : gcmR.msb = true := by decide
    rw [shiftReduce, BitVec.msb_xor, htop, Bool.false_xor]
    cases v.getLsbD 0
    · exact BitVec.msb_zero
    · exact hR
  apply Gf.ext
  show (shiftReduce gcmR v <<< 1) ^^^ (if (shiftReduce gcmR v).msb then _ else 0#128) = v
  rw [hmsb, shiftReduce, BitVec.shiftLeft_xor_distrib, hback]
  cases v.getLsbD 0
  · exact (BitVec.xor_zero).trans ((BitVec.xor_zero).trans BitVec.xor_zero)
  · have hcancel : 1#128 ^^^ (gcmR <<< 1 ^^^ 0xc2000000000000000000000000000001#128) = 0#128 := by
      decide
    show v ^^^ 1#128 ^^^ gcmR <<< 1 ^^^ 0xc2000000000000000000000000000001#128 = v
    rw [BitVec.xor_assoc, BitVec.xor_assoc, hcancel, BitVec.xor_zero]

/- Multiplication by `y` on one side divides by `x` on the other. -/
theorem mirror_mulY (a : GcmField) : mirror (Gf.mulY a) = xInv * mirror a := by
  have hstep : mirror (Gf.mulY a) = ⟨shiftReduce gcmR a.bits.reverse⟩ := by
    have hreverse : toGf 0x87#128 a.bits.reverse = a := Gf.ext BitVec.reverse_reverse_eq
    rw [← hreverse, ← toGf_shiftReduce, ← gcmR_eq, hreverse]
    exact Gf.ext BitVec.reverse_reverse_eq
  have hinverse : Gf.power 128 _ 1 * mirror (Gf.mulY a) = mirror a := by
    rw [← Gf.mulY_eq (by decide), hstep, mulY_shiftReduce]
    rfl
  have hunit : xInv * Gf.power 128 _ 1 = 1 := by decide +kernel
  rw [← hinverse, ← mul_assoc, hunit, one_mul]

theorem mirror_mul (a b : GcmField) : dot (mirror a) (mirror b) = mirror (a * Gf.mulY b) := by
  -- scaled by `x^-127` the mirror image is multiplicative
  let c : PolyvalField := Gf.power 128 _ 1 * xInv128
  let φ : GcmField →+ PolyvalField := (AddMonoidHom.mulLeft c).comp mirror
  have hone : φ 1 = 1 := by decide +kernel
  have hY : ∀ a, φ (Gf.mulY a) = xInv * φ a := by
    intro a
    show c * mirror (Gf.mulY a) = xInv * (c * mirror a)
    rw [mirror_mulY, mul_left_comm]
  have hmul : c * mirror (a * Gf.mulY b) = c * mirror a * (c * mirror (Gf.mulY b)) :=
    Gf.map_mul_of_mulY φ xInv hone hY a (Gf.mulY b)
  have hunit : Gf.power 128 _ 127 * c = 1 := by decide +kernel
  have hscale : c * xInv = xInv128 := by decide +kernel
  calc dot (mirror a) (mirror b)
      = mirror a * (c * (xInv * mirror b)) := by rw [← mul_assoc c, hscale, dot]; ring
    _ = Gf.power 128 _ 127 * c * (mirror a * (c * mirror (Gf.mulY b))) := by
        rw [hunit, one_mul, mirror_mulY]
    _ = Gf.power 128 _ 127 * (c * mirror (a * Gf.mulY b)) := by rw [hmul]; ring
    _ = mirror (a * Gf.mulY b) := by rw [← mul_assoc, hunit, one_mul]

theorem polyval_byteReverse (h : Block) (xs : List Block) :
    polyval (byteReverse h) (xs.map byteReverse) = byteReverse (ghash (mulXGhash h) xs) := by
  have hrun : ∀ s : GcmField,
      (xs.map byteReverse).foldl (fun s x => dot (s + elementOf x) (elementOf (byteReverse h)))
        (mirror s) = mirror (xs.foldl (fun y x => (y + fieldOf x) * fieldOf (mulXGhash h)) s) := by
    induction xs with
    | nil => intro s; rfl
    | cons x xs ih =>
      intro s
      rw [List.map_cons, List.foldl_cons, List.foldl_cons, elementOf_byteReverse,
        elementOf_byteReverse, ← map_add, mirror_mul, ← fieldOf_mulXGhash, ← ih,
        elementOf_byteReverse]
  have hall := hrun 0
  rw [map_zero, ← fieldOf_ghash, ← elementOf_byteReverse] at hall
  rw [polyval, hall, ofElement_elementOf]

theorem foldl_ghash_absorbed (h : Block) (xs ys : List Block) (ctx : Iot.GhashContext)
    (hctx : Iot.Absorbed ctx h xs) :
    Iot.Absorbed (ys.foldl Iot.ghashProcessBlock ctx) h (xs ++ ys) := by
  induction ys generalizing xs ctx with
  | nil => rwa [List.append_nil]
  | cons y ys ih =>
    have hrest := ih (xs ++ [y]) _ (Iot.ghashProcessBlock_absorbed ctx h y xs hctx)
    rwa [List.append_assoc] at hrest

/-- A run of `polyval.c` and one of `ghash.c`: 32-bit products without carries against
tables of half-bytes. -/
theorem polyval_eq_ghash (h : Block) (xs : List Block) (output : Block) :
    polyvalFinalize ((xs.map byteReverse).foldl polyvalProcessBlock
      (polyvalInit (byteReverse h))) output =
      byteReverse (xs.foldl Iot.ghashProcessBlock (Iot.ghashInit (mulXGhash h))).buf := by
  have hghash := foldl_ghash_absorbed _ [] xs _ (Iot.ghashInit_absorbed (mulXGhash h))
  rw [finalize_foldl, polyval_byteReverse, hghash.buf, List.nil_append]

end Pobc.Polyval
