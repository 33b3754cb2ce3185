import Pobc.Iot.Polyval
import Pobc.Lib.Bitslice
import Mathlib.Tactic.IntervalCases
import Mathlib.Tactic.LinearCombination

/-!
# The field product of POLYVAL

Words are read as polynomials over `GF(2)`. `bmul32` gives the low half of a product
and, run on reversed words, the high half; `mul` adds the halves up to the product of
two 128-bit values and divides by `X^128` modulo the polynomial of RFC 8452.
-/

namespace Pobc.Polyval
open Pobc.Loop Pobc.Clmul Pobc.Bitslice Polynomial

/-! ### Reversed words -/

theorem wordWires_swapped (m : Word) (n : ℕ) (σ : ℕ → ℕ)
    (h : ∀ p < 32, σ p < 32 ∧ (m.getLsbD p = true ∧ σ p = n + p ∧ (n ≤ p → m.getLsbD (p - n) = false) ∨
      m.getLsbD p = false ∧ n ≤ p ∧ m.getLsbD (p - n) = true ∧ σ p = p - n)) :
    WordWires (fun x : Word => ((x &&& m) <<< n) ||| ((x >>> n) &&& m)) σ := by
  have hmasked := wordWires_masked m m n n σ h
  simp only [BitVec.or_comm ((_ : Word) >>> n &&& m)] at hmasked
  exact hmasked

/-- Position `p` exchanged within its group of `2n`. -/
def swapPos (n p : ℕ) : ℕ := if p / n % 2 = 0 then n + p else p - n

theorem rev32_eq (x : Word) : rev32 x = x.reverse := by
  have h1 := wordWires_swapped 0x55555555#32 1 (swapPos 1) (by decide)
  have h2 := wordWires_swapped 0x33333333#32 2 (swapPos 2) (by decide)
  have h4 := wordWires_swapped 0x0f0f0f0f#32 4 (swapPos 4) (by decide)
  have h8 := wordWires_swapped 0x00ff00ff#32 8 (swapPos 8) (by decide)
  have hall := (((h1.comp h2).comp h4).comp h8).comp (wordWires_rotate (w := 32) 16 (by decide))
  have hpos : ∀ p < 32, (swapPos 1 ∘ swapPos 2 ∘ swapPos 4 ∘ swapPos 8 ∘ fun p => (p + 16) % 32) p =
      31 - p := by
    decide
  refine BitVec.eq_of_getLsbD_eq fun p hp => ?_
  have hbit := hall.bit x p hp
  rw [BitVec.getLsbD_reverse, BitVec.getMsbD_eq_getLsbD, decide_eq_true hp, Bool.true_and]
  refine Eq.trans ?_ (hbit.trans (congrArg x.getLsbD (hpos p hp)))
  rw [BitVec.or_comm]
  rfl

theorem rev32_xor (x y : Word) : rev32 (x ^^^ y) = rev32 x ^^^ rev32 y := by
  rw [rev32_eq, rev32_eq, rev32_eq]
  refine BitVec.eq_of_getLsbD_eq fun i hi => ?_
  simp only [BitVec.getLsbD_reverse, BitVec.getLsbD_xor, BitVec.getMsbD_xor]

/-! ### `bmul32` -/

/-- The mask of the positions `c` modulo 4. -/
def classMask (c : ℕ) : Word := [0x11111111#32, 0x22222222#32, 0x44444444#32, 0x88888888#32].getD c 0

theorem getLsbD_classMask (c : ℕ) (hc : c < 4) (p : ℕ) :
    (classMask c).getLsbD p = decide (p < 32 ∧ p % 4 = c) := by
  have hin : ∀ c < 4, ∀ p < 32, (classMask c).getLsbD p = decide (p % 4 = c) := by decide
  rcases Nat.lt_or_ge p 32 with hp | hp
  · rw [hin c hc p hp]
    simp [hp]
  · rw [BitVec.getLsbD_of_ge _ _ hp, eq_comm, decide_eq_false_iff_not]
    omega

theorem inClass_classMask (x : Word) (c : ℕ) (hc : c < 4) : InClass 4 c (x &&& classMask c) := by
  intro i hi
  rw [BitVec.getLsbD_and, getLsbD_classMask c hc, Bool.and_eq_true, decide_eq_true_iff] at hi
  omega

/- A word has eight positions of each class. -/
theorem count_classMask (x : Word) (c : ℕ) (hc : c < 4) :
    ∑ i ∈ Finset.range 32, (natPoly (x &&& classMask c)).coeff i < 2 ^ 4 := by
  have hle : ∑ i ∈ Finset.range 32, (natPoly (x &&& classMask c)).coeff i ≤
      ∑ i ∈ Finset.range 32, if i % 4 = c then 1 else 0 := by
    refine Finset.sum_le_sum fun i _ => ?_
    rw [coeff_natPoly, BitVec.getLsbD_and, getLsbD_classMask c hc]
    by_cases h : i % 4 = c
    · rw [if_pos h]
      split <;> omega
    · have hno : ¬ (i < 32 ∧ i % 4 = c) := fun hi => h hi.2
      rw [decide_eq_false hno, Bool.and_false]
      exact Nat.zero_le _
  have height : ∀ c < 4, (∑ i ∈ Finset.range 32, if i % 4 = c then 1 else 0) = 8 := by decide
  rw [height c hc] at hle
  omega

theorem poly_classMask (x : Word) : poly x = ∑ c ∈ Finset.range 4, poly (x &&& classMask c) := by
  have hsplit : x = (x &&& classMask 0) ^^^ (x &&& classMask 1) ^^^ (x &&& classMask 2) ^^^
      (x &&& classMask 3) := by
    refine BitVec.eq_of_getLsbD_eq fun p hp => ?_
    have hcases : p % 4 = 0 ∨ p % 4 = 1 ∨ p % 4 = 2 ∨ p % 4 = 3 := by omega
    simp only [BitVec.getLsbD_xor, BitVec.getLsbD_and, getLsbD_classMask _ (by decide : 0 < 4),
      getLsbD_classMask _ (by decide : 1 < 4), getLsbD_classMask _ (by decide : 2 < 4),
      getLsbD_classMask _ (by decide : 3 < 4)]
    rcases hcases with h | h | h | h <;> simp [h, hp]
  conv_lhs => rw [hsplit]
  rw [poly_xor, poly_xor, poly_xor]
  simp only [Finset.sum_range_succ, Finset.sum_range_zero, zero_add]

/- Column `p` of a product meets four pairs of classes. -/
theorem coeff_mul_classes (x y : Word) (p : ℕ) : (poly x * poly y).coeff p =
    ∑ c ∈ Finset.range 4,
      (poly (x &&& classMask c) * poly (y &&& classMask ((p + 4 - c) % 4))).coeff p := by
  rw [poly_classMask x, Finset.sum_mul, finsetSum_coeff]
  refine Finset.sum_congr rfl fun c hc => ?_
  have hc4 := Finset.mem_range.mp hc
  rw [poly_classMask y, Finset.mul_sum, finsetSum_coeff]
  refine Finset.sum_eq_single_of_mem _ (Finset.mem_range.mpr (Nat.mod_lt _ (by decide)))
    fun d hd hne => ?_
  have hd4 := Finset.mem_range.mp hd
  exact coeff_poly_mul_of_ne (inClass_classMask x c hc4) (inClass_classMask y d hd4) p (by omega)

/-- `z0` to `z3` before they are masked. -/
def column (x y : Word) (c : ℕ) : Word :=
  (x &&& classMask 0) * (y &&& classMask ((c + 4 - 0) % 4)) ^^^
    (x &&& classMask 1) * (y &&& classMask ((c + 4 - 1) % 4)) ^^^
    (x &&& classMask 2) * (y &&& classMask ((c + 4 - 2) % 4)) ^^^
    (x &&& classMask 3) * (y &&& classMask ((c + 4 - 3) % 4))

theorem bmul32_eq (x y : Word) : bmul32 x y =
    (column x y 0 &&& classMask 0) ||| (column x y 1 &&& classMask 1) |||
      (column x y 2 &&& classMask 2) ||| (column x y 3 &&& classMask 3) := rfl

theorem getLsbD_bmul32 (x y : Word) (p : ℕ) (hp : p < 32) :
    (bmul32 x y).getLsbD p = (column x y (p % 4)).getLsbD p := by
  have hcases : p % 4 = 0 ∨ p % 4 = 1 ∨ p % 4 = 2 ∨ p % 4 = 3 := by omega
  simp only [bmul32_eq, BitVec.getLsbD_or, BitVec.getLsbD_and,
    getLsbD_classMask _ (by decide : 0 < 4), getLsbD_classMask _ (by decide : 1 < 4),
    getLsbD_classMask _ (by decide : 2 < 4), getLsbD_classMask _ (by decide : 3 < 4)]
  rcases hcases with h | h | h | h <;> simp [h, hp]

/- Holes keep the carries out: `bmul32` is the carry-less product, cut off at 32 bits. -/
theorem bit_bmul32 (x y : Word) (p : ℕ) (hp : p < 32) :
    bit ((bmul32 x y).getLsbD p) = (poly x * poly y).coeff p := by
  have hpair : ∀ c < 4, bit (((x &&& classMask c) *
      (y &&& classMask ((p % 4 + 4 - c) % 4))).getLsbD p) =
      (poly (x &&& classMask c) * poly (y &&& classMask ((p + 4 - c) % 4))).coeff p := by
    intro c hc
    have hd : (p % 4 + 4 - c) % 4 = (p + 4 - c) % 4 := by omega
    rw [hd]
    exact bit_mul (inClass_classMask x c hc) (inClass_classMask y _ (Nat.mod_lt _ (by decide)))
      (by decide) (count_classMask x c hc) p hp (by omega)
  rw [getLsbD_bmul32 x y p hp, coeff_mul_classes]
  simp only [column, BitVec.getLsbD_xor, bit_xor, Finset.sum_range_succ, Finset.sum_range_zero,
    zero_add]
  rw [hpair 0 (by decide), hpair 1 (by decide), hpair 2 (by decide), hpair 3 (by decide)]

/- The whole product of two words, in two words. -/
theorem poly_bmul32 (x y : Word) : poly x * poly y =
    poly (bmul32 x y) + X ^ 32 * poly (rev32 (bmul32 (rev32 x) (rev32 y)) >>> 1) := by
  rw [rev32_eq, rev32_eq, rev32_eq]
  exact poly_mul_eq (by decide) bmul32 bit_bmul32 x y

/-- One call gives the low half of the carry-less product of two words, and one on the
reversed words the high half. -/
theorem bmul32_halves (x y : Word) :
    (∀ p < 32, bit ((bmul32 x y).getLsbD p) = (poly x * poly y).coeff p) ∧
      ∀ p < 32, bit ((rev32 (bmul32 (rev32 x) (rev32 y)) >>> 1).getLsbD p) =
        (poly x * poly y).coeff (32 + p) := by
  refine ⟨bit_bmul32 x y, fun p _ => ?_⟩
  rw [poly_bmul32, coeff_add, coeff_poly, coeff_X_pow_mul',
    BitVec.getLsbD_of_ge (bmul32 x y) _ (Nat.le_add_right 32 p), if_pos (Nat.le_add_right 32 p),
    Nat.add_sub_cancel_left, coeff_poly]
  exact (zero_add _).symm

/-! ### Karatsuba -/

/-- The product of operands `i` of both arrays. -/
def partialProduct (x y : Words) (i : ℕ) : Word := bmul32 (operands y i) (operands x i)

theorem product_words (x y : Words) (P : Words) (hP : P = partialProduct x y) (k : ℕ) (hk : k < 8) :
    product x y k =
      [P 0,
        P 4 ^^^ (P 0 ^^^ P 1) ^^^ (rev32 (P 9) >>> 1),
        P 1 ^^^ P 0 ^^^ P 2 ^^^ P 6 ^^^ (rev32 (P 13 ^^^ (P 9 ^^^ P 10)) >>> 1),
        (P 4 ^^^ (P 0 ^^^ P 1)) ^^^ (P 5 ^^^ (P 2 ^^^ P 3)) ^^^ (P 8 ^^^ (P 6 ^^^ P 7)) ^^^
          (rev32 (P 10 ^^^ P 9 ^^^ P 11 ^^^ P 15) >>> 1),
        P 2 ^^^ P 1 ^^^ P 3 ^^^ P 7 ^^^ (rev32 ((P 13 ^^^ (P 9 ^^^ P 10)) ^^^
          (P 14 ^^^ (P 11 ^^^ P 12)) ^^^ (P 17 ^^^ (P 15 ^^^ P 16))) >>> 1),
        (P 5 ^^^ (P 2 ^^^ P 3)) ^^^ (rev32 (P 11 ^^^ P 10 ^^^ P 12 ^^^ P 16) >>> 1),
        P 3 ^^^ (rev32 (P 14 ^^^ (P 11 ^^^ P 12)) >>> 1),
        rev32 (P 12) >>> 1].getD k 0 := by
  subst hP
  have hloop : forRange 18 (fun i a => Function.update a i (bmul32 (a i) (operands x i)))
      (operands y) = fun i => if i < 18 then partialProduct x y i else operands y i :=
    funext (forRange_update 18 (fun i v => bmul32 v (operands x i)) (operands y))
  simp only [product, hloop, Function.update_apply]
  interval_cases k <;> simp

theorem operands_low (w : Words) (i : ℕ) (hi : i < 9) :
    operands w i = [w 0, w 1, w 2, w 3, w 0 ^^^ w 1, w 2 ^^^ w 3, w 0 ^^^ w 2, w 1 ^^^ w 3,
      (w 0 ^^^ w 2) ^^^ (w 1 ^^^ w 3)].getD i 0 := by
  interval_cases i <;> rfl

theorem operands_reversed (w : Words) (i : ℕ) (hi : i < 9) :
    operands w (i + 9) = rev32 (operands w i) := by
  interval_cases i <;> simp [operands, rev32_xor]

/- Products `i` and `i + 9` are the two halves of one. -/
theorem poly_partialProduct (x y : Words) (i : ℕ) (hi : i < 9) :
    poly (operands y i) * poly (operands x i) = poly (partialProduct x y i) +
      X ^ 32 * poly (rev32 (partialProduct x y (i + 9)) >>> 1) := by
  rw [partialProduct, partialProduct, operands_reversed y i hi, operands_reversed x i hi]
  exact poly_bmul32 _ _

theorem poly_rev32_xor (u v : Word) :
    poly (rev32 (u ^^^ v) >>> 1) = poly (rev32 u >>> 1) + poly (rev32 v >>> 1) := by
  rw [rev32_xor, BitVec.ushiftRight_xor_distrib, poly_xor]

/-- The value of `n` words, the first one lowest. -/
noncomputable def value (n : ℕ) (w : Words) : (ZMod 2)[X] :=
  ∑ k ∈ Finset.range n, X ^ (32 * k) * poly (w k)

theorem two_eq_zero : (2 : (ZMod 2)[X]) = 0 := by
  have h : ((2 : ZMod 2) : ZMod 2) = 0 := by decide
  exact (map_ofNat C 2).symm.trans ((congrArg C h).trans C_0)

/- Two levels of Karatsuba on words, and the third one in the halves of each product. -/
theorem value_product (x y : Words) : value 8 (product x y) = value 4 x * value 4 y := by
  have hword := product_words x y _ rfl
  have hpart : ∀ i (hi : i < 9), _ := fun i hi => by
    have h := poly_partialProduct x y i hi
    rw [operands_low x i hi, operands_low y i hi] at h
    exact h
  have h0 := hpart 0 (by decide)
  have h1 := hpart 1 (by decide)
  have h2 := hpart 2 (by decide)
  have h3 := hpart 3 (by decide)
  have h4 := hpart 4 (by decide)
  have h5 := hpart 5 (by decide)
  have h6 := hpart 6 (by decide)
  have h7 := hpart 7 (by decide)
  have h8 := hpart 8 (by decide)
  simp only [List.getD_cons_zero, List.getD_cons_succ, poly_xor, Nat.reduceAdd]
    at h0 h1 h2 h3 h4 h5 h6 h7 h8
  simp only [value, Finset.sum_range_succ, Finset.sum_range_zero, hword 0 (by decide),
    hword 1 (by decide), hword 2 (by decide), hword 3 (by decide), hword 4 (by decide),
    hword 5 (by decide), hword 6 (by decide), hword 7 (by decide), List.getD_cons_zero,
    List.getD_cons_succ, poly_xor, poly_rev32_xor, pow_mul]
  generalize (X : (ZMod 2)[X]) ^ 32 = Z at *
  generalize poly (x 0) = x0 at *
  generalize poly (x 1) = x1 at *
  generalize poly (x 2) = x2 at *
  generalize poly (x 3) = x3 at *
  generalize poly (y 0) = y0 at *
  generalize poly (y 1) = y1 at *
  generalize poly (y 2) = y2 at *
  generalize poly (y 3) = y3 at *
  linear_combination (-(1 + Z + Z^2 + Z^3)) * h0 - (Z + Z^2 + Z^3 + Z^4) * h1 -
    (Z^2 + Z^3 + Z^4 + Z^5) * h2 - (Z^3 + Z^4 + Z^5 + Z^6) * h3 - (Z + Z^3) * h4 -
    (Z^3 + Z^5) * h5 - (Z^2 + Z^3) * h6 - (Z^3 + Z^4) * h7 - Z^3 * h8 +
    (Z * (x1 * y1 + x0 * y0) + Z^2 * (x2 * y2 + x0 * y0) +
      Z^3 * (2 * (x0 * y0 + x1 * y1 + x2 * y2 + x3 * y3) + x3 * y2 + x3 * y1 + x2 * y3 + x2 * y0 +
        x1 * y3 + x1 * y0 + x0 * y2 + x0 * y1) +
      Z^4 * (x3 * y3 + x1 * y1) + Z^5 * (x3 * y3 + x2 * y2)) * two_eq_zero

/-! ### Reduction -/

/-- The modulus of RFC 8452. -/
noncomputable def modulus : (ZMod 2)[X] := X ^ 128 + X ^ 127 + X ^ 126 + X ^ 121 + 1

/-- The words from `i` on, each at its place. -/
noncomputable def tail (i : ℕ) (b : Words) : (ZMod 2)[X] :=
  ∑ k ∈ Finset.Ico i 8, X ^ (32 * k) * poly (b k)

theorem reduceStep_apply (i : ℕ) (b : Words) (k : ℕ) : reduceStep i b k = b k ^^^
    ((if k = i + 3 then (b i <<< 31) ^^^ (b i <<< 30) ^^^ (b i <<< 25) else 0) ^^^
      if k = i + 4 then b i ^^^ (b i >>> 1) ^^^ (b i >>> 2) ^^^ (b i >>> 7) else 0) := by
  simp only [reduceStep, Function.update_apply]
  rcases eq_or_ne k (i + 3) with rfl | h3
  · simp
  · rcases eq_or_ne k (i + 4) with rfl | h4
    · simp
    · simp [h3, h4]

/- Adding a multiple of the modulus moves word `i` to where the division leaves it. -/
theorem tail_reduceStep (i : ℕ) (hi : i < 4) (b : Words) :
    tail (i + 1) (reduceStep i b) = tail i b + X ^ (32 * i) * poly (b i) * modulus := by
  have hterm : ∀ k, X ^ (32 * k) * poly (reduceStep i b k) = X ^ (32 * k) * poly (b k) +
      ((if k = i + 3 then X ^ (32 * (i + 3)) *
          (poly (b i <<< 31) + poly (b i <<< 30) + poly (b i <<< 25)) else 0) +
        if k = i + 4 then X ^ (32 * (i + 4)) *
          (poly (b i) + poly (b i >>> 1) + poly (b i >>> 2) + poly (b i >>> 7)) else 0) := by
    intro k
    rw [reduceStep_apply, poly_xor, poly_xor, mul_add, mul_add]
    congr 2
    · split
      case isTrue h => rw [h, poly_xor, poly_xor]
      case isFalse h => exact (congrArg _ poly_zero).trans (mul_zero _)
    · split
      case isTrue h => rw [h, poly_xor, poly_xor, poly_xor]
      case isFalse h => exact (congrArg _ poly_zero).trans (mul_zero _)
  have h31 := X_pow_mul_poly (b i) 31 (by decide)
  have h30 := X_pow_mul_poly (b i) 30 (by decide)
  have h25 := X_pow_mul_poly (b i) 25 (by decide)
  have h3 : i + 3 ∈ Finset.Ico (i + 1) 8 := Finset.mem_Ico.mpr (by omega)
  have h4 : i + 4 ∈ Finset.Ico (i + 1) 8 := Finset.mem_Ico.mpr (by omega)
  rw [tail, tail, Finset.sum_eq_sum_Ico_succ_bot (by omega : i < 8), Finset.sum_congr rfl
    (fun k _ => hterm k), Finset.sum_add_distrib, Finset.sum_add_distrib, Finset.sum_ite_eq',
    Finset.sum_ite_eq', if_pos h3, if_pos h4, mul_add 32 i 3, mul_add 32 i 4,
    pow_add X (32 * i) (32 * 3), pow_add X (32 * i) (32 * 4)]
  simp only [Nat.reduceMul, Nat.reduceSub] at h31 h30 h25 ⊢
  delta modulus
  linear_combination (-(X ^ (32 * i) * X ^ 96)) * (h31 + h30 + h25) -
    X ^ (32 * i) * poly (b i) * two_eq_zero

/-- `mul` divides the product by `X^128`, modulo the polynomial of RFC 8452. -/
theorem value_mul (x y : Words) :
    ∃ q, X ^ 128 * value 4 (mul x y) = value 4 x * value 4 y + q * modulus := by
  have hrun := forRange_inv
    (fun i b => ∃ q, tail i b = value 4 x * value 4 y + q * modulus) 4 reduceStep (product x y)
    ⟨0, by rw [zero_mul, add_zero, ← value_product, tail, value, Nat.Ico_zero_eq_range]⟩
    fun i hi b hb => by
      obtain ⟨q, hq⟩ := hb
      exact ⟨q + X ^ (32 * i) * poly (b i), by rw [tail_reduceStep i hi, hq]; ring⟩
  obtain ⟨q, hq⟩ := hrun
  refine ⟨q, ?_⟩
  rw [← hq, value, tail, Finset.mul_sum, Finset.sum_Ico_eq_sum_range]
  refine Finset.sum_congr rfl fun k hk => ?_
  have hk4 := Finset.mem_range.mp hk
  have hword : mul x y k = forRange 4 reduceStep (product x y) (4 + k) := by
    have hcases : k = 0 ∨ k = 1 ∨ k = 2 ∨ k = 3 := by omega
    rcases hcases with rfl | rfl | rfl | rfl <;> rfl
  rw [hword, mul_add 32 4 k, pow_add X (32 * 4) (32 * k), mul_assoc]

end Pobc.Polyval
