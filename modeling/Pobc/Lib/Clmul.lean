import Mathlib.Algebra.Polynomial.Reverse
import Mathlib.Algebra.Polynomial.Eval.Degree
import Mathlib.FieldTheory.Finite.Basic
import Mathlib.Data.BitVec

/-!
# Carry-less products from integer products

The polynomial of a word over `GF(2)` has its bits as coefficients. An integer
product of two words counts, in column `p`, the pairs of bits that meet there. When
the columns in use are `s` apart and count to less than `2^s`, no column carries
into the next one, and its lowest bit is the coefficient of the product of the two
polynomials.
-/

namespace Pobc.Clmul
open Polynomial Finset

variable {w : ℕ}

/-! ### Polynomials of words -/

/-- The bits of a word as coefficients 0 and 1. -/
noncomputable def natPoly (x : BitVec w) : ℕ[X] :=
  ∑ i ∈ range w, if x.getLsbD i then X ^ i else 0

theorem coeff_natPoly (x : BitVec w) (k : ℕ) :
    (natPoly x).coeff k = if x.getLsbD k then 1 else 0 := by
  have hterm : ∀ i, (if x.getLsbD i then (X : ℕ[X]) ^ i else 0).coeff k =
      if k = i then (if x.getLsbD k then 1 else 0) else 0 := by
    intro i
    rcases eq_or_ne k i with rfl | hne
    · cases x.getLsbD k <;> simp
    · cases x.getLsbD i <;> simp [hne, coeff_X_pow]
  rw [natPoly, finsetSum_coeff]
  simp only [hterm, sum_ite_eq, mem_range]
  rcases Nat.lt_or_ge k w with hk | hk
  · rw [if_pos hk]
  · rw [if_neg (Nat.not_lt.mpr hk), BitVec.getLsbD_of_ge x k hk]
    rfl

theorem coeff_natPoly_le (x : BitVec w) (k : ℕ) : (natPoly x).coeff k ≤ 1 := by
  rw [coeff_natPoly]
  split <;> omega

/-- The polynomial of a word over `GF(2)`. -/
noncomputable def poly (x : BitVec w) : (ZMod 2)[X] := (natPoly x).map (Nat.castRingHom (ZMod 2))

/-- A bit as an element of `GF(2)`. -/
def bit (b : Bool) : ZMod 2 := if b then 1 else 0

theorem bit_xor (a b : Bool) : bit (a ^^ b) = bit a + bit b := by
  cases a <;> cases b <;> decide

theorem coeff_poly (x : BitVec w) (k : ℕ) : (poly x).coeff k = bit (x.getLsbD k) := by
  rw [poly, coeff_map, coeff_natPoly]
  cases x.getLsbD k <;> simp [bit]

theorem poly_xor (x y : BitVec w) : poly (x ^^^ y) = poly x + poly y := by
  ext k
  rw [coeff_add, coeff_poly, coeff_poly, coeff_poly, BitVec.getLsbD_xor, bit_xor]

theorem poly_zero : poly (0#w) = 0 := by
  ext k
  rw [coeff_poly, BitVec.getLsbD_zero, coeff_zero]
  rfl

theorem natDegree_poly_le (x : BitVec w) : (poly x).natDegree ≤ w - 1 := by
  rw [natDegree_le_iff_coeff_eq_zero]
  intro k hk
  rw [coeff_poly, BitVec.getLsbD_of_ge x k (by omega)]
  rfl

/-! ### Integers with spaced columns -/

section Columns

/- Columns of one residue class, each below `2^s`, do not carry. -/
theorem sum_columns_lt (c : ℕ → ℕ) (s e : ℕ) (hs : 0 < s)
    (hclass : ∀ i, i % s ≠ e % s → c i = 0) (hc : ∀ i, c i < 2 ^ s) (p : ℕ) (hp : p % s = e % s) :
    ∑ i ∈ range p, c i * 2 ^ i < 2 ^ p := by
  induction p using Nat.strong_induction_on with
  | h p ih =>
    rcases Nat.lt_or_ge p s with hlt | hge
    · have hzero : ∑ i ∈ range p, c i * 2 ^ i = 0 := by
        refine sum_eq_zero fun i hi => ?_
        have hip := mem_range.mp hi
        rw [hclass i, Nat.zero_mul]
        rw [← hp, Nat.mod_eq_of_lt hlt, Nat.mod_eq_of_lt (by omega)]
        omega
      rw [hzero]
      exact Nat.two_pow_pos p
    · obtain ⟨q, rfl⟩ : ∃ q, p = q + s := ⟨p - s, by omega⟩
      have hq : q % s = e % s := by rwa [Nat.add_mod_right] at hp
      have hprev := ih q (by omega) hq
      have htop : ∑ j ∈ range s, c (q + j) * 2 ^ (q + j) = c q * 2 ^ q := by
        rw [sum_eq_single_of_mem 0 (mem_range.mpr hs) fun j hj hj0 => ?_, Nat.add_zero]
        have hjs := mem_range.mp hj
        rw [hclass (q + j), Nat.zero_mul]
        rw [← hq]
        intro h
        have hdvd : (q + j) % s = (q + 0) % s := by rw [h, Nat.add_zero]
        have hmod := Nat.ModEq.add_left_cancel' q hdvd
        rw [Nat.ModEq, Nat.mod_eq_of_lt hjs, Nat.zero_mod] at hmod
        exact hj0 hmod
      have hcq := hc q
      calc ∑ i ∈ range (q + s), c i * 2 ^ i
          = ∑ i ∈ range q, c i * 2 ^ i + c q * 2 ^ q := by rw [sum_range_add, htop]
        _ < 2 ^ q + c q * 2 ^ q := by omega
        _ = (c q + 1) * 2 ^ q := by ring
        _ ≤ 2 ^ s * 2 ^ q := Nat.mul_le_mul_right _ hcq
        _ = 2 ^ (q + s) := by rw [← pow_add, Nat.add_comm]

/- The lowest bit of a column stands at its place in the sum. -/
theorem testBit_sum_columns (c : ℕ → ℕ) (s e : ℕ) (hs : 0 < s)
    (hclass : ∀ i, i % s ≠ e % s → c i = 0) (hc : ∀ i, c i < 2 ^ s) (n p : ℕ) (hp : p % s = e % s)
    (hn : p < n) : (∑ i ∈ range n, c i * 2 ^ i).testBit p = (c p).testBit 0 := by
  obtain ⟨m, rfl⟩ : ∃ m, n = p + 1 + m := ⟨n - (p + 1), by omega⟩
  have hlow := sum_columns_lt c s e hs hclass hc p hp
  have hhigh : ∑ j ∈ range m, c (p + 1 + j) * 2 ^ (p + 1 + j) =
      2 ^ p * (2 * ∑ j ∈ range m, c (p + 1 + j) * 2 ^ j) := by
    rw [← mul_assoc, ← pow_succ, mul_sum]
    refine sum_congr rfl fun j _ => ?_
    rw [pow_add]
    ring
  have hsum : ∑ i ∈ range (p + 1 + m), c i * 2 ^ i = ∑ i ∈ range p, c i * 2 ^ i +
      2 ^ p * (c p + 2 * ∑ j ∈ range m, c (p + 1 + j) * 2 ^ j) := by
    rw [sum_range_add, hhigh, sum_range_succ]
    ring
  rw [hsum, Nat.testBit_eq_decide_div_mod_eq, Nat.testBit_eq_decide_div_mod_eq,
    Nat.add_mul_div_left _ _ (Nat.two_pow_pos p), Nat.div_eq_of_lt hlow, Nat.zero_add, pow_zero,
    Nat.div_one, Nat.add_mul_mod_self_left]

end Columns

/-! ### Products of spaced words -/

theorem toNat_eq_eval (x : BitVec w) : x.toNat = (natPoly x).eval 2 := by
  have hsum : ∀ w n : ℕ, n < 2 ^ w → n = ∑ i ∈ range w, if n.testBit i then 2 ^ i else 0 := by
    intro w
    induction w with
    | zero =>
      intro n hn
      rw [range_zero, sum_empty]
      omega
    | succ w ih =>
      intro n hn
      have hhalf := ih (n / 2) (by rw [pow_succ] at hn; omega)
      have hshift : ∑ i ∈ range w, (if n.testBit (i + 1) then 2 ^ (i + 1) else 0) =
          2 * ∑ i ∈ range w, if (n / 2).testBit i then 2 ^ i else 0 := by
        rw [mul_sum]
        refine sum_congr rfl fun i _ => ?_
        rw [Nat.testBit_succ]
        split
        · rw [pow_succ, Nat.mul_comm]
        · rfl
      rw [sum_range_succ', hshift, ← hhalf, Nat.testBit_zero, pow_zero]
      rcases Nat.mod_two_eq_zero_or_one n with h | h
      · rw [h, if_neg (by decide)]
        omega
      · rw [h, if_pos (by decide)]
        omega
  have hx := hsum w x.toNat x.isLt
  rw [hx, natPoly, eval_finsetSum]
  refine sum_congr rfl fun i _ => ?_
  rw [BitVec.testBit_toNat]
  split
  · rw [eval_pow, eval_X]
  · rw [eval_zero]

/-- All bits of the word are at positions `a` modulo `s`. -/
def InClass (s a : ℕ) (x : BitVec w) : Prop := ∀ i, x.getLsbD i = true → i % s = a % s

section Spaced

variable {s a b : ℕ} {x y : BitVec w} (hx : InClass s a x) (hy : InClass s b y)

include hx hy in
theorem coeff_natPoly_mul_of_ne (p : ℕ) (hp : p % s ≠ (a + b) % s) :
    (natPoly x * natPoly y).coeff p = 0 := by
  rw [coeff_mul]
  refine sum_eq_zero fun ij hij => ?_
  have hsum := mem_antidiagonal.mp hij
  rw [coeff_natPoly, coeff_natPoly]
  cases hxi : x.getLsbD ij.1 with
  | false => simp
  | true =>
    cases hyj : y.getLsbD ij.2 with
    | false => simp
    | true =>
      refine absurd ?_ hp
      rw [← hsum, Nat.add_mod, hx _ hxi, hy _ hyj, ← Nat.add_mod]

/- A column counts at most the bits of one factor. -/
theorem coeff_natPoly_mul_le (p : ℕ) :
    (natPoly x * natPoly y).coeff p ≤ ∑ i ∈ range w, (natPoly x).coeff i := by
  have hle : (natPoly x * natPoly y).coeff p ≤ ∑ i ∈ range (p + 1), (natPoly x).coeff i := by
    rw [coeff_mul, Nat.sum_antidiagonal_eq_sum_range_succ_mk]
    refine sum_le_sum fun i _ => ?_
    have hone := coeff_natPoly_le y (p - i)
    exact (Nat.mul_le_mul_left _ hone).trans_eq (Nat.mul_one _)
  refine hle.trans ?_
  rcases Nat.le_total (p + 1) w with hpw | hwp
  · exact sum_le_sum_of_subset (range_mono hpw)
  · refine le_of_eq (sum_subset (range_mono hwp) fun i _ hi => ?_).symm
    rw [coeff_natPoly, BitVec.getLsbD_of_ge x i (by simpa using hi)]
    rfl

theorem coeff_poly_mul (x y : BitVec w) (p : ℕ) :
    (poly x * poly y).coeff p = ((natPoly x * natPoly y).coeff p : ZMod 2) := by
  rw [poly, poly, ← Polynomial.map_mul, coeff_map]
  rfl

include hx hy in
theorem coeff_poly_mul_of_ne (p : ℕ) (hp : p % s ≠ (a + b) % s) :
    (poly x * poly y).coeff p = 0 := by
  rw [coeff_poly_mul, coeff_natPoly_mul_of_ne hx hy p hp, Nat.cast_zero]

theorem bit_testBit_zero (n : ℕ) : bit (n.testBit 0) = (n : ZMod 2) := by
  rw [Nat.testBit_zero, ← ZMod.natCast_mod n 2]
  rcases Nat.mod_two_eq_zero_or_one n with h | h
  · rw [h]
    rfl
  · rw [h]
    rfl

include hx hy in
/-- In its class the integer product of spaced words has the bits of the carry-less one. -/
theorem bit_mul (hs : 0 < s) (hcount : ∑ i ∈ range w, (natPoly x).coeff i < 2 ^ s) (p : ℕ)
    (hpw : p < w) (hp : p % s = (a + b) % s) :
    bit ((x * y).getLsbD p) = (poly x * poly y).coeff p := by
  have hdeg : (natPoly x * natPoly y).natDegree < 2 * w := by
    have hword : ∀ z : BitVec w, (natPoly z).natDegree ≤ w - 1 := by
      intro z
      rw [natDegree_le_iff_coeff_eq_zero]
      intro k hk
      rw [coeff_natPoly, BitVec.getLsbD_of_ge z k (by omega)]
      rfl
    have hmul := natDegree_mul_le_of_le (hword x) (hword y)
    omega
  have hvalue : x.toNat * y.toNat =
      ∑ i ∈ range (2 * w), (natPoly x * natPoly y).coeff i * 2 ^ i := by
    rw [toNat_eq_eval, toNat_eq_eval, ← eval_mul, eval_eq_sum_range' hdeg]
  rw [← BitVec.testBit_toNat, BitVec.toNat_mul, Nat.testBit_mod_two_pow, decide_eq_true hpw,
    Bool.true_and, hvalue, testBit_sum_columns _ s (a + b) hs
      (fun i hi => coeff_natPoly_mul_of_ne hx hy i hi)
      (fun i => lt_of_le_of_lt (coeff_natPoly_mul_le i) hcount) (2 * w) p hp (by omega),
    bit_testBit_zero, coeff_poly_mul]

end Spaced

/-! ### Both halves of a product -/

theorem poly_reverse (x : BitVec w) : poly x.reverse = reflect (w - 1) (poly x) := by
  ext k
  rw [coeff_reflect, coeff_poly, coeff_poly, BitVec.getLsbD_reverse, BitVec.getMsbD_eq_getLsbD]
  rcases Nat.lt_or_ge k w with hk | hk
  · rw [revAt_le (by omega), decide_eq_true hk, Bool.true_and]
  · rcases Nat.lt_or_ge (w - 1) k with hlt | hle
    · rw [revAt_eq_self_of_lt hlt, decide_eq_false (Nat.not_lt.mpr hk), Bool.false_and,
        BitVec.getLsbD_of_ge x k hk]
    · have hw : w = 0 := by omega
      subst hw
      rw [BitVec.of_length_zero (x := x)]
      simp

/- `low` gives the low half of every product, and, run backwards, the high half. -/
theorem poly_mul_eq (hw : 0 < w) (low : BitVec w → BitVec w → BitVec w)
    (hlow : ∀ x y, ∀ p < w, bit ((low x y).getLsbD p) = (poly x * poly y).coeff p)
    (x y : BitVec w) : poly x * poly y =
      poly (low x y) + X ^ w * poly ((low x.reverse y.reverse).reverse >>> 1) := by
  have hdeg : (poly x * poly y).natDegree ≤ w - 1 + (w - 1) :=
    natDegree_mul_le_of_le (natDegree_poly_le x) (natDegree_poly_le y)
  ext p
  rw [coeff_add, coeff_X_pow_mul', coeff_poly]
  rcases Nat.lt_or_ge p w with hp | hp
  · rw [if_neg (by omega), add_zero, hlow x y p hp]
  · rw [if_pos hp, BitVec.getLsbD_of_ge _ p hp, coeff_poly, BitVec.getLsbD_ushiftRight,
      BitVec.getLsbD_reverse, BitVec.getMsbD_eq_getLsbD]
    have hzero : bit false = 0 := rfl
    rw [hzero, zero_add]
    rcases Nat.lt_or_ge (1 + (p - w)) w with hin | hout
    · rw [decide_eq_true hin, Bool.true_and, hlow _ _ _ (by omega), poly_reverse, poly_reverse,
        ← reflect_mul _ _ (natDegree_poly_le x) (natDegree_poly_le y), coeff_reflect,
        revAt_le (by omega)]
      congr 1
      omega
    · rw [decide_eq_false (by omega), Bool.false_and]
      exact coeff_eq_zero_of_natDegree_lt (by omega)

/- A shifted word and what falls off it. -/
theorem X_pow_mul_poly (x : BitVec w) (k : ℕ) (hk : k ≤ w) :
    X ^ k * poly x = poly (x <<< k) + X ^ w * poly (x >>> (w - k)) := by
  ext p
  rw [coeff_add, coeff_X_pow_mul', coeff_X_pow_mul', coeff_poly, coeff_poly, coeff_poly,
    BitVec.getLsbD_shiftLeft, BitVec.getLsbD_ushiftRight]
  have hzero : bit false = 0 := rfl
  rcases Nat.lt_or_ge p k with hpk | hpk
  · rw [if_neg (by omega), if_neg (by omega), decide_eq_true hpk]
    simp [hzero]
  · rcases Nat.lt_or_ge p w with hpw | hpw
    · rw [if_pos hpk, if_neg (by omega), decide_eq_true hpw, decide_eq_false (by omega)]
      simp
    · have hpos : w - k + (p - w) = p - k := by omega
      rw [if_pos hpk, if_pos hpw, hpos, decide_eq_false (by omega), Bool.false_and, Bool.false_and,
        hzero, zero_add]

end Pobc.Clmul
