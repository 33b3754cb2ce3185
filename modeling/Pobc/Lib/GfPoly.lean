import Pobc.Lib.Gf
import Pobc.Lib.Clmul

/-!
# Words as polynomials and as field elements

`reduce` reads a polynomial over `GF(2)` modulo `y^w + p`. It takes the polynomial of
a word to the element with these bits, so a computation on words that is right up to
multiples of the modulus is right in the field.
-/

namespace Pobc.Clmul
open Polynomial

variable {w : ℕ}

theorem poly_twoPow (i : ℕ) (hi : i < w) : poly (BitVec.twoPow w i) = X ^ i := by
  ext k
  rw [coeff_poly, BitVec.getLsbD_twoPow, coeff_X_pow, decide_eq_true hi, Bool.true_and]
  rcases eq_or_ne k i with rfl | hne
  · rw [decide_eq_true rfl, if_pos rfl]
    rfl
  · rw [decide_eq_false (Ne.symm hne), if_neg hne]
    rfl

/- Two words in one. -/
theorem poly_append {v : ℕ} (x : BitVec v) (y : BitVec w) :
    poly (x ++ y) = poly y + X ^ w * poly x := by
  ext k
  rw [coeff_add, coeff_X_pow_mul', coeff_poly, coeff_poly, BitVec.getLsbD_append]
  have hzero : bit false = 0 := rfl
  rcases Nat.lt_or_ge k w with hk | hk
  · rw [if_pos hk, if_neg (Nat.not_le.mpr hk), add_zero]
  · rw [if_neg (Nat.not_lt.mpr hk), if_pos hk, coeff_poly, BitVec.getLsbD_of_ge y k hk, hzero,
      zero_add]

end Pobc.Clmul

namespace Pobc.Gf
open Polynomial Clmul

variable {w : ℕ} {p : BitVec w}

/-- The two constants. -/
def constant : ZMod 2 →+* Gf w p where
  toFun b := if b = 1 then 1 else 0
  map_zero' := if_neg (by decide)
  map_one' := if_pos rfl
  map_add' a b := by
    have hcases : ∀ c : ZMod 2, c = 0 ∨ c = 1 := by decide
    rcases hcases a with rfl | rfl <;> rcases hcases b with rfl | rfl
    · exact (add_zero _).symm
    · exact (zero_add _).symm
    · exact (add_zero _).symm
    · exact (add_self (1 : Gf w p)).symm
  map_mul' a b := by
    have hcases : ∀ c : ZMod 2, c = 0 ∨ c = 1 := by decide
    rcases hcases a with rfl | rfl <;> rcases hcases b with rfl | rfl
    · exact (mul_zero (0 : Gf w p)).symm
    · exact (zero_mul (1 : Gf w p)).symm
    · exact (mul_zero (1 : Gf w p)).symm
    · exact (mul_one (1 : Gf w p)).symm

/-- A polynomial modulo `y^w + p`. -/
noncomputable def reduce : (ZMod 2)[X] →+* Gf w p := eval₂RingHom constant (power w p 1)

theorem reduce_X : reduce X = power w p 1 := eval₂_X _ _

theorem reduce_X_pow (i : ℕ) (hi : i < w) : reduce (X ^ i) = power w p i := by
  rw [map_pow, reduce_X, power_one_pow i hi]

/- A word is read as its own bits. -/
theorem reduce_poly (x : BitVec w) : reduce (poly x) = (⟨x⟩ : Gf w p) := by
  let φ : Gf w p →+ Gf w p :=
    { toFun := fun a => reduce (poly a.bits)
      map_zero' := by rw [bits_zero, poly_zero, map_zero]
      map_add' := fun a b => by rw [bits_add, poly_xor, map_add] }
  have hid : φ = AddMonoidHom.id _ := by
    refine addHom_ext φ _ fun i hi => ?_
    show reduce (poly (BitVec.twoPow w i)) = power w p i
    rw [poly_twoPow i hi, reduce_X_pow i hi]
  exact DFunLike.congr_fun hid ⟨x⟩

theorem power_one_pow_width (hw : 1 < w) : power w p 1 ^ w = ⟨p⟩ := by
  obtain ⟨n, rfl⟩ : ∃ n, w = n + 1 := ⟨w - 1, by omega⟩
  rw [pow_succ', power_one_pow n (by omega), ← mulY_eq hw]
  apply Gf.ext
  have hmsb : (BitVec.twoPow (n + 1) n).msb = true := by
    rw [BitVec.msb_twoPow]
    simp
  have hshift : BitVec.twoPow (n + 1) n <<< 1 = 0#(n + 1) := by
    apply BitVec.eq_of_getLsbD_eq
    intro k hk
    rw [BitVec.getLsbD_shiftLeft, BitVec.getLsbD_twoPow, BitVec.getLsbD_zero]
    grind
  rw [mulY, power, if_pos hmsb, hshift, BitVec.zero_xor]

/- The modulus. -/
theorem reduce_modulus (hw : 1 < w) : reduce (X ^ w + poly p) = (0 : Gf w p) := by
  rw [map_add, map_pow, reduce_X, reduce_poly, power_one_pow_width hw, add_self]

end Pobc.Gf
