import Pobc.Lib.Limbs
import Mathlib.Tactic.LinearCombination

/-!
# Limbs of mini-gmp (`mimc-gmp/mini-gmp.c:61-170`)

The macros on one and two limbs, for limbs of `w` bits, which are some bytes. `gmp_umul_ppmm`
is the branch on half-limbs: limbs are `unsigned long`, and no type is twice as long. The source
keeps half-limbs in variables of type `unsigned`, and they are limbs here.
-/

namespace Pobc.MiniGmp
open Pobc.Limbs

variable {w : ℕ}

/-- What the code assumes of `GMP_LIMB_BITS`. Besides, half a limb has to fit in an `unsigned`: with
an `unsigned` of 32 bits, "every limb size" is every one up to 64 bits. -/
structure LimbBits (w : ℕ) : Prop where
  pos : 0 < w
  bytes : 8 ∣ w

/-! ### The macros -/

/-- `GMP_LIMB_MAX`. -/
def limbMax : BitVec w := ~~~0#w

/-- `GMP_LIMB_HIGHBIT`. -/
def highbit : BitVec w := (1 : BitVec w) <<< (w - 1)

/-- `GMP_HLIMB_BIT`. -/
def hlimbBit : BitVec w := (1 : BitVec w) <<< (w / 2)

/-- `GMP_LLIMB_MASK`. -/
def llimbMask : BitVec w := hlimbBit - 1

/-- `gmp_add_ssaaaa`. -/
def addSsaaaa (ah al bh bl : BitVec w) : BitVec w × BitVec w :=
  let x := al + bl
  (ah + bh + flag (x < al), x)

/-- `gmp_sub_ddmmss`. -/
def subDdmmss (ah al bh bl : BitVec w) : BitVec w × BitVec w :=
  let x := al - bl
  (ah - bh - flag (al < bl), x)

/-- `gmp_umul_ppmm`: the high and the low limb of a product. -/
def umulPpmm (u v : BitVec w) : BitVec w × BitVec w :=
  let ul := u &&& llimbMask
  let uh := u >>> (w / 2)
  let vl := v &&& llimbMask
  let vh := v >>> (w / 2)
  let x0 := ul * vl
  let x1 := ul * vh
  let x2 := uh * vl
  let x3 := uh * vh
  let x1 := x1 + (x0 >>> (w / 2))
  let x1 := x1 + x2
  let x3 := if x1 < x2 then x3 + hlimbBit else x3
  (x3 + (x1 >>> (w / 2)), (x1 <<< (w / 2)) + (x0 &&& llimbMask))

/-! ### Two limbs -/

/-- The number in a high and a low limb. -/
def wide (x : BitVec w × BitVec w) : ℕ := x.2.toNat + base w * x.1.toNat

theorem wide_lt (x : BitVec w × BitVec w) : wide x < base w * base w := by
  have h := value_lt [x.2, x.1]
  simpa [wide, pow_two] using h

theorem wide_cast (x : BitVec w × BitVec w) :
    (wide x : ℤ) = x.2.toNat + base w * x.1.toNat := by
  simp [wide]

theorem wide_le_iff (x y : BitVec w × BitVec w) :
    wide y ≤ wide x ↔ x.1 ≥ y.1 ∧ (x.1 > y.1 ∨ x.2 ≥ y.2) := by
  have hx := toNat_lt_base x.2
  have hy := toNat_lt_base y.2
  simp only [wide, ge_iff_le, gt_iff_lt, BitVec.le_def, BitVec.lt_def]
  rcases Nat.lt_trichotomy x.1.toNat y.1.toNat with hlt | heq | hgt
  · have hmul := Nat.mul_le_mul_left (base w) (Nat.succ_le_of_lt hlt)
    rw [Nat.mul_succ] at hmul
    omega
  · rw [heq]
    omega
  · have hmul := Nat.mul_le_mul_left (base w) (Nat.succ_le_of_lt hgt)
    rw [Nat.mul_succ] at hmul
    omega

theorem wide_lt_iff (x y : BitVec w × BitVec w) :
    wide y < wide x ↔ x.1 > y.1 ∨ (x.1 = y.1 ∧ x.2 > y.2) := by
  rw [← Nat.not_le, wide_le_iff]
  simp only [ge_iff_le, gt_iff_lt, BitVec.le_def, BitVec.lt_def, ← BitVec.toNat_inj]
  omega

/- A congruence of high limbs is one of the numbers. -/
theorem modEq_wide {x : BitVec w × BitVec w} {h l : ℤ} (hh : (x.1.toNat : ℤ) ≡ h [ZMOD base w])
    (hl : (x.2.toNat : ℤ) = l) : (wide x : ℤ) ≡ l + base w * h [ZMOD base w * base w] := by
  have hmul := (Int.ModEq.mul_left' hh : base w * (x.1.toNat : ℤ) ≡ base w * h
    [ZMOD base w * base w])
  simp only [wide, Nat.cast_add, Nat.cast_mul, hl]
  exact hmul.add_left l

theorem modEq_wide_addSsaaaa (hw : 0 < w) (ah al bh bl : BitVec w) :
    (wide (addSsaaaa ah al bh bl) : ℤ) ≡ wide (ah, al) + wide (bh, bl)
      [ZMOD base w * base w] := by
  have hcarry := toNat_add_carry' al bl
  have hhigh : ((ah + bh + flag (al + bl < al)).toNat : ℤ) ≡
      ah.toNat + bh.toNat + (if al + bl < al then 1 else 0) [ZMOD base w] := by
    rw [← modEq_flag hw]
    exact (modEq_toNat_add _ _).trans ((modEq_toNat_add ah bh).add_right _)
  have h := modEq_wide (x := addSsaaaa ah al bh bl) hhigh rfl
  have heq : ((al + bl).toNat : ℤ) + base w * (ah.toNat + bh.toNat +
      (if al + bl < al then 1 else 0)) = wide (ah, al) + wide (bh, bl) := by
    zify at hcarry
    simp only [wide, Nat.cast_add, Nat.cast_mul]
    linear_combination hcarry
  rwa [← heq]

theorem modEq_wide_subDdmmss (hw : 0 < w) (ah al bh bl : BitVec w) :
    (wide (subDdmmss ah al bh bl) : ℤ) ≡ wide (ah, al) - wide (bh, bl)
      [ZMOD base w * base w] := by
  have hborrow := toNat_sub_borrow al bl
  have hhigh : ((ah - bh - flag (al < bl)).toNat : ℤ) ≡
      ah.toNat - bh.toNat - (if al < bl then 1 else 0) [ZMOD base w] := by
    rw [← modEq_flag hw]
    exact (modEq_toNat_sub _ _).trans ((modEq_toNat_sub ah bh).sub_right _)
  have h := modEq_wide (x := subDdmmss ah al bh bl) hhigh rfl
  have heq : ((al - bl).toNat : ℤ) + base w * (ah.toNat - bh.toNat -
      (if al < bl then 1 else 0)) = wide (ah, al) - wide (bh, bl) := by
    zify at hborrow
    simp only [wide, Nat.cast_add, Nat.cast_mul]
    linear_combination hborrow
  rwa [← heq]

/-! ### Half-limbs -/

/-- The base of half-limbs. -/
def half (w : ℕ) : ℕ := 2 ^ (w / 2)

theorem half_pos (w : ℕ) : 0 < half w := Nat.two_pow_pos _

theorem LimbBits.half_mul_half (hw : LimbBits w) : half w * half w = base w := by
  have heven := hw.bytes
  have hsum : w / 2 + w / 2 = w := by omega
  rw [half, base, ← Nat.pow_add, hsum]

theorem LimbBits.half_lt (hw : LimbBits w) : half w < base w := by
  have hpos := hw.pos
  exact Nat.pow_lt_pow_right (by decide) (by omega)

theorem toNat_shiftRight_half (x : BitVec w) : (x >>> (w / 2)).toNat = x.toNat / half w := by
  rw [BitVec.toNat_ushiftRight, Nat.shiftRight_eq_div_pow, half]

theorem LimbBits.toNat_hlimbBit (hw : LimbBits w) : (hlimbBit : BitVec w).toNat = half w := by
  rw [hlimbBit, BitVec.toNat_shiftLeft, toNat_one hw.pos, Nat.one_shiftLeft]
  exact Nat.mod_eq_of_lt hw.half_lt

theorem LimbBits.toNat_llimbMask (hw : LimbBits w) :
    (llimbMask : BitVec w).toNat = half w - 1 := by
  have hle : (1 : BitVec w) ≤ hlimbBit := by
    rw [BitVec.le_def, toNat_one hw.pos, hw.toNat_hlimbBit]
    exact half_pos w
  rw [llimbMask, BitVec.toNat_sub_of_le hle, toNat_one hw.pos, hw.toNat_hlimbBit]

theorem LimbBits.toNat_and_llimbMask (hw : LimbBits w) (x : BitVec w) :
    (x &&& llimbMask).toNat = x.toNat % half w := by
  rw [BitVec.toNat_and, hw.toNat_llimbMask]
  exact Nat.and_two_pow_sub_one_eq_mod _ _

theorem LimbBits.toNat_low_lt (hw : LimbBits w) (x : BitVec w) :
    (x &&& llimbMask).toNat < half w := by
  rw [hw.toNat_and_llimbMask]
  exact Nat.mod_lt _ (half_pos w)

theorem LimbBits.toNat_high_lt (hw : LimbBits w) (x : BitVec w) :
    (x >>> (w / 2)).toNat < half w := by
  rw [toNat_shiftRight_half]
  exact Nat.div_lt_of_lt_mul (hw.half_mul_half ▸ toNat_lt_base x)

theorem LimbBits.toNat_halves (hw : LimbBits w) (x : BitVec w) :
    x.toNat = half w * (x >>> (w / 2)).toNat + (x &&& llimbMask).toNat := by
  rw [hw.toNat_and_llimbMask, toNat_shiftRight_half, Nat.div_add_mod]

theorem LimbBits.toNat_shiftLeft_half (hw : LimbBits w) (x : BitVec w) :
    (x <<< (w / 2)).toNat = half w * (x &&& llimbMask).toNat := by
  have hshift : (x <<< (w / 2)).toNat = (x.toNat * half w) % base w := by
    rw [BitVec.toNat_shiftLeft, Nat.shiftLeft_eq]
    rfl
  rw [hshift, ← hw.half_mul_half, Nat.mul_mod_mul_right, hw.toNat_and_llimbMask, Nat.mul_comm]

theorem modEq_shiftLeft_half (x : BitVec w) :
    ((x <<< (w / 2)).toNat : ℤ) ≡ half w * x.toNat [ZMOD base w] := by
  have hshift : (x <<< (w / 2)).toNat = (half w * x.toNat) % base w := by
    rw [BitVec.toNat_shiftLeft, Nat.shiftLeft_eq, Nat.mul_comm]
    rfl
  rw [hshift]
  exact_mod_cast Int.mod_modEq (half w * x.toNat) (base w)

/- A high and a low half make a limb. -/
theorem LimbBits.halves_lt (hw : LimbBits w) {x y : ℕ} (hx : x < half w) (hy : y < half w) :
    half w * x + y < base w := by
  have hmul : half w * (x + 1) ≤ half w * half w := Nat.mul_le_mul_left _ hx
  rw [hw.half_mul_half, Nat.mul_add] at hmul
  omega

/- A product of half-limbs, and of another half-limb added, fits in a limb. -/
theorem LimbBits.mul_add_half_lt (hw : LimbBits w) {x y z : ℕ} (hx : x < half w)
    (hy : y < half w) (hz : z < half w) : x * y + z < base w := by
  have hmul : x * y ≤ half w * y := Nat.mul_le_mul_right y hx.le
  have hlt := hw.halves_lt hy hz
  omega

/-! ### `gmp_umul_ppmm` -/

/- Schoolbook on the halves: `a` is the carry out of the low product, `c` the one of the
middle sum, and the low limb takes the low half `e0` of that sum. -/
theorem umul_halves {H β u0 u1 v0 v1 x0 a a0 x1 c e e0 : ℕ} (hβ : H * H = β)
    (hx0 : x0 = u0 * v0) (ha : x0 = H * a + a0) (hx1 : x1 + β * c = u0 * v1 + a + u1 * v0)
    (he : x1 = H * e + e0) :
    H * e0 + a0 + β * (u1 * v1 + H * c + e) = (H * u1 + u0) * (H * v1 + v0) := by
  subst hβ hx0
  zify at *
  linear_combination H * hx1 - H * he - ha

/-- The product of two limbs, in two limbs. -/
theorem LimbBits.wide_umulPpmm (hw : LimbBits w) (u v : BitVec w) :
    wide (umulPpmm u v) = u.toNat * v.toNat := by
  -- the four partial products; the first carry joins the second one
  let x0 := (u &&& llimbMask) * (v &&& llimbMask)
  let x1 := (u &&& llimbMask) * (v >>> (w / 2)) + (x0 >>> (w / 2))
  let x2 := (u >>> (w / 2)) * (v &&& llimbMask)
  let x3 := (u >>> (w / 2)) * (v >>> (w / 2))
  have hmul {x y : BitVec w} (hx : x.toNat < half w) (hy : y.toNat < half w) :
      (x * y).toNat = x.toNat * y.toNat :=
    BitVec.toNat_mul_of_lt (hw.mul_add_half_lt hx hy (half_pos w))
  have hx0 : x0.toNat = _ := hmul (hw.toNat_low_lt u) (hw.toNat_low_lt v)
  have hx2 : x2.toNat = _ := hmul (hw.toNat_high_lt u) (hw.toNat_low_lt v)
  have hx3 : x3.toNat = _ := hmul (hw.toNat_high_lt u) (hw.toNat_high_lt v)
  have hx1 : x1.toNat = (u &&& llimbMask).toNat * (v >>> (w / 2)).toNat +
      (x0 >>> (w / 2)).toNat := by
    have hprod := hmul (hw.toNat_low_lt u) (hw.toNat_high_lt v)
    have hlt := hw.mul_add_half_lt (hw.toNat_low_lt u) (hw.toNat_high_lt v) (hw.toNat_high_lt x0)
    rw [← hprod] at hlt ⊢
    exact BitVec.toNat_add_of_lt hlt
  -- the middle sum, whose carry belongs to the high limb
  let m := x1 + x2
  let c := if m < x2 then 1 else 0
  let x3' := if m < x2 then x3 + hlimbBit else x3
  have hm : m.toNat + base w * c = (u &&& llimbMask).toNat * (v >>> (w / 2)).toNat +
      (x0 >>> (w / 2)).toNat + (u >>> (w / 2)).toNat * (v &&& llimbMask).toNat := by
    rw [← hx1, ← hx2]
    exact toNat_add_carry x1 x2
  have htotal := umul_halves hw.half_mul_half hx0 (hw.toNat_halves x0) hm (hw.toNat_halves m)
  rw [← hw.toNat_halves u, ← hw.toNat_halves v, ← hx3] at htotal
  -- the low limb is exact, and the high one because the product fits
  have hlo : ((m <<< (w / 2)) + (x0 &&& llimbMask)).toNat =
      half w * (m &&& llimbMask).toNat + (x0 &&& llimbMask).toNat := by
    have hlt := hw.halves_lt (hw.toNat_low_lt m) (hw.toNat_low_lt x0)
    rw [← hw.toNat_shiftLeft_half] at hlt ⊢
    exact BitVec.toNat_add_of_lt hlt
  have hfits : x3.toNat + half w * c + (m >>> (w / 2)).toNat < base w := by
    have hprod : u.toNat * v.toNat < base w * base w :=
      Nat.mul_lt_mul'' (toNat_lt_base u) (toNat_lt_base v)
    refine lt_of_mul_lt_mul_left ?_ (Nat.zero_le (base w))
    omega
  have hx3' : x3'.toNat = x3.toNat + half w * c := by
    by_cases hcarry : m < x2
    · simp only [x3', c, if_pos hcarry, Nat.mul_one] at hfits ⊢
      rw [← hw.toNat_hlimbBit] at hfits ⊢
      exact BitVec.toNat_add_of_lt (by unfold base at hfits; omega)
    · simp only [x3', c, if_neg hcarry, Nat.mul_zero, Nat.add_zero]
  have hhi : (x3' + (m >>> (w / 2))).toNat = x3.toNat + half w * c + (m >>> (w / 2)).toNat := by
    rw [← hx3'] at hfits ⊢
    exact BitVec.toNat_add_of_lt hfits
  calc wide (umulPpmm u v) = ((m <<< (w / 2)) + (x0 &&& llimbMask)).toNat +
        base w * (x3' + (m >>> (w / 2))).toNat := rfl
    _ = u.toNat * v.toNat := by rw [hlo, hhi, htotal]

end Pobc.MiniGmp
