import Pobc.MiniGmp.Invert
import Pobc.MiniGmp.Mpn
import Pobc.Lib.Loop

/-!
# Division of mini-gmp (`mimc-gmp/mini-gmp.c:95-107,879-1138`)

`mpn_div_qr` on lists of limbs: normalisation by the leading zeros of the divisor, the inverse
of its highest limbs, and a loop for divisors of one, of two and of more limbs. A failed
assertion on a number that the functions compute is `none`.

The assertions on the arguments are left out: that the divisor has limbs (`dn > 0`), the highest of
them not 0 (`d > 0`, `d1 > 0`), and that the numerator has as many (`nn >= dn`). The theorems have
them for hypotheses, and `mpz_mod` meets them. The others (`nn >= 2`, `dn > 2`, the high bit of
`d1`) follow from the branch of `mpn_div_qr_preinv` that makes the call.
-/

namespace Pobc.MiniGmp
open Pobc.Limbs Pobc.Loop

variable {w : ℕ}

/-! ### `gmp_clz` -/

/-- A loop of `gmp_clz`: shift while the bits of the mask are 0. -/
def clzLoop (mask : BitVec w) (step : ℕ) (s : BitVec w × ℕ) : BitVec w × ℕ :=
  whileLoop w (fun (x, _) => x &&& mask == 0) (fun (x, c) => (x <<< step, c + step)) s

/-- `gmp_clz`. -/
def gmpClz (x : BitVec w) : ℕ :=
  let s := (x, 0)
  let s := if w > 8 then clzLoop (0xff#w <<< (w - 8)) 8 s else s
  (clzLoop highbit 1 s).2

theorem getLsbD_mask {k : ℕ} (hk : k ≤ w) (i : ℕ) :
    (BitVec.ofNat w (2 ^ k - 1) <<< (w - k)).getLsbD i =
      (decide (i < w) && decide (w - k ≤ i)) := by
  rw [BitVec.getLsbD_shiftLeft, BitVec.getLsbD_ofNat, Nat.testBit_two_pow_sub_one]
  by_cases hi : i < w
  · by_cases hki : w - k ≤ i
    · have h1 : ¬ i < w - k := by omega
      have h2 : i - (w - k) < w := by omega
      have h3 : i - (w - k) < k := by omega
      simp [hi, hki, h1, h2, h3]
    · have h1 : i < w - k := by omega
      simp [hki, h1]
  · simp [hi]

/- The bits of the mask are 0 exactly in the numbers that a shift loses nothing of. -/
theorem and_mask_eq_zero_iff {k : ℕ} (hk : k ≤ w) (x : BitVec w) :
    x &&& (BitVec.ofNat w (2 ^ k - 1) <<< (w - k)) = 0#w ↔ x.toNat < 2 ^ (w - k) := by
  constructor
  · intro h
    refine Nat.lt_pow_two_of_testBit _ fun i hi => ?_
    have hbit := congrArg (fun y : BitVec w => y.getLsbD i) h
    simp only [BitVec.getLsbD_and, getLsbD_mask hk, BitVec.getLsbD_zero] at hbit
    by_cases hiw : i < w
    · simpa [hi, hiw, BitVec.getLsbD] using hbit
    · exact BitVec.getLsbD_of_ge x i (by omega)
  · intro h
    refine BitVec.eq_of_getLsbD_eq fun i hi => ?_
    rw [BitVec.getLsbD_and, getLsbD_mask hk, BitVec.getLsbD_zero]
    by_cases hki : w - k ≤ i
    · have hbit : x.getLsbD i = false := by
        refine Nat.testBit_lt_two_pow (h.trans_le ?_)
        exact Nat.pow_le_pow_right (by decide) hki
      simp [hbit]
    · simp [hki]

theorem clzLoop_spec {k : ℕ} (hk : 0 < k) (hkw : k ≤ w) {x0 : ℕ} (hx0 : 0 < x0)
    (s : BitVec w × ℕ) (hs : s.1.toNat = x0 * 2 ^ s.2) :
    let t := clzLoop (BitVec.ofNat w (2 ^ k - 1) <<< (w - k)) k s
    t.1.toNat = x0 * 2 ^ t.2 ∧ 2 ^ (w - k) ≤ t.1.toNat := by
  intro t
  have hstep (s : BitVec w × ℕ) (hs : s.1.toNat = x0 * 2 ^ s.2)
      (hcond : (s.1 &&& (BitVec.ofNat w (2 ^ k - 1) <<< (w - k)) == 0) = true) :
      (s.1 <<< k).toNat = x0 * 2 ^ (s.2 + k) ∧ w - (s.2 + k) < w - s.2 := by
    have hlt : s.1.toNat < 2 ^ (w - k) := (and_mask_eq_zero_iff hkw s.1).mp (eq_of_beq hcond)
    have hcount : s.2 < w - k := by
      refine (Nat.pow_lt_pow_iff_right (by decide : 1 < 2)).mp (lt_of_le_of_lt ?_ hlt)
      rw [hs]
      exact Nat.le_mul_of_pos_left _ hx0
    refine ⟨?_, by omega⟩
    rw [toNat_shiftLeft hkw, Nat.mod_eq_of_lt hlt, hs, Nat.pow_add]
    ring
  obtain ⟨hinv, hexit⟩ := whileLoop_inv (fun s : BitVec w × ℕ => s.1.toNat = x0 * 2 ^ s.2)
    (fun s => w - s.2)
    (fun s => s.1 &&& (BitVec.ofNat w (2 ^ k - 1) <<< (w - k)) == 0)
    (fun s => (s.1 <<< k, s.2 + k)) hstep w s hs (Nat.sub_le _ _)
  refine ⟨hinv, Nat.le_of_not_lt fun hlt => ?_⟩
  have hzero := (and_mask_eq_zero_iff hkw _).mpr hlt
  exact ne_of_beq_false hexit hzero

/-- The leading zeros of a limb that is not 0. -/
theorem LimbBits.gmpClz_spec (hw : LimbBits w) {x : BitVec w} (hx : x ≠ 0) :
    gmpClz x < w ∧ x.toNat * 2 ^ gmpClz x < base w ∧ base w ≤ 2 * (x.toNat * 2 ^ gmpClz x) := by
  have hpos : 0 < x.toNat := Nat.pos_of_ne_zero fun h => hx (BitVec.eq_of_toNat_eq h)
  have hw0 := hw.pos
  -- both loops keep the limb times a power of two
  obtain ⟨s, hs, hclz⟩ : ∃ s : BitVec w × ℕ, s.1.toNat = x.toNat * 2 ^ s.2 ∧
      gmpClz x = (clzLoop highbit 1 s).2 := by
    by_cases hgt : w > 8
    · refine ⟨clzLoop (0xff#w <<< (w - 8)) 8 (x, 0), ?_, by simp only [gmpClz, if_pos hgt]⟩
      exact (clzLoop_spec (by decide : 0 < 8) hgt.le hpos (x, 0) (by simp)).1
    · exact ⟨(x, 0), by simp, by simp only [gmpClz, if_neg hgt]⟩
  obtain ⟨hval, hhigh⟩ := clzLoop_spec Nat.one_pos hw0 hpos s hs
  have hmask : (BitVec.ofNat w (2 ^ 1 - 1) <<< (w - 1)) = highbit := rfl
  rw [hmask] at hval hhigh
  have hlt := toNat_lt_base (clzLoop highbit 1 s).1
  have hbase := base_eq_two_mul hw0
  rw [hclz, ← hval]
  refine ⟨?_, hlt, by omega⟩
  refine (Nat.pow_lt_pow_iff_right (by decide : 1 < 2)).mp (lt_of_le_of_lt ?_ hlt)
  rw [hval]
  exact Nat.le_mul_of_pos_left _ hpos

/-! ### The inverse of a divisor -/

/-- `struct gmp_div_inverse`. -/
structure GmpDivInverse (w : ℕ) where
  shift : ℕ
  d1 : BitVec w
  d0 : BitVec w
  di : BitVec w

/-- `mpn_div_qr_1_invert`, which leaves `d0` as it is. -/
def mpnDivQr1Invert (d : BitVec w) : GmpDivInverse w :=
  let shift := gmpClz d
  let d1 := d <<< shift
  { shift, d1, d0 := 0, di := mpnInvert3by2 d1 0 }

/-- `mpn_div_qr_2_invert`. -/
def mpnDivQr2Invert (d1 d0 : BitVec w) : GmpDivInverse w :=
  let shift := gmpClz d1
  let (d1, d0) :=
    if shift > 0 then ((d1 <<< shift) ||| (d0 >>> (w - shift)), d0 <<< shift) else (d1, d0)
  { shift, d1, d0, di := mpnInvert3by2 d1 d0 }

/-- `mpn_div_qr_invert`. -/
def mpnDivQrInvert (dp : List (BitVec w)) : GmpDivInverse w :=
  let dn := dp.length
  if dn = 1 then mpnDivQr1Invert (dp.getD 0 0)
  else if dn = 2 then mpnDivQr2Invert (dp.getD 1 0) (dp.getD 0 0)
  else
    let d1 := dp.getD (dn - 1) 0
    let d0 := dp.getD (dn - 2) 0
    let shift := gmpClz d1
    let (d1, d0) :=
      if shift > 0 then
        ((d1 <<< shift) ||| (d0 >>> (w - shift)),
          (d0 <<< shift) ||| (dp.getD (dn - 3) 0 >>> (w - shift)))
      else (d1, d0)
    { shift, d1, d0, di := mpnInvert3by2 d1 d0 }

/-! ### Division with the inverse -/

/-- `if (shift > 0) n1 = mpn_lshift (np, np, nn, shift); else n1 = 0;` -/
def shiftUp (np : List (BitVec w)) (shift : ℕ) : List (BitVec w) × BitVec w :=
  if shift > 0 then mpnLshift np shift else (np, 0)

/-- `mpn_div_qr_1_preinv`: the quotient and the remainder. -/
def mpnDivQr1Preinv (np : List (BitVec w)) (inv : GmpDivInverse w) :
    List (BitVec w) × BitVec w :=
  let (np, r) := shiftUp np inv.shift
  let (qp, r) := chainDown (fun n r => udivQrnndPreinv r n inv.d1 inv.di) np r
  (qp, r >>> inv.shift)

/-- `mpn_div_qr_2_preinv`: the quotient, and what it writes to `np[0]` and `np[1]`. -/
def mpnDivQr2Preinv (np : List (BitVec w)) (inv : GmpDivInverse w) :
    Option (List (BitVec w) × List (BitVec w)) :=
  let shift := inv.shift
  let (np, r1) := shiftUp np shift
  let r0 := np.getD (np.length - 1) 0
  let (qp, r1, r0) := chainDown (fun n0 (r1, r0) => udivQr3by2 r1 r0 n0 inv.d1 inv.d0 inv.di)
    (np.take (np.length - 1)) (r1, r0)
  if shift > 0 then
    if r0 &&& (limbMax >>> (w - shift)) = 0 then
      some (qp, [(r0 >>> shift) ||| (r1 <<< (w - shift)), r1 >>> shift])
    else none
  else some (qp, [r0, r1])

/-- A round of `mpn_div_qr_pi1`, on the limbs `np[i..]` of the length of the divisor: the quotient
limb, and the remainder with its highest limb `n1` apart. -/
def pi1Step (dp : List (BitVec w)) (dinv : BitVec w) (np : List (BitVec w)) (n1 : BitVec w) :
    BitVec w × List (BitVec w) × BitVec w :=
  let dn := dp.length
  let d1 := dp.getD (dn - 1) 0
  let d0 := dp.getD (dn - 2) 0
  let n0 := np.getD (dn - 1) 0
  if n1 = d1 ∧ n0 = d0 then
    let q := limbMax
    let (np, _) := mpnSubmul1 np dp q
    (q, np.take (dn - 1), np.getD (dn - 1) 0)
  else
    let (q, n1, n0) := udivQr3by2 n1 n0 (np.getD (dn - 2) 0) d1 d0 dinv
    let (np, cy) := mpnSubmul1 (np.take (dn - 2)) (dp.take (dn - 2)) q
    let cy1 := flag (n0 < cy)
    let n0 := n0 - cy
    let cy : BitVec w := flag (n1 < cy1)
    let n1 := n1 - cy1
    let np := np ++ [n0]
    if cy ≠ 0 then
      let (np, cy) := mpnAddN np (dp.take (dn - 1))
      (q - 1, np, n1 + (d1 + cy))
    else (q, np, n1)

/-- `mpn_div_qr_pi1`. -/
def mpnDivQrPi1 (np : List (BitVec w)) (n1 : BitVec w) (dp : List (BitVec w)) (dinv : BitVec w) :
    List (BitVec w) × List (BitVec w) :=
  let i := np.length - dp.length
  let (qp, np, n1) := chainDown (fun n (np, n1) => pi1Step dp dinv (n :: np) n1)
    (np.take (i + 1)) (np.drop (i + 1), n1)
  (qp, np ++ [n1])

/-- `mpn_div_qr_preinv`: the quotient and the remainder. -/
def mpnDivQrPreinv (np dp : List (BitVec w)) (inv : GmpDivInverse w) :
    Option (List (BitVec w) × List (BitVec w)) :=
  let dn := dp.length
  if dn = 1 then
    let (qp, r) := mpnDivQr1Preinv np inv
    some (qp, [r])
  else if dn = 2 then mpnDivQr2Preinv np inv
  else if inv.d1 = dp.getD (dn - 1) 0 ∧ inv.d0 = dp.getD (dn - 2) 0 ∧ inv.d1 &&& highbit ≠ 0 then
    let shift := inv.shift
    let (np, nh) := shiftUp np shift
    let (qp, np) := mpnDivQrPi1 np nh dp inv.di
    if shift > 0 then
      let (np, cy) := mpnRshift np shift
      if cy = 0 then some (qp, np) else none
    else some (qp, np)
  else none

/-- `mpn_div_qr`. -/
def mpnDivQr (np dp : List (BitVec w)) : Option (List (BitVec w) × List (BitVec w)) :=
  let inv := mpnDivQrInvert dp
  if dp.length > 2 ∧ inv.shift > 0 then
    let (tp, cy) := mpnLshift dp inv.shift
    if cy = 0 then mpnDivQrPreinv np tp inv else none
  else mpnDivQrPreinv np dp inv

/-! ### A round of `mpn_div_qr_pi1` -/

/- A number and its two highest limbs. -/
theorem value_top_two (l : List (BitVec w)) (hl : 2 ≤ l.length) :
    value l = value (l.take (l.length - 2)) +
      base w ^ (l.length - 2) * wide (l.getD (l.length - 1) 0, l.getD (l.length - 2) 0) := by
  have h := value_take_succ l (l.length - 2) (by omega)
  have hsucc : l.length - 2 + 1 = l.length - 1 := by omega
  have hpow : base w ^ (l.length - 1) = base w ^ (l.length - 2) * base w := by
    rw [← Nat.pow_succ, Nat.succ_eq_add_one, hsucc]
  rw [hsucc] at h
  rw [value_top l (by omega), h, hpow, wide]
  ring

/- The quotient limb for the numbers `W` and `dl + B * d`, when the highest limbs of `W` are `d`:
it is the greatest limb. -/
theorem greatest_quotient {β B d dl W D : ℤ} (hβ : 0 < β) (hB : 0 < B) (hdl0 : 0 ≤ dl)
    (hdl : dl < B) (hd : β ≤ d) (hD : D = dl + B * d) (hW : W < β * D) (hWv : B * β * d ≤ W) :
    0 ≤ W - (β - 1) * D ∧ W - (β - 1) * D < D := by
  have h1 : β * dl ≤ β * B := mul_le_mul_of_nonneg_left hdl.le hβ.le
  have h2 : B * β ≤ B * d := mul_le_mul_of_nonneg_left hd hB.le
  constructor
  · subst hD
    linarith
  · linarith

/- The quotient limb `q` of the three highest limbs is at most one too much; `r` is its remainder,
`lo` and `cy` what the other limbs leave. -/
theorem quotient_or_one_less {β B d dl nl q r lo cy W D : ℤ} (hB : 0 < B) (hdl0 : 0 ≤ dl)
    (hdl : dl < B) (hd : β ≤ d) (hD : D = dl + B * d) (hnl0 : 0 ≤ nl)
    (hq0 : 0 ≤ q) (hq : q < β) (hr0 : 0 ≤ r) (hr : r < d) (hlo0 : 0 ≤ lo) (hlo : lo < B)
    (hcy : 0 ≤ cy) (hsub : lo + dl * q = nl + B * cy) (hW : W = nl + B * (q * d + r)) :
    W - q * D = lo + B * (r - cy) ∧ (cy ≤ r → 0 ≤ W - q * D ∧ W - q * D < D) ∧
      (r < cy → W - q * D < 0 ∧ 0 ≤ W - (q - 1) * D) := by
  have hrest : W - q * D = lo + B * (r - cy) := by
    rw [hW, hD]
    linear_combination -hsub
  have hprod : q * dl ≤ β * B := mul_le_mul hq.le hdl.le hdl0 (by omega)
  have hscale : B * β ≤ B * d := mul_le_mul_of_nonneg_left hd hB.le
  refine ⟨hrest, fun hle => ?_, fun hlt => ?_⟩
  · have h0 : 0 ≤ B * (r - cy) := mul_nonneg hB.le (by omega)
    have h1 : B * (r - cy) ≤ B * (d - 1) := mul_le_mul_of_nonneg_left (by omega) hB.le
    rw [hrest, hD]
    constructor
    · linarith
    · linarith
  · have h1 : B * (r - cy) ≤ B * -1 := mul_le_mul_of_nonneg_left (by omega) hB.le
    have h2 : 0 ≤ B * r := mul_nonneg hB.le hr0
    constructor
    · rw [hrest]
      linarith
    · rw [hW, hD]
      linarith

theorem toNat_limbMax : (limbMax : BitVec w).toNat = base w - 1 := by
  have h : (limbMax : BitVec w).toNat = base w - 1 - (0#w).toNat := BitVec.toNat_not
  rwa [BitVec.toNat_zero, Nat.sub_zero] at h

/-- The numbers of a round by their highest limbs: `W` is the window of `np` with the limb `n1`
above it, `m` the third limb from the top. -/
structure Round (dp np : List (BitVec w)) (d1 d0 n1 n0 m : BitVec w) (k : ℕ) (W : ℤ) : Prop where
  dn : dp.length = k + 2
  nn : np.length = k + 2
  divisor : (value dp : ℤ) = value (dp.take k) + base w ^ k * wide (d1, d0)
  top : (value dp : ℤ) = value (dp.take (k + 1)) + base w ^ (k + 1) * d1.toNat
  numerator : W = value np + base w ^ (k + 2) * n1.toNat
  window : W = value (np.take k) + base w ^ k * (m.toNat + base w * wide (n1, n0))
  lt : W < base w * value dp
  high : base w ≤ 2 * d1.toNat

theorem round_of_lt {dp np : List (BitVec w)} {n1 : BitVec w} {k : ℕ} (hdn : dp.length = k + 2)
    (hnn : np.length = k + 2) (hd1 : base w ≤ 2 * (dp.getD (k + 1) 0).toNat)
    (hlt : value (np.drop 1) + base w ^ (k + 1) * n1.toNat < value dp) :
    Round dp np (dp.getD (k + 1) 0) (dp.getD k 0) n1 (np.getD (k + 1) 0) (np.getD k 0) k
      (value np + base w ^ (k + 2) * n1.toNat) := by
  have hk1 : k + 2 - 1 = k + 1 := rfl
  have hk2 : k + 2 - 2 = k := rfl
  constructor
  case dn => exact hdn
  case nn => exact hnn
  case divisor =>
    have h := value_top_two dp (by omega)
    rw [hdn, hk1, hk2] at h
    exact_mod_cast h
  case top =>
    have h := value_top dp (by omega)
    rw [hdn, hk1] at h
    exact_mod_cast h
  case numerator => rfl
  case window =>
    have h := value_top_two np (by omega)
    rw [hnn, hk1, hk2] at h
    have h' : (value np : ℤ) = value (np.take k) +
      base w ^ k * wide (np.getD (k + 1) 0, np.getD k 0) := by exact_mod_cast h
    rw [h', wide_cast, wide_cast]
    ring
  case lt =>
    have hsplit := value_take_add_drop np 1 (by omega)
    have hlow := value_lt (np.take 1)
    rw [List.length_take_of_le (by omega), Nat.pow_one] at hlow
    rw [Nat.pow_one] at hsplit
    have hmul := Nat.mul_le_mul_left (base w) (Nat.succ_le_of_lt hlt)
    have hpow : (base w : ℤ) ^ (k + 2) = base w * base w ^ (k + 1) := pow_succ' _ _
    rw [← hsplit, hpow]
    zify at hlow hmul
    push_cast
    linarith
  case high => exact hd1

/- A borrow out of the lower limbs, taken off two limbs. -/
theorem wide_sub_borrow (hw : 0 < w) (r1 r0 cy : BitVec w) :
    (wide (r1 - flag (r0 < cy), r0 - cy) : ℤ) = wide (r1, r0) - cy.toNat +
      base w * base w * (if r1 < (flag (r0 < cy) : BitVec w) then 1 else 0) := by
  have hlow := toNat_sub_borrow r0 cy
  have hhigh := toNat_sub_borrow r1 (flag (r0 < cy))
  rw [toNat_flag hw] at hhigh
  zify at hlow hhigh
  rw [wide_cast, wide_cast]
  linear_combination hlow + (base w : ℤ) * hhigh

section Round

variable {dp np : List (BitVec w)} {d1 d0 n1 n0 m : BitVec w} {k : ℕ} {W : ℤ}
  (R : Round dp np d1 d0 n1 n0 m k W)

include R

theorem Round.low_lt : (value (dp.take k) : ℤ) < base w ^ k := by
  have h := value_lt (dp.take k)
  rw [List.length_take_of_le (by rw [R.dn]; omega)] at h
  exact_mod_cast h

theorem Round.value_lt : (value dp : ℤ) < base w ^ (k + 2) := by
  have h := Limbs.value_lt dp
  rw [R.dn] at h
  exact_mod_cast h

theorem Round.base_le : (base w : ℤ) ≤ wide (d1, d0) := by
  have hone : 1 ≤ d1.toNat := by
    have hpos := base_pos w
    have hhigh := R.high
    omega
  have hmul := Nat.mul_le_mul_left (base w) hone
  rw [wide_cast]
  zify at hmul
  linarith [Int.natCast_nonneg d0.toNat]

theorem Round.wide_le : wide (n1, n0) ≤ wide (d1, d0) := by
  by_contra hgt
  have hβ : (0 : ℤ) < base w := by exact_mod_cast base_pos w
  have hB : (0 : ℤ) < base w ^ k := pow_pos hβ k
  have hsucc : (wide (d1, d0) : ℤ) + 1 ≤ wide (n1, n0) := by omega
  have hmul := mul_le_mul_of_nonneg_left hsucc (mul_pos hB hβ).le
  have hmul' := mul_lt_mul_of_pos_left R.low_lt hβ
  have hm0 : (0 : ℤ) ≤ base w ^ k * m.toNat := mul_nonneg hB.le (Int.natCast_nonneg _)
  have hlt := R.lt
  rw [R.window, R.divisor] at hlt
  linarith [Int.natCast_nonneg (value (np.take k))]

variable (hw : LimbBits w)

include hw

/- The highest limbs are equal: the greatest limb is the quotient. -/
theorem Round.greatest (heq : n1 = d1 ∧ n0 = d0) :
    let l := (mpnSubmul1 np dp limbMax).1
    (value l : ℤ) = W - (limbMax : BitVec w).toNat * value dp ∧ (value l : ℤ) < value dp ∧
      l.length = k + 2 := by
  intro l
  have hβ : (0 : ℤ) < base w := by exact_mod_cast base_pos w
  have hB : (0 : ℤ) < base w ^ k := pow_pos hβ k
  have hmax : ((limbMax : BitVec w).toNat : ℤ) = base w - 1 := by
    rw [toNat_limbMax, Nat.cast_sub (base_pos w), Nat.cast_one]
  have hlen : l.length = k + 2 := by simp [l, mpnSubmul1, length_chain, R.nn, R.dn]
  have hsub := submul1_value hw np dp limbMax (R.dn.trans R.nn.symm)
  obtain ⟨h0, hlt⟩ := greatest_quotient hβ hB (Int.natCast_nonneg _) R.low_lt R.base_le R.divisor
    R.lt (by
      rw [R.window, heq.1, heq.2]
      have hm0 : (0 : ℤ) ≤ base w ^ k * m.toNat := mul_nonneg hB.le (Int.natCast_nonneg _)
      linarith [Int.natCast_nonneg (value (np.take k))])
  have hval : (value l : ℤ) = W - (base w - 1) * value dp := by
    have hrange := Limbs.value_lt l
    rw [hlen] at hrange
    refine eq_of_modEq (m := base w ^ (k + 2)) (Int.modEq_iff_dvd.mpr
      ⟨n1.toNat - (mpnSubmul1 np dp limbMax).2.toNat, ?_⟩) (Int.natCast_nonneg _)
      (by exact_mod_cast hrange) h0 (hlt.trans R.value_lt)
    rw [R.dn] at hsub
    zify at hsub
    rw [hmax] at hsub
    rw [R.numerator]
    linear_combination -hsub
  rw [hmax]
  exact ⟨hval, hval ▸ hlt, hlen⟩

omit hw in
/- The highest limbs differ: they are less than those of the divisor. -/
theorem Round.wide_lt_of_ne (hne : ¬ (n1 = d1 ∧ n0 = d0)) : wide (n1, n0) < wide (d1, d0) := by
  refine lt_of_le_of_ne R.wide_le fun h => hne ?_
  obtain ⟨h0, h1⟩ := split_unique (toNat_lt_base n0) (toNat_lt_base d0) h
  exact ⟨BitVec.eq_of_toNat_eq h1, BitVec.eq_of_toNat_eq h0⟩

/- Three limbs by two, then the product with the other limbs: what is left, in terms of the two
highest limbs `y.2` and the borrow `z.2` of the others. -/
theorem Round.subtracted {dinv : BitVec w} (hinv : Inverse3by2 d1 d0 dinv)
    (hne : ¬ (n1 = d1 ∧ n0 = d0)) :
    let y := udivQr3by2 n1 n0 m d1 d0 dinv
    let z := mpnSubmul1 (np.take k) (dp.take k) y.1
    let V := W - y.1.toNat * value dp
    z.1.length = k ∧ V = value z.1 + base w ^ k * (wide y.2 - z.2.toNat) ∧
      ((z.2.toNat : ℤ) ≤ wide y.2 → V < value dp) ∧
      ((wide y.2 : ℤ) < z.2.toNat → V < 0 ∧ 0 ≤ V + value dp) := by
  intro y z V
  have hB : (0 : ℤ) < base w ^ k := pow_pos (by exact_mod_cast base_pos w) k
  obtain ⟨hquot, hrem⟩ := hw.udivQr3by2_spec R.high hinv (R.wide_lt_of_ne hne) m
  have hsub := submul1_value hw (np.take k) (dp.take k) y.1 (by simp [R.nn, R.dn])
  have hzlen : z.1.length = k := by simp [z, mpnSubmul1, length_chain, R.nn, R.dn]
  have hlo := Limbs.value_lt z.1
  rw [List.length_take_of_le (by rw [R.dn]; omega)] at hsub
  rw [hzlen] at hlo
  have hW : W = value (np.take k) + base w ^ k * (y.1.toNat * wide (d1, d0) + wide y.2) := by
    have hquot' : (y.1.toNat * wide (d1, d0) + wide y.2 : ℤ) =
      wide (n1, n0) * base w + m.toNat := by exact_mod_cast hquot
    rw [R.window, hquot']
    ring
  obtain ⟨hrest, hkeep, hback⟩ := quotient_or_one_less hB (Int.natCast_nonneg _) R.low_lt
    R.base_le R.divisor (Int.natCast_nonneg _) (Int.natCast_nonneg _) (toNat_lt_base' y.1)
    (Int.natCast_nonneg _) (by exact_mod_cast hrem) (Int.natCast_nonneg _)
    (by exact_mod_cast hlo) (Int.natCast_nonneg _) (by exact_mod_cast hsub) hW
  refine ⟨hzlen, hrest, fun hle => (hkeep hle).2, fun hlt => ?_⟩
  obtain ⟨hneg, hnonneg⟩ := hback hlt
  refine ⟨hneg, ?_⟩
  simp only [V]
  linarith

/- The remainder `l` with `b1` above it is below 0 when the estimate was one too much. -/
theorem Round.estimated {dinv : BitVec w} (hinv : Inverse3by2 d1 d0 dinv)
    (hne : ¬ (n1 = d1 ∧ n0 = d0)) :
    let y := udivQr3by2 n1 n0 m d1 d0 dinv
    let z := mpnSubmul1 (np.take k) (dp.take k) y.1
    let cy1 : BitVec w := flag (y.2.2 < z.2)
    let l := z.1 ++ [y.2.2 - z.2]
    let V := W - y.1.toNat * value dp
    l.length = k + 1 ∧
      (¬ y.2.1 < cy1 →
        (value l : ℤ) + base w ^ (k + 1) * (y.2.1 - cy1).toNat = V ∧ V < value dp) ∧
      (y.2.1 < cy1 →
        (value l : ℤ) + base w ^ (k + 1) * (y.2.1 - cy1).toNat = V + base w ^ (k + 2) ∧
        V < 0 ∧ 0 ≤ V + value dp ∧ y.1.toNat ≠ 0) := by
  intro y z cy1 l V
  obtain ⟨hzlen, hrest, hkeep, hback⟩ : z.1.length = k ∧
      V = value z.1 + base w ^ k * (wide y.2 - z.2.toNat) ∧
      ((z.2.toNat : ℤ) ≤ wide y.2 → V < value dp) ∧
      ((wide y.2 : ℤ) < z.2.toNat → V < 0 ∧ 0 ≤ V + value dp) := R.subtracted hw hinv hne
  have hwide : (wide (y.2.1 - cy1, y.2.2 - z.2) : ℤ) = wide y.2 - z.2.toNat +
      base w * base w * (if y.2.1 < cy1 then 1 else 0) := wide_sub_borrow hw.pos y.2.1 y.2.2 z.2
  have hl : (value l : ℤ) + base w ^ (k + 1) * (y.2.1 - cy1).toNat =
      value z.1 + base w ^ k * wide (y.2.1 - cy1, y.2.2 - z.2) := by
    rw [wide_cast, value_concat, hzlen]
    push_cast
    ring
  refine ⟨by simp [l, hzlen], fun hc => ?_, fun hc => ?_⟩
  · rw [if_neg hc, mul_zero, add_zero] at hwide
    refine ⟨?_, hkeep (by linarith [Int.natCast_nonneg (wide (y.2.1 - cy1, y.2.2 - z.2))])⟩
    rw [hl, hwide]
    exact hrest.symm
  · rw [if_pos hc, mul_one] at hwide
    have hwlt : (wide (y.2.1 - cy1, y.2.2 - z.2) : ℤ) < base w * base w := by
      exact_mod_cast wide_lt (y.2.1 - cy1, y.2.2 - z.2)
    obtain ⟨hneg, hnonneg⟩ := hback (by linarith)
    refine ⟨?_, hneg, hnonneg, fun hzero => ?_⟩
    · rw [hl, hwide]
      linear_combination -hrest
    · have hW0 : 0 ≤ W := by
        rw [R.window]
        positivity
      simp only [V, hzero, Nat.cast_zero, zero_mul, sub_zero] at hneg
      omega

/- The divisor added back to a remainder below 0, modulo one limb more than it has. -/
theorem Round.addBack {l : List (BitVec w)} {b1 : BitVec w} {V : ℤ} (hlen : l.length = k + 1)
    (hval : (value l : ℤ) + base w ^ (k + 1) * b1.toNat = V + base w ^ (k + 2)) (hneg : V < 0)
    (hnonneg : 0 ≤ V + value dp) :
    let s := mpnAddN l (dp.take (k + 1))
    (value s.1 : ℤ) + base w ^ (k + 1) * (b1 + (d1 + s.2)).toNat = V + value dp ∧
      s.1.length = k + 1 := by
  intro s
  have hadd := (addN_value hw.pos l (dp.take (k + 1)) (by simp [hlen, R.dn])).1
  have hslen : s.1.length = k + 1 := by simp [s, mpnAddN, length_chain, hlen, R.dn]
  have hhigh : ((b1 + (d1 + s.2)).toNat : ℤ) ≡ b1.toNat + (d1.toNat + s.2.toNat)
      [ZMOD base w] := modEq_add rfl (modEq_toNat_add d1 s.2)
  have hmod := (hhigh.mul_left' (c := base w ^ (k + 1))).add_left (value s.1 : ℤ)
  have hsum : (value s.1 : ℤ) + base w ^ (k + 1) * (b1.toNat + (d1.toNat + s.2.toNat)) =
      V + value dp + base w ^ (k + 1) * base w * 1 := by
    rw [hlen] at hadd
    zify at hadd
    rw [R.top]
    linear_combination hadd + hval
  rw [hsum] at hmod
  have hfits := Limbs.value_lt (s.1 ++ [b1 + (d1 + s.2)])
  rw [value_concat, List.length_append, List.length_singleton, hslen] at hfits
  refine ⟨eq_of_modEq (m := base w ^ (k + 1) * base w) (hmod.trans ?_) (by positivity) ?_
    hnonneg ?_, hslen⟩
  · exact Int.modEq_iff_dvd.mpr ⟨-1, by ring⟩
  · rw [← pow_succ]
    exact_mod_cast hfits
  · rw [← pow_succ]
    linarith [R.value_lt]

end Round

/-- What a round makes of `W`: a limb of the quotient, and the remainder in `k + 1` limbs with one
above them. -/
structure Rounded (dp : List (BitVec w)) (k : ℕ) (W : ℤ)
    (x : BitVec w × List (BitVec w) × BitVec w) : Prop where
  length : x.2.1.length = k + 1
  value_eq : (value x.2.1 : ℤ) + base w ^ (k + 1) * x.2.2.toNat = W - x.1.toNat * value dp
  lt : W - x.1.toNat * value dp < value dp

section Rounded

variable (hw : LimbBits w) {dp np : List (BitVec w)} {n1 : BitVec w} {k : ℕ} {W : ℤ}
  (R : Round dp np (dp.getD (k + 1) 0) (dp.getD k 0) n1 (np.getD (k + 1) 0) (np.getD k 0) k W)

include hw R

theorem Round.rounded_greatest (dinv : BitVec w)
    (heq : n1 = dp.getD (k + 1) 0 ∧ np.getD (k + 1) 0 = dp.getD k 0) :
    Rounded dp k W (pi1Step dp dinv np n1) := by
  have hk1 : dp.length - 1 = k + 1 := by
    rw [R.dn]
    rfl
  have hk2 : dp.length - 2 = k := by
    rw [R.dn]
    rfl
  obtain ⟨hval, hrange, hlen⟩ := R.greatest hw heq
  have htop := value_top (mpnSubmul1 np dp limbMax).1 (by omega)
  rw [hlen] at htop
  have hx : pi1Step dp dinv np n1 = (limbMax, (mpnSubmul1 np dp limbMax).1.take (k + 1),
      (mpnSubmul1 np dp limbMax).1.getD (k + 1) 0) := by
    simp only [pi1Step]
    rw [hk1, hk2, if_pos heq]
  rw [hx]
  constructor
  · simp [hlen]
  · rw [← hval]
    exact_mod_cast htop.symm
  · exact hval ▸ hrange

theorem Round.rounded_estimated {dinv : BitVec w}
    (hinv : Inverse3by2 (dp.getD (k + 1) 0) (dp.getD k 0) dinv)
    (hne : ¬ (n1 = dp.getD (k + 1) 0 ∧ np.getD (k + 1) 0 = dp.getD k 0)) :
    Rounded dp k W (pi1Step dp dinv np n1) := by
  have hk1 : dp.length - 1 = k + 1 := by
    rw [R.dn]
    rfl
  have hk2 : dp.length - 2 = k := by
    rw [R.dn]
    rfl
  obtain ⟨hlen, hkeep, hback⟩ := R.estimated hw hinv hne
  obtain ⟨y, hy⟩ : ∃ y, y = udivQr3by2 n1 (np.getD (k + 1) 0) (np.getD k 0)
    (dp.getD (k + 1) 0) (dp.getD k 0) dinv := ⟨_, rfl⟩
  obtain ⟨z, hz⟩ : ∃ z, z = mpnSubmul1 (np.take k) (dp.take k) y.1 := ⟨_, rfl⟩
  rw [← hy, ← hz] at hlen hkeep hback
  by_cases hc : y.2.1 < (flag (y.2.2 < z.2) : BitVec w)
  · obtain ⟨hval, hneg, hnonneg, hq0⟩ := hback hc
    obtain ⟨hsum, hslen⟩ := R.addBack hw hlen hval hneg hnonneg
    have hq : ((y.1 - 1).toNat : ℤ) = y.1.toNat - 1 :=
      toNat_eq_of_modEq (modEq_sub rfl (modEq_one hw.pos)) (by omega)
        (by linarith [toNat_lt_base' y.1])
    obtain ⟨s, hs⟩ : ∃ s, s = mpnAddN (z.1 ++ [y.2.2 - z.2]) (dp.take (k + 1)) := ⟨_, rfl⟩
    rw [← hs] at hsum hslen
    have hx : pi1Step dp dinv np n1 = (y.1 - 1, s.1,
        y.2.1 - flag (y.2.2 < z.2) + (dp.getD (k + 1) 0 + s.2)) := by
      simp only [pi1Step]
      rw [hk1, hk2, if_neg hne, ← hy, ← hz, if_pos ((flag_ne_zero_iff hw.pos _).mpr hc), ← hs]
    rw [hx]
    constructor
    · exact hslen
    · rw [hsum, hq]
      ring
    · rw [hq]
      linarith
  · obtain ⟨hval, hrange⟩ := hkeep hc
    have hx : pi1Step dp dinv np n1 = (y.1, z.1 ++ [y.2.2 - z.2],
        y.2.1 - flag (y.2.2 < z.2)) := by
      simp only [pi1Step]
      rw [hk1, hk2, if_neg hne, ← hy, ← hz, if_neg (mt (flag_ne_zero_iff hw.pos _).mp hc)]
    rw [hx]
    exact ⟨hlen, hval, hrange⟩

end Rounded

/-- A round of the long division: one limb of the quotient, and the remainder. -/
theorem pi1Step_spec (hw : LimbBits w) {dp : List (BitVec w)} {dinv : BitVec w}
    (hdn : 3 ≤ dp.length) (hd1 : base w ≤ 2 * (dp.getD (dp.length - 1) 0).toNat)
    (hinv : Inverse3by2 (dp.getD (dp.length - 1) 0) (dp.getD (dp.length - 2) 0) dinv)
    (np : List (BitVec w)) (n1 : BitVec w) (hnp : np.length = dp.length)
    (hlt : value (np.drop 1) + base w ^ (dp.length - 1) * n1.toNat < value dp) :
    let x := pi1Step dp dinv np n1
    x.1.toNat * value dp + (value x.2.1 + base w ^ (dp.length - 1) * x.2.2.toNat) =
        value np + base w ^ dp.length * n1.toNat ∧
      value x.2.1 + base w ^ (dp.length - 1) * x.2.2.toNat < value dp ∧
      x.2.1.length = dp.length - 1 := by
  obtain ⟨k, hk⟩ : ∃ k, dp.length = k + 2 := ⟨dp.length - 2, by omega⟩
  have hk1 : dp.length - 1 = k + 1 := by omega
  have hk2 : dp.length - 2 = k := by omega
  rw [hk1] at hd1 hlt hinv
  rw [hk2] at hinv
  have R := round_of_lt hk (hnp.trans hk) hd1 hlt
  have hrounded : Rounded dp k (value np + base w ^ (k + 2) * n1.toNat)
      (pi1Step dp dinv np n1) := by
    by_cases heq : n1 = dp.getD (k + 1) 0 ∧ np.getD (k + 1) 0 = dp.getD k 0
    · exact R.rounded_greatest hw dinv heq
    · exact R.rounded_estimated hw hinv heq
  obtain ⟨hlen, hval, hrange⟩ := hrounded
  intro x
  rw [hk1, hk]
  refine ⟨?_, ?_, hlen⟩
  · zify
    rw [hval]
    ring
  · zify
    rwa [hval]

/-! ### The loops -/

theorem divQr1Loop_spec (hw : LimbBits w) {d di : BitVec w} (hd : base w ≤ 2 * d.toNat)
    (hdi : Inverse d di) (np : List (BitVec w)) {r : BitVec w} (hr : r < d) :
    let x := chainDown (fun n r => udivQrnndPreinv r n d di) np r
    x.2 < d ∧ value x.1 * d.toNat + x.2.toNat = value np + base w ^ np.length * r.toNat :=
  value_chainDown _ d.toNat BitVec.toNat (fun r => r < d) (fun n r hr => by
    obtain ⟨hval, hlt⟩ := hw.udivQrnndPreinv_spec hd hdi hr n
    exact ⟨hlt, hval⟩) np r hr

theorem divQr2Loop_spec (hw : LimbBits w) {d1 d0 di : BitVec w} (hd : base w ≤ 2 * d1.toNat)
    (hdi : Inverse3by2 d1 d0 di) (np : List (BitVec w)) {r : BitVec w × BitVec w}
    (hr : wide r < wide (d1, d0)) :
    let x := chainDown (fun n0 (r1, r0) => udivQr3by2 r1 r0 n0 d1 d0 di) np r
    wide x.2 < wide (d1, d0) ∧
      value x.1 * wide (d1, d0) + wide x.2 = value np + base w ^ np.length * wide r :=
  value_chainDown _ (wide (d1, d0)) wide (fun r => wide r < wide (d1, d0)) (fun n r hr => by
    obtain ⟨hval, hlt⟩ := hw.udivQr3by2_spec hd hdi hr n
    refine ⟨hlt, ?_⟩
    rw [hval]
    ring) np r hr

theorem divQrPi1_spec (hw : LimbBits w) {dp : List (BitVec w)} {dinv : BitVec w}
    (hdn : 3 ≤ dp.length) (hd1 : base w ≤ 2 * (dp.getD (dp.length - 1) 0).toNat)
    (hinv : Inverse3by2 (dp.getD (dp.length - 1) 0) (dp.getD (dp.length - 2) 0) dinv)
    (np : List (BitVec w)) (n1 : BitVec w) (hnn : dp.length ≤ np.length)
    (hlt : n1 < dp.getD (dp.length - 1) 0) :
    let x := mpnDivQrPi1 np n1 dp dinv
    value x.1 * value dp + value x.2 = value np + base w ^ np.length * n1.toNat ∧
      value x.2 < value dp ∧ x.2.length = dp.length ∧
      x.1.length = np.length - dp.length + 1 := by
  obtain ⟨k, hk⟩ : ∃ k, dp.length = k + 1 := ⟨dp.length - 1, by omega⟩
  obtain ⟨i, hi⟩ : ∃ i, np.length = i + dp.length := ⟨np.length - dp.length, by omega⟩
  have hk1 : dp.length - 1 = k := by omega
  have hi1 : np.length - dp.length = i := by omega
  have hdrop : (np.drop (i + 1)).length = k := by
    rw [List.length_drop]
    omega
  have hstart : value (np.drop (i + 1)) + base w ^ k * n1.toNat < value dp := by
    have hlow := value_lt (np.drop (i + 1))
    have htop := value_top dp (by omega)
    have hmul := Nat.mul_le_mul_left (base w ^ k) (Nat.succ_le_of_lt (BitVec.lt_def.mp hlt))
    rw [hdrop] at hlow
    rw [hk1] at htop hmul
    rw [Nat.mul_succ] at hmul
    omega
  obtain ⟨⟨hlen, hrange⟩, hval⟩ := value_chainDown
    (fun n (s : List (BitVec w) × BitVec w) => pi1Step dp dinv (n :: s.1) s.2) (value dp)
    (fun s => value s.1 + base w ^ k * s.2.toNat)
    (fun s => s.1.length = k ∧ value s.1 + base w ^ k * s.2.toNat < value dp)
    (fun n s hs => by
      obtain ⟨hval, hrange, hlen⟩ := pi1Step_spec hw hdn hd1 hinv (n :: s.1) s.2
        (by rw [List.length_cons, hs.1, hk]) (by rw [hk1]; exact hs.2)
      rw [hk1] at hval hrange hlen
      refine ⟨⟨hlen, hrange⟩, ?_⟩
      rw [hval, value_cons, hk, Nat.pow_succ]
      ring) (np.take (i + 1)) (np.drop (i + 1), n1) ⟨hdrop, hstart⟩
  have hsplit := value_take_add_drop np (i + 1) (by omega)
  have htake : (np.take (i + 1)).length = i + 1 := List.length_take_of_le (by omega)
  have hpow : base w ^ np.length = base w ^ (i + 1) * base w ^ k := by
    rw [← Nat.pow_add, hi, hk]
    congr 1
    omega
  rw [htake] at hval
  intro x
  have hx : x = ((chainDown (fun n (s : List (BitVec w) × BitVec w) =>
      pi1Step dp dinv (n :: s.1) s.2) (np.take (i + 1)) (np.drop (i + 1), n1)).1,
      (chainDown (fun n (s : List (BitVec w) × BitVec w) =>
        pi1Step dp dinv (n :: s.1) s.2) (np.take (i + 1)) (np.drop (i + 1), n1)).2.1 ++
      [(chainDown (fun n (s : List (BitVec w) × BitVec w) =>
        pi1Step dp dinv (n :: s.1) s.2) (np.take (i + 1)) (np.drop (i + 1), n1)).2.2]) := by
    rw [← hi1]
    rfl
  rw [hx]
  refine ⟨?_, ?_, ?_, ?_⟩
  · rw [value_concat, hlen, hval, ← hsplit, hpow]
    ring
  · rw [value_concat, hlen]
    exact hrange
  · simp [hlen, hk]
  · rw [length_chainDown, htake, hi1]

end Pobc.MiniGmp
