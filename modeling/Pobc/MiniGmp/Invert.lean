import Pobc.MiniGmp.Udiv

/-!
# The inverse of two limbs (`mimc-gmp/mini-gmp.c:764-877`)

`mpn_invert_3by2`: the high half of the inverse of the higher limb from one division by a
half-limb, the low half as a 3/2 division on half-limbs with the high half for its inverse,
and an adjustment for the lower limb.
-/

namespace Pobc.MiniGmp
open Pobc.Limbs Pobc.Reciprocal

variable {w : ℕ}

/-- The high half `qh` of the inverse of `u1`, and the remainder. A half-limb fits in the
`unsigned` that holds `qh`. -/
def invertHigh (u1 : BitVec w) : BitVec w × BitVec w :=
  let ul := u1 &&& llimbMask
  let uh := u1 >>> (w / 2)
  let qh := (u1 ^^^ limbMax) / uh
  let r := ((~~~u1 - qh * uh) <<< (w / 2)) ||| llimbMask
  let p := qh * ul
  let (qh, r) :=
    if r < p then
      let qh := qh - 1
      let r := r + u1
      if r ≥ u1 then
        if r < p then (qh - 1, r + u1) else (qh, r)
      else (qh, r)
    else (qh, r)
  (qh, r - p)

/-- The inverse of `u1` from its high half, and the remainder. -/
def invertLow (u1 qh r : BitVec w) : BitVec w × BitVec w :=
  let p := (r >>> (w / 2)) * qh + r
  let ql := (p >>> (w / 2)) + 1
  let r := (r <<< (w / 2)) + llimbMask - ql * u1
  let (ql, r) := if r ≥ limbMax &&& (p <<< (w / 2)) then (ql - 1, r + u1) else (ql, r)
  let m := (qh <<< (w / 2)) + ql
  if r ≥ u1 then (m + 1, r - u1) else (m, r)

/-- The first adjustment for `u0`. -/
def adjustSum (u1 u0 m r : BitVec w) : BitVec w × BitVec w :=
  let r := ~~~r
  let r := r + u0
  if r < u0 then
    let m := m - 1
    let (m, r) := if r ≥ u1 then (m - 1, r - u1) else (m, r)
    (m, r - u1)
  else (m, r)

/-- The second adjustment for `u0`. -/
def adjustProduct (u1 u0 m r : BitVec w) : BitVec w :=
  let (th, tl) := umulPpmm u0 m
  let r := r + th
  if r < th then
    let m := m - 1
    m - (flag (r > u1) ||| (flag (r = u1) &&& flag (tl > u0)))
  else m

/-- `mpn_invert_3by2`. -/
def mpnInvert3by2 (u1 u0 : BitVec w) : BitVec w :=
  let (qh, r) := invertHigh u1
  let (m, r) := invertLow u1 qh r
  if u0 > 0 then
    let (m, r) := adjustSum u1 u0 m r
    adjustProduct u1 u0 m r
  else m

/-! ### The high half -/

theorem LimbBits.half_even (hw : LimbBits w) : 2 ∣ half w := by
  have hpos := hw.pos
  have hbytes := hw.bytes
  exact dvd_pow_self 2 (by omega)

theorem toNat_limbMax_xor (x : BitVec w) : (x ^^^ limbMax).toNat = base w - 1 - x.toNat := by
  have hnot : x ^^^ limbMax = ~~~x := by
    rw [limbMax, BitVec.not_zero, BitVec.xor_allOnes]
  rw [hnot, BitVec.toNat_not]
  rfl

/- The quotient by the high half is a half-limb. -/
theorem LimbBits.not_lt (hw : LimbBits w) {u1 : BitVec w} (hu1 : base w ≤ 2 * u1.toNat) :
    base w - 1 - u1.toNat < half w * (u1 >>> (w / 2)).toNat := by
  have hsplit := hw.toNat_halves u1
  have hul := hw.toNat_low_lt u1
  have huh : half w ≤ 2 * (u1 >>> (w / 2)).toNat := by
    obtain ⟨k, hk⟩ := hw.half_even
    have hlt : half w * half w < half w * (2 * (u1 >>> (w / 2)).toNat + 2) := by
      rw [hw.half_mul_half]
      linarith
    have hlt' := lt_of_mul_lt_mul_left hlt (Nat.zero_le _)
    omega
  have hmul := Nat.mul_le_mul_left (half w) huh
  rw [hw.half_mul_half, Nat.mul_left_comm] at hmul
  have hlt := toNat_lt_base u1
  omega

/- The estimate `qh`, and the two parts of its remainder. -/
theorem LimbBits.invertHigh_start (hw : LimbBits w) {u1 : BitVec w}
    (hu1 : base w ≤ 2 * u1.toNat) :
    let qh := (u1 ^^^ limbMax) / (u1 >>> (w / 2))
    let r := ((~~~u1 - qh * (u1 >>> (w / 2))) <<< (w / 2)) ||| llimbMask
    let p := qh * (u1 &&& llimbMask)
    ((half w + qh.toNat) * u1.toNat + (r.toNat - p.toNat) + 1 : ℤ) = half w * half w * half w ∧
      r.toNat < u1.toNat := by
  intro qh r p
  have hH := half_pos w
  have hbase := hw.half_mul_half
  have hu1β := toNat_lt_base u1
  let uh := u1 >>> (w / 2)
  let ul := u1 &&& llimbMask
  have hsplit : u1.toNat = half w * uh.toNat + ul.toNat := hw.toNat_halves u1
  have huhH : uh.toNat < half w := hw.toNat_high_lt u1
  have hulH : ul.toNat < half w := hw.toNat_low_lt u1
  have hnot : base w - 1 - u1.toNat < half w * uh.toNat := hw.not_lt hu1
  have hqh : qh.toNat = (base w - 1 - u1.toNat) / uh.toNat := by
    rw [← toNat_limbMax_xor]
    exact BitVec.toNat_udiv
  have hqhH : qh.toNat < half w := by
    rw [hqh]
    exact Nat.div_lt_of_lt_mul (by rwa [Nat.mul_comm])
  have hp : p.toNat = qh.toNat * ul.toNat :=
    BitVec.toNat_mul_of_lt (hw.mul_add_half_lt hqhH hulH hH)
  have hprod : (qh * uh).toNat = qh.toNat * uh.toNat :=
    BitVec.toNat_mul_of_lt (hw.mul_add_half_lt hqhH huhH hH)
  have hcompl : (~~~u1).toNat = base w - 1 - u1.toNat := BitVec.toNat_not
  -- the remainder by the high half is a half-limb, and its shift loses nothing
  have hle : qh.toNat * uh.toNat ≤ base w - 1 - u1.toNat := by
    rw [hqh]
    exact Nat.div_mul_le_self _ _
  have hsub : (~~~u1 - qh * uh).toNat = base w - 1 - u1.toNat - qh.toNat * uh.toNat := by
    rw [BitVec.toNat_sub_of_le (by rwa [BitVec.le_def, hprod, hcompl]), hprod, hcompl]
  have hrest : base w - 1 - u1.toNat - qh.toNat * uh.toNat < uh.toNat := by
    have huh : 0 < uh.toNat := Nat.pos_of_mul_pos_left (Nat.zero_lt_of_lt hnot)
    have hmod := Nat.mod_lt (base w - 1 - u1.toNat) huh
    have hdiv := Nat.div_add_mod (base w - 1 - u1.toNat) uh.toNat
    rw [← hqh, Nat.mul_comm] at hdiv
    omega
  have hr : r.toNat = half w * (base w - 1 - u1.toNat - qh.toNat * uh.toNat) + (half w - 1) := by
    rw [BitVec.toNat_or, hw.toNat_shiftLeft_half, hw.toNat_and_llimbMask, hw.toNat_llimbMask, hsub,
      Nat.mod_eq_of_lt (hrest.trans huhH)]
    exact (Nat.two_pow_add_eq_or_of_lt (Nat.sub_lt hH Nat.one_pos) _).symm
  constructor
  · have hr' : (r.toNat : ℤ) + 1 =
        half w * (base w - 1 - u1.toNat - qh.toNat * uh.toNat) + half w := by
      rw [hr]
      zify [hH, hle, Nat.le_sub_one_of_lt hu1β, base_pos w]
      ring
    zify at hp hsplit hbase
    rw [hp]
    linear_combination hr' - half w * hbase + (qh.toNat : ℤ) * hsplit
  · have hmul := Nat.mul_le_mul_left (half w) (Nat.succ_le_of_lt hrest)
    rw [Nat.mul_succ] at hmul
    omega

/- The borrow of `r - p` is made up for by adding the divisor `k` times. -/
theorem LimbBits.invertHigh_corrections (hw : LimbBits w) {u1 : BitVec w}
    (hu1 : base w ≤ 2 * u1.toNat) :
    let qh := (u1 ^^^ limbMax) / (u1 >>> (w / 2))
    let r := ((~~~u1 - qh * (u1 >>> (w / 2))) <<< (w / 2)) ||| llimbMask
    let p := qh * (u1 &&& llimbMask)
    ∃ k : ℤ, 0 ≤ k ∧ ((invertHigh u1).1.toNat : ℤ) ≡ qh.toNat - k [ZMOD base w] ∧
      ((invertHigh u1).2.toNat : ℤ) ≡ r.toNat - p.toNat + k * u1.toNat [ZMOD base w] ∧
      0 ≤ r.toNat - p.toNat + k * u1.toNat ∧ r.toNat - p.toNat + k * u1.toNat < u1.toNat := by
  intro qh r p
  have hru : r.toNat < u1.toNat := (hw.invertHigh_start hu1).2
  have hp : p.toNat < 2 * u1.toNat := lt_of_lt_of_le (toNat_lt_base p) hu1
  have hr1 := toNat_add_carry r u1
  have hqh1 : ((qh - 1).toNat : ℤ) ≡ qh.toNat - 1 [ZMOD base w] := modEq_sub rfl (modEq_one hw.pos)
  have hrp1 : ((r + u1 - p).toNat : ℤ) ≡ r.toNat - p.toNat + 1 * u1.toNat [ZMOD base w] := by
    have h := modEq_sub (modEq_toNat_add r u1) (Int.ModEq.refl (p.toNat : ℤ))
    rwa [one_mul, sub_add_eq_add_sub]
  by_cases hlt : r < p
  · have hlt' := BitVec.lt_def.mp hlt
    by_cases hcarry : r + u1 ≥ u1
    · rw [if_neg (BitVec.not_lt.mpr hcarry)] at hr1
      by_cases hlt2 : r + u1 < p
      · have hx : invertHigh u1 = (qh - 1 - 1, r + u1 + u1 - p) := by
          simp only [invertHigh]
          rw [if_pos hlt, if_pos hcarry, if_pos hlt2]
        have hlt2' := BitVec.lt_def.mp hlt2
        have hqh2 := modEq_sub hqh1 (modEq_one hw.pos)
        have hrp2 := modEq_sub (modEq_toNat_add (r + u1) u1) (Int.ModEq.refl (p.toNat : ℤ))
        rw [hx]
        refine ⟨2, by decide, ?_, ?_, by omega, by omega⟩
        · rw [show (qh.toNat : ℤ) - 2 = qh.toNat - 1 - 1 by ring]
          exact hqh2
        · have hsum : (r.toNat : ℤ) - p.toNat + 2 * u1.toNat =
              (r + u1).toNat + u1.toNat - p.toNat := by omega
          rw [hsum]
          exact hrp2
      · have hx : invertHigh u1 = (qh - 1, r + u1 - p) := by
          simp only [invertHigh]
          rw [if_pos hlt, if_pos hcarry, if_neg hlt2]
        have hge := Nat.le_of_not_lt fun h => hlt2 (BitVec.lt_def.mpr h)
        rw [hx]
        exact ⟨1, by decide, hqh1, hrp1, by omega, by omega⟩
    · rw [if_pos (BitVec.not_le.mp hcarry)] at hr1
      have hx : invertHigh u1 = (qh - 1, r + u1 - p) := by
        simp only [invertHigh]
        rw [if_pos hlt, if_neg hcarry]
      have hpβ := toNat_lt_base p
      rw [hx]
      exact ⟨1, by decide, hqh1, hrp1, by omega, by omega⟩
  · have hx : invertHigh u1 = (qh, r - p) := by
      simp only [invertHigh]
      rw [if_neg hlt]
    have hge := Nat.le_of_not_lt fun h => hlt (BitVec.lt_def.mpr h)
    rw [hx]
    refine ⟨0, le_rfl, ?_, ?_, by omega, by omega⟩
    · rw [sub_zero]
    · rw [zero_mul, add_zero]
      exact modEq_toNat_sub r p

/- A half-limb inverse is not below 0. -/
theorem LimbBits.inverse_nonneg (hw : LimbBits w) {u1 : BitVec w} {q s : ℤ}
    (h : (half w + q) * u1.toNat + s + 1 = half w * half w * half w) (hs : s < u1.toNat) :
    0 ≤ q := by
  by_contra hneg
  have hle : half w + q ≤ half w - 1 := by omega
  have hmul := mul_le_mul_of_nonneg_right hle (Int.natCast_nonneg u1.toNat)
  have hbase : (half w * half w : ℤ) = base w := by exact_mod_cast hw.half_mul_half
  have hu1β : (u1.toNat : ℤ) * half w < base w * half w :=
    mul_lt_mul_of_pos_right (toNat_lt_base' u1) (by exact_mod_cast half_pos w)
  rw [← hbase] at hu1β
  linarith

/-- The half-limb inverse of `u1`, and the remainder. -/
theorem LimbBits.invertHigh_spec (hw : LimbBits w) {u1 : BitVec w}
    (hu1 : base w ≤ 2 * u1.toNat) :
    let x := invertHigh u1
    ((half w + x.1.toNat) * u1.toNat + x.2.toNat + 1 : ℤ) = half w * half w * half w ∧
      x.2 < u1 := by
  intro x
  let qh := (u1 ^^^ limbMax) / (u1 >>> (w / 2))
  let r := ((~~~u1 - qh * (u1 >>> (w / 2))) <<< (w / 2)) ||| llimbMask
  let p := qh * (u1 &&& llimbMask)
  have hstart : ((half w + qh.toNat) * u1.toNat + (r.toNat - p.toNat) + 1 : ℤ) =
      half w * half w * half w := (hw.invertHigh_start hu1).1
  obtain ⟨k, hk, hq, hr, hnonneg, hlt⟩ : ∃ k : ℤ, 0 ≤ k ∧
      (x.1.toNat : ℤ) ≡ qh.toNat - k [ZMOD base w] ∧
      (x.2.toNat : ℤ) ≡ r.toNat - p.toNat + k * u1.toNat [ZMOD base w] ∧
      0 ≤ r.toNat - p.toNat + k * u1.toNat ∧ r.toNat - p.toNat + k * u1.toNat < u1.toNat :=
    hw.invertHigh_corrections hu1
  -- an addition of the divisor takes one off the quotient
  have hsum : (half w + (qh.toNat - k)) * u1.toNat + (r.toNat - p.toNat + k * u1.toNat) + 1 =
      (half w * half w * half w : ℤ) := by
    linear_combination hstart
  have hqk : 0 ≤ qh.toNat - k := hw.inverse_nonneg hsum hlt
  have hqβ : (qh.toNat : ℤ) - k < base w := (sub_le_self _ hk).trans_lt (toNat_lt_base' qh)
  have hx1 := toNat_eq_of_modEq hq hqk hqβ
  have hx2 := toNat_eq_of_modEq hr hnonneg (hlt.trans (toNat_lt_base' u1))
  refine ⟨?_, BitVec.lt_def.mpr (by omega)⟩
  rw [hx1, hx2]
  exact hsum

/-! ### The low half -/

section InvertLow

variable {u1 qh r : BitVec w} (hu1 : base w ≤ 2 * u1.toNat) (hr : r < u1)
  (hqh : ((half w + qh.toNat) * u1.toNat + r.toNat + 1 : ℤ) = half w * half w * half w)

include hr hqh in
theorem halfReciprocal : IsReciprocal (half w) (half w * half w * half w) u1.toNat qh.toNat := by
  have hru := BitVec.lt_def.mp hr
  constructor
  · omega
  · linarith

include hr hqh in
/- `p` is exact, and its halves are the digits of the estimate. -/
theorem LimbBits.invertLow_estimate (hw : LimbBits w) :
    ((r >>> (w / 2)) * qh + r).toNat = (r >>> (w / 2)).toNat * qh.toNat + r.toNat := by
  have hru := BitVec.lt_def.mp hr
  have hsplit := hw.toNat_halves r
  have hbase := hw.half_mul_half
  have hlt : ((half w + qh.toNat) * (r >>> (w / 2)).toNat + (r &&& llimbMask).toNat : ℤ) <
      half w * half w := by
    refine estimate_lt (by exact_mod_cast half_pos w) (halfReciprocal hr hqh) ?_
      (Int.natCast_nonneg _) (Int.natCast_nonneg _)
    zify at hru hsplit
    linarith
  have hfits : (r >>> (w / 2)).toNat * qh.toNat + r.toNat < base w := by
    zify at hsplit hbase ⊢
    rw [← hbase]
    linarith
  have hmul : ((r >>> (w / 2)) * qh).toNat = (r >>> (w / 2)).toNat * qh.toNat :=
    BitVec.toNat_mul_of_lt (lt_of_le_of_lt (Nat.le_add_right _ _) hfits)
  rw [← hmul] at hfits ⊢
  exact BitVec.toNat_add_of_lt hfits

/-- The remainder of the estimate of the low half, not cut to a limb. -/
def lowRest (u1 qh r : BitVec w) : ℤ :=
  half w * r.toNat + half w - 1 -
    ((((r >>> (w / 2)) * qh + r) >>> (w / 2)).toNat + 1) * u1.toNat

include hr hqh in
theorem LimbBits.lowRest_window (hw : LimbBits w) :
    Window (base w) u1.toNat
      ((((r >>> (w / 2)) * qh + r) &&& llimbMask).toNat * half w) (lowRest u1 qh r) := by
  have hH : (0 : ℤ) < half w := by exact_mod_cast half_pos w
  have hbase : (half w * half w : ℤ) = base w := by exact_mod_cast hw.half_mul_half
  have hru := BitVec.lt_def.mp hr
  have hu1β := toNat_lt_base u1
  have hsplit := hw.toNat_halves r
  let p := (r >>> (w / 2)) * qh + r
  have hp : p.toNat = _ := hw.invertLow_estimate hr hqh
  have hpsplit := hw.toNat_halves p
  have hplow := hw.toNat_low_lt p
  have hrest : lowRest u1 qh r = (r >>> (w / 2)).toNat * half w * half w +
      (r &&& llimbMask).toNat * half w + (half w - 1) -
      ((p >>> (w / 2)).toNat + 1) * u1.toNat := by
    zify at hsplit
    simp only [lowRest, p]
    linear_combination (half w : ℤ) * hsplit
  rw [hrest, ← hbase]
  refine window_two hH (by omega) (by rw [hbase]; exact_mod_cast hu1β) (halfReciprocal hr hqh)
    (Int.natCast_nonneg _) ?_ (by exact_mod_cast hw.toNat_low_lt r) (by omega)
    (Int.natCast_nonneg _) (Int.natCast_nonneg _) (by omega) (Int.natCast_nonneg _)
    (by exact_mod_cast hplow) ?_
  · zify at hru hsplit
    linarith
  · zify at hsplit hp hpsplit
    rw [hpsplit] at hp
    linear_combination hp + hsplit

/- The limb that the code computes for it. -/
theorem LimbBits.lowRest_modEq (hw : LimbBits w) (u1 qh r : BitVec w) :
    let ql := (((r >>> (w / 2)) * qh + r) >>> (w / 2)) + 1
    (((r <<< (w / 2)) + llimbMask - ql * u1).toNat : ℤ) ≡ lowRest u1 qh r [ZMOD base w] := by
  intro ql
  have hbase : (half w * half w : ℤ) = base w := by exact_mod_cast hw.half_mul_half
  have hsplit := hw.toNat_halves r
  have hql : (ql.toNat : ℤ) ≡ (((r >>> (w / 2)) * qh + r) >>> (w / 2)).toNat + 1 [ZMOD base w] :=
    modEq_add rfl (modEq_one hw.pos)
  have hmask : ((llimbMask : BitVec w).toNat : ℤ) = half w - 1 := by
    rw [hw.toNat_llimbMask]
    exact Nat.cast_sub (half_pos w)
  have hshift : ((r <<< (w / 2)).toNat : ℤ) = half w * (r &&& llimbMask).toNat := by
    exact_mod_cast hw.toNat_shiftLeft_half r
  have h : (((r <<< (w / 2)) + llimbMask - ql * u1).toNat : ℤ) ≡ _ [ZMOD base w] :=
    modEq_sub (modEq_toNat_add (r <<< (w / 2)) llimbMask) (modEq_mul hql (y := u1) rfl)
  rw [hmask, hshift] at h
  refine h.trans (Int.modEq_iff_dvd.mpr ⟨(r >>> (w / 2)).toNat, ?_⟩)
  zify at hsplit
  rw [lowRest, ← hbase]
  linear_combination (half w : ℤ) * hsplit

include hu1 hr hqh in
/- The first correction. -/
theorem LimbBits.low_correction (hw : LimbBits w) :
    let p := (r >>> (w / 2)) * qh + r
    let ql := (p >>> (w / 2)) + 1
    let x := (r <<< (w / 2)) + llimbMask - ql * u1
    let y := if x ≥ limbMax &&& (p <<< (w / 2)) then (ql - 1, x + u1) else (ql, x)
    ∃ c : ℤ, (y.1.toNat : ℤ) ≡ c [ZMOD base w] ∧
      (half w * r.toNat + half w - 1 : ℤ) = c * u1.toNat + y.2.toNat := by
  intro p ql x y
  have hu1β := toNat_lt_base u1
  have hql : (ql.toNat : ℤ) ≡ (p >>> (w / 2)).toNat + 1 [ZMOD base w] :=
    modEq_add rfl (modEq_one hw.pos)
  have hx : (x.toNat : ℤ) ≡ lowRest u1 qh r [ZMOD base w] := hw.lowRest_modEq u1 qh r
  have hy : ((x + u1).toNat : ℤ) ≡ lowRest u1 qh r + u1.toNat [ZMOD base w] := modEq_add hx rfl
  have ht : ((limbMax &&& (p <<< (w / 2))).toNat : ℤ) = (p &&& llimbMask).toNat * half w := by
    have hall : limbMax &&& (p <<< (w / 2)) = p <<< (w / 2) := by
      simp only [limbMax, BitVec.not_zero, BitVec.allOnes_and]
    rw [hall, Int.mul_comm]
    exact_mod_cast hw.toNat_shiftLeft_half p
  have htβ := toNat_lt_base' (limbMax &&& (p <<< (w / 2)))
  have hwindow : Window (base w) u1.toNat ((p &&& llimbMask).toNat * half w) (lowRest u1 qh r) :=
    hw.lowRest_window hr hqh
  obtain ⟨hwrap, hkeep⟩ := corrected hwindow (by omega) (by omega) (by omega)
    (Int.natCast_nonneg _) (toNat_lt_base' x) hx (Int.natCast_nonneg _) (toNat_lt_base' _) hy
  have hrest : (half w * r.toNat + half w - 1 : ℤ) =
      ((p >>> (w / 2)).toNat + 1) * u1.toNat + lowRest u1 qh r := by
    rw [lowRest]
    ring
  by_cases hge : x ≥ limbMax &&& (p <<< (w / 2))
  · have hle := BitVec.le_def.mp hge
    refine ⟨(p >>> (w / 2)).toNat + 1 - 1, ?_, ?_⟩
    · simp only [y, if_pos hge]
      exact modEq_sub hql (modEq_one hw.pos)
    · simp only [y, if_pos hge]
      rw [hwrap (by omega), hrest]
      ring
  · have hlt : x.toNat < (limbMax &&& (p <<< (w / 2))).toNat :=
      Nat.lt_of_not_le fun h => hge (BitVec.le_def.mpr h)
    refine ⟨(p >>> (w / 2)).toNat + 1, ?_, ?_⟩
    · simp only [y, if_neg hge]
      exact hql
    · simp only [y, if_neg hge]
      rw [hkeep (by omega), hrest]

include hu1 hr hqh in
/-- The inverse of `u1`, and the remainder. -/
theorem LimbBits.invertLow_spec (hw : LimbBits w) :
    let x := invertLow u1 qh r
    ((base w + x.1.toNat) * u1.toNat + x.2.toNat + 1 : ℤ) = base w * base w ∧ x.2 < u1 := by
  have hbase : (half w * half w : ℤ) = base w := by exact_mod_cast hw.half_mul_half
  let p := (r >>> (w / 2)) * qh + r
  let ql := (p >>> (w / 2)) + 1
  let x := (r <<< (w / 2)) + llimbMask - ql * u1
  let y := if x ≥ limbMax &&& (p <<< (w / 2)) then (ql - 1, x + u1) else (ql, x)
  obtain ⟨c, hc, hz⟩ : ∃ c : ℤ, (y.1.toNat : ℤ) ≡ c [ZMOD base w] ∧
      (half w * r.toNat + half w - 1 : ℤ) = c * u1.toNat + y.2.toNat :=
    hw.low_correction hu1 hr hqh
  -- the two halves together
  let m := (qh <<< (w / 2)) + y.1
  have hm : (m.toNat : ℤ) ≡ half w * qh.toNat + c [ZMOD base w] :=
    modEq_add (modEq_shiftLeft_half qh) hc
  obtain ⟨n, hn⟩ : ∃ n : ℤ, n = base w * base w - 1 - base w * u1.toNat := ⟨_, rfl⟩
  have hn' : n = (half w * qh.toNat + c) * u1.toNat + y.2.toNat := by
    rw [hn, ← hbase]
    linear_combination hz - (half w : ℤ) * hqh
  have hu1β := toNat_lt_base u1
  have hlast := hw.last_correction hu1 hm hn' (by nlinarith) (by nlinarith)
  refine ⟨?_, hlast.2⟩
  have hsum : ((invertLow u1 qh r).1.toNat * u1.toNat + (invertLow u1 qh r).2.toNat : ℤ) = n :=
    hlast.1
  rw [hn] at hsum
  linear_combination hsum

end InvertLow

/-! ### The adjustment for the lower limb -/

/-- `r` is what `(base + m) * (u1 * base + u0)` has above `base * (base^2 - base)`, the product of
`m` and `u0` left out, and `m` is not too small. -/
structure Adjusted (u1 u0 m r : BitVec w) : Prop where
  sum_eq : (r.toNat : ℤ) = u1.toNat * (base w + m.toNat) + u0.toNat - base w * base w + base w
  le : (base w * base w : ℤ) ≤ u1.toNat * (base w + m.toNat + 1) + u0.toNat

section Adjust

variable {u1 u0 m r : BitVec w} (hu1 : base w ≤ 2 * u1.toNat)

/- A multiple of the high limb bounds the inverse from below. -/
theorem pos_of_square_le (u1 u0 : BitVec w) {k : ℤ}
    (hk : (base w * base w : ℤ) ≤ u1.toNat * (base w + k) + u0.toNat) : 0 < k := by
  have hu1β := toNat_lt_base' u1
  have hu0β := toNat_lt_base' u0
  by_contra hneg
  have hmul : (u1.toNat : ℤ) * (base w + k) ≤ u1.toNat * base w :=
    mul_le_mul_of_nonneg_left (by omega) (Int.natCast_nonneg _)
  have hmul' : (u1.toNat : ℤ) * base w ≤ (base w - 1) * base w :=
    mul_le_mul_of_nonneg_right (by omega) (by omega)
  linarith

/- The high limb is taken off `k` times, the last time with a borrow. -/
theorem Adjusted.of_borrow {q s t : BitVec w} {k : ℤ}
    (hs : (s.toNat : ℤ) = u1.toNat * (base w + m.toNat) + u0.toNat - base w * base w)
    (hq : (q.toNat : ℤ) ≡ m.toNat - k [ZMOD base w])
    (ht : (t.toNat : ℤ) ≡ s.toNat - k * u1.toNat [ZMOD base w]) (hk : 0 < k)
    (hle : (k - 1) * u1.toNat ≤ s.toNat) (hlt : s.toNat < k * u1.toNat) :
    Adjusted u1 u0 q t := by
  have hmβ := toNat_lt_base' m
  have hu1β := toNat_lt_base' u1
  have hpos : 0 < m.toNat - (k - 1) := pos_of_square_le u1 u0 (by linarith)
  have hq' : (q.toNat : ℤ) = m.toNat - k := toNat_eq_of_modEq hq (by omega) (by omega)
  have ht' : (t.toNat : ℤ) = s.toNat - k * u1.toNat + base w := by
    have hnonneg : 0 ≤ s.toNat - k * u1.toNat + base w := by linarith
    exact toNat_eq_of_modEq (ht.trans (by simp [Int.ModEq])) hnonneg (by omega)
  constructor
  · rw [ht', hq', hs]
    ring
  · rw [hq']
    linarith

/- No carry: the estimate stays. -/
theorem Adjusted.of_not_lt
    (hm : ((base w + m.toNat) * u1.toNat + r.toNat + 1 : ℤ) = base w * base w)
    (hr : r < u1) (hs : ¬ ~~~r + u0 < u0) : Adjusted u1 u0 m (~~~r + u0) := by
  have hru := BitVec.lt_def.mp hr
  have hrβ := toNat_lt_base r
  have hcompl : (~~~r).toNat = base w - 1 - r.toNat := BitVec.toNat_not
  have hcarry := toNat_add_carry (~~~r) u0
  rw [if_neg hs, hcompl] at hcarry
  have hsum : ((~~~r + u0).toNat : ℤ) = base w - 1 - r.toNat + u0.toNat := by omega
  constructor
  · rw [hsum]
    linear_combination -hm
  · zify at hru
    linarith [Int.natCast_nonneg u0.toNat]

include hu1 in
theorem LimbBits.adjustSum_spec (hw : LimbBits w) (hr : r < u1)
    (hm : ((base w + m.toNat) * u1.toNat + r.toNat + 1 : ℤ) = base w * base w) :
    let x := adjustSum u1 u0 m r
    Adjusted u1 u0 x.1 x.2 := by
  intro x
  let s := ~~~r + u0
  by_cases hs : s < u0
  · have hrβ := toNat_lt_base r
    have hsβ := toNat_lt_base' s
    have hcompl : (~~~r).toNat = base w - 1 - r.toNat := BitVec.toNat_not
    have hcarry : s.toNat + base w * (if s < u0 then 1 else 0) = (~~~r).toNat + u0.toNat :=
      toNat_add_carry (~~~r) u0
    rw [if_pos hs, hcompl] at hcarry
    have hs' : (s.toNat : ℤ) = u1.toNat * (base w + m.toNat) + u0.toNat - base w * base w := by
      have hsum : (s.toNat : ℤ) = u0.toNat - 1 - r.toNat := by omega
      linarith
    have hmod1 : ((m - 1).toNat : ℤ) ≡ m.toNat - 1 [ZMOD base w] := modEq_sub rfl (modEq_one hw.pos)
    by_cases hge : s ≥ u1
    · have hle := BitVec.le_def.mp hge
      have hx : x = (m - 1 - 1, s - u1 - u1) := by
        simp only [x, adjustSum]
        rw [if_pos hs, if_pos hge]
      have hq : ((m - 1 - 1).toNat : ℤ) ≡ m.toNat - 2 [ZMOD base w] := by
        rw [show (m.toNat : ℤ) - 2 = m.toNat - 1 - 1 by ring]
        exact modEq_sub hmod1 (modEq_one hw.pos)
      have ht : ((s - u1 - u1).toNat : ℤ) ≡ s.toNat - 2 * u1.toNat [ZMOD base w] := by
        rw [show (s.toNat : ℤ) - 2 * u1.toNat = s.toNat - u1.toNat - u1.toNat by ring]
        exact modEq_sub (modEq_toNat_sub s u1) rfl
      rw [hx]
      exact Adjusted.of_borrow hs' hq ht (by decide) (by omega) (by omega)
    · have hlt : s.toNat < u1.toNat := Nat.lt_of_not_le fun h => hge (BitVec.le_def.mpr h)
      have hx : x = (m - 1, s - u1) := by
        simp only [x, adjustSum]
        rw [if_pos hs, if_neg hge]
      have ht : ((s - u1).toNat : ℤ) ≡ s.toNat - 1 * u1.toNat [ZMOD base w] := by
        rw [one_mul]
        exact modEq_toNat_sub s u1
      rw [hx]
      exact Adjusted.of_borrow hs' hmod1 ht (by decide) (by omega) (by omega)
  · have hx : x = (m, s) := by
      simp only [x, adjustSum]
      rw [if_neg hs]
    rw [hx]
    exact Adjusted.of_not_lt hm hr hs

include hu1 in
/- The product of the divisor and the base plus its inverse is never the cube of the base, but
for a power of two. -/
theorem LimbBits.mul_ne_cube (hw : LimbBits w) (hu0 : 0 < u0) (k : ℤ) :
    k * wide (u1, u0) ≠ base w * base w * base w := by
  intro heq
  have hpow : base w * base w * base w = 2 ^ (w + w + w) := by
    rw [Nat.pow_add, Nat.pow_add]
    rfl
  have hsq : base w * base w = 2 ^ (w + w) := by
    rw [Nat.pow_add]
    rfl
  have hdvd : wide (u1, u0) ∣ 2 ^ (w + w + w) := by
    rw [← hpow]
    refine Int.natCast_dvd_natCast.mp ⟨k, ?_⟩
    push_cast
    rw [← heq, Int.mul_comm]
  have hlow : base w * base w ≤ 2 * wide (u1, u0) := by
    have hmul := Nat.mul_le_mul_left (base w) hu1
    simp only [wide]
    linarith
  have hhalf := eq_half_of_dvd hdvd (hsq ▸ hlow) (hsq ▸ wide_lt (u1, u0))
  have heven : base w = 2 * 2 ^ (w - 1) := by
    rw [← Nat.pow_succ', Nat.succ_eq_add_one, Nat.sub_add_cancel hw.pos]
    rfl
  have hsplit : 0 + base w * 2 ^ (w - 1) = u0.toNat + base w * u1.toNat := by
    rw [← hsq, wide] at hhalf
    have hmul : base w * base w = 2 * (base w * 2 ^ (w - 1)) := by
      rw [Nat.mul_left_comm, ← heven]
    simp only at hhalf
    omega
  have hzero := (split_unique (base_pos w) (toNat_lt_base u0) hsplit).1
  have hpos := BitVec.lt_def.mp hu0
  omega

/- The estimate times the two limbs. -/
theorem Adjusted.mul_wide (hw : LimbBits w) (h : Adjusted u1 u0 m r) :
    let t := umulPpmm u0 m
    ((base w + m.toNat) * wide (u1, u0) : ℤ) = base w * base w * base w - base w * base w +
      base w * (r.toNat + t.1.toNat) + t.2.toNat := by
  intro t
  have ht : (t.2.toNat + base w * t.1.toNat : ℤ) = u0.toNat * m.toNat := by
    rw [← wide_cast]
    exact_mod_cast hw.wide_umulPpmm u0 m
  rw [wide_cast]
  linear_combination -(base w : ℤ) * h.sum_eq - ht

/- Without a carry the estimate stays. -/
theorem Adjusted.inverse_of_not_lt (hw : LimbBits w) (h : Adjusted u1 u0 m r)
    (hs : ¬ r + (umulPpmm u0 m).1 < (umulPpmm u0 m).1) : Inverse3by2 u1 u0 m := by
  have hβ : (0 : ℤ) < base w := by exact_mod_cast base_pos w
  let t := umulPpmm u0 m
  have hmain : ((base w + m.toNat) * wide (u1, u0) : ℤ) = base w * base w * base w -
      base w * base w + base w * (r.toNat + t.1.toNat) + t.2.toNat := h.mul_wide hw
  have htl := toNat_lt_base' t.2
  have hsβ := toNat_lt_base' (r + t.1)
  have hcarry := toNat_add_carry r t.1
  rw [if_neg hs] at hcarry
  have hrange : (base w : ℤ) * (r.toNat + t.1.toNat) ≤ base w * (base w - 1) :=
    mul_le_mul_of_nonneg_left (by omega) hβ.le
  constructor
  · linarith
  · have hscale := mul_le_mul_of_nonneg_left h.le hβ.le
    have hrest : (0 : ℤ) ≤ (m.toNat + 1) * u0.toNat := by positivity
    rw [wide_cast]
    linarith

/- With a carry it is too large, by one or by two. -/
theorem Adjusted.mul_wide_of_lt (hw : LimbBits w) (h : Adjusted u1 u0 m r)
    (hs : r + (umulPpmm u0 m).1 < (umulPpmm u0 m).1) :
    ((base w + m.toNat) * wide (u1, u0) : ℤ) = base w * base w * base w +
      wide (r + (umulPpmm u0 m).1, (umulPpmm u0 m).2) := by
  have hcarry := toNat_add_carry r (umulPpmm u0 m).1
  rw [if_pos hs] at hcarry
  zify at hcarry
  rw [h.mul_wide hw, wide_cast]
  linear_combination -(base w : ℤ) * hcarry

/- The base plus `k` is too small a factor for the cube, but for a positive `k`. -/
theorem pos_of_cube_le (u1 u0 : BitVec w) {k : ℤ}
    (hk : (base w * base w * base w : ℤ) ≤ (base w + k) * wide (u1, u0)) : 0 < k := by
  have hβ : (0 : ℤ) < base w := by exact_mod_cast base_pos w
  have hDβ : (wide (u1, u0) : ℤ) < base w * base w := by exact_mod_cast wide_lt (u1, u0)
  by_contra hneg
  have hmul : (base w + k) * wide (u1, u0) ≤ (base w : ℤ) * wide (u1, u0) :=
    mul_le_mul_of_nonneg_right (by omega) (Int.natCast_nonneg _)
  have hmul' : (base w * wide (u1, u0) : ℤ) < base w * (base w * base w) :=
    mul_lt_mul_of_pos_left hDβ hβ
  linarith

include hu1 in
/- A number of two limbs above the cube decides between one and two. -/
theorem LimbBits.inverse_of_wide (hw : LimbBits w) (hu0 : 0 < u0) {x : BitVec w × BitVec w}
    (hmain : ((base w + m.toNat) * wide (u1, u0) : ℤ) = base w * base w * base w + wide x) :
    Inverse3by2 u1 u0 (m - 1 - flag (x.1 > u1 ∨ (x.1 = u1 ∧ x.2 > u0))) := by
  have hmβ := toNat_lt_base' m
  have hm1 : 0 < (m.toNat : ℤ) :=
    pos_of_cube_le u1 u0 (by linarith [Int.natCast_nonneg (wide x)])
  have hmod1 : ((m - 1).toNat : ℤ) ≡ m.toNat - 1 [ZMOD base w] := modEq_sub rfl (modEq_one hw.pos)
  by_cases hgt : x.1 > u1 ∨ (x.1 = u1 ∧ x.2 > u0)
  · have hlt : wide (u1, u0) < wide x := (wide_lt_iff x (u1, u0)).mpr hgt
    have hWβ : (wide x : ℤ) < base w * base w := by exact_mod_cast wide_lt x
    have hDlow : (base w * base w : ℤ) ≤ 2 * wide (u1, u0) := by
      have hmul : (base w * base w : ℤ) ≤ base w * (2 * u1.toNat) :=
        mul_le_mul_of_nonneg_left (by exact_mod_cast hu1) (Int.natCast_nonneg _)
      rw [wide_cast]
      linarith [Int.natCast_nonneg u0.toNat]
    have hm2 : 0 < (m.toNat : ℤ) - 1 := pos_of_cube_le u1 u0 (by linarith)
    have hm' : ((m - 1 - flag (x.1 > u1 ∨ (x.1 = u1 ∧ x.2 > u0))).toNat : ℤ) =
        m.toNat - 1 - 1 := by
      refine toNat_eq_of_modEq (modEq_sub hmod1 ?_) (by omega) (by omega)
      rw [flag, if_pos hgt]
      exact modEq_one hw.pos
    constructor
    · rw [hm']
      linarith
    · rw [hm']
      linarith
  · have hle : wide x ≤ wide (u1, u0) :=
      Nat.le_of_not_lt fun h => hgt ((wide_lt_iff x (u1, u0)).mp h)
    have hm' : ((m - 1 - flag (x.1 > u1 ∨ (x.1 = u1 ∧ x.2 > u0))).toNat : ℤ) = m.toNat - 1 := by
      refine toNat_eq_of_modEq ?_ (by omega) (by omega)
      have hsub := modEq_sub hmod1 (y := flag (x.1 > u1 ∨ (x.1 = u1 ∧ x.2 > u0))) rfl
      rwa [modEq_flag hw.pos, if_neg hgt, sub_zero] at hsub
    -- equality would make the divisor a power of two
    have hne := hw.mul_ne_cube hu1 hu0 (base w + (m.toNat - 1))
    constructor
    · rw [hm']
      refine lt_of_le_of_ne ?_ hne
      linarith
    · rw [hm']
      linarith [Int.natCast_nonneg (wide x)]

include hu1 in
theorem LimbBits.adjustProduct_spec (hw : LimbBits w) (h : Adjusted u1 u0 m r) (hu0 : 0 < u0) :
    Inverse3by2 u1 u0 (adjustProduct u1 u0 m r) := by
  let t := umulPpmm u0 m
  by_cases hs : r + t.1 < t.1
  · have hx : adjustProduct u1 u0 m r =
        m - 1 - flag (r + t.1 > u1 ∨ (r + t.1 = u1 ∧ t.2 > u0)) := by
      simp only [adjustProduct]
      rw [← flag_or_and]
      exact if_pos hs
    have hspec := hw.inverse_of_wide hu1 hu0 (x := (r + t.1, t.2)) (h.mul_wide_of_lt hw hs)
    rw [hx]
    exact hspec
  · have hx : adjustProduct u1 u0 m r = m := by
      simp only [adjustProduct]
      exact if_neg hs
    rw [hx]
    exact h.inverse_of_not_lt hw hs

end Adjust

/-! ### The inverse -/

theorem LimbBits.mpnInvert3by2_zero (hw : LimbBits w) {u1 : BitVec w}
    (hu1 : base w ≤ 2 * u1.toNat) : Inverse u1 (mpnInvert3by2 u1 0) := by
  obtain ⟨hhigh, hr⟩ := hw.invertHigh_spec hu1
  obtain ⟨hlow, hr'⟩ := hw.invertLow_spec hu1 hr hhigh
  have hx : mpnInvert3by2 u1 0 = (invertLow u1 (invertHigh u1).1 (invertHigh u1).2).1 := by
    simp [mpnInvert3by2]
  have hru := BitVec.lt_def.mp hr'
  rw [hx]
  constructor
  · linarith [Int.natCast_nonneg (invertLow u1 (invertHigh u1).1 (invertHigh u1).2).2.toNat]
  · linarith

theorem LimbBits.mpnInvert3by2_spec (hw : LimbBits w) {u1 : BitVec w}
    (hu1 : base w ≤ 2 * u1.toNat) (u0 : BitVec w) : Inverse3by2 u1 u0 (mpnInvert3by2 u1 u0) := by
  by_cases hu0 : u0 > 0
  · obtain ⟨hhigh, hr⟩ := hw.invertHigh_spec hu1
    obtain ⟨hlow, hr'⟩ := hw.invertLow_spec hu1 hr hhigh
    have hadj : Adjusted u1 u0 _ _ := hw.adjustSum_spec hu1 hr' hlow
    have hspec := hw.adjustProduct_spec hu1 hadj hu0
    simp only [mpnInvert3by2]
    rw [if_pos hu0]
    exact hspec
  · have hzero : u0 = 0 := by
      refine BitVec.eq_of_toNat_eq (Nat.eq_zero_of_not_pos fun h => hu0 ?_)
      exact BitVec.lt_def.mpr (by simpa using h)
    subst hzero
    have hinv := hw.mpnInvert3by2_zero hu1
    have hβ : (0 : ℤ) < base w := by exact_mod_cast base_pos w
    have hD : (wide (u1, 0) : ℤ) = base w * u1.toNat := by simp [wide]
    have hlt := mul_lt_mul_of_pos_left hinv.lt hβ
    have hle := mul_le_mul_of_nonneg_left hinv.le hβ.le
    constructor
    · rw [hD]
      linarith
    · rw [hD]
      linarith

/-- `mpn_invert_3by2` is what its comment says, for every normalised `u1` and every `u0`. -/
theorem mpnInvert3by2_eq (hw : LimbBits w) (u1 u0 : BitVec w) (hu1 : base w ≤ 2 * u1.toNat) :
    base w + (mpnInvert3by2 u1 u0).toNat = (base w ^ 3 - 1) / wide (u1, u0) := by
  obtain ⟨hlt, hle⟩ := hw.mpnInvert3by2_spec hu1 u0
  norm_cast at hlt hle
  have hpos : 0 < base w ^ 3 := pow_base_pos w 3
  have hcube : base w ^ 3 = base w * base w * base w := by ring
  rw [hcube] at hpos ⊢
  symm
  refine Nat.div_eq_of_lt_le ?_ ?_
  · omega
  · omega

theorem mpnInvert3by2_eq_word :
    LimbBits 32 ∧ base 32 ≤ 2 * (0x80000001#32).toNat ∧
      base 32 + (mpnInvert3by2 0x80000001#32 7#32).toNat =
        (base 32 ^ 3 - 1) / wide (0x80000001#32, 7#32) :=
  ⟨⟨by decide, by decide⟩, by decide, mpnInvert3by2_eq ⟨by decide, by decide⟩ _ _ (by decide)⟩

end Pobc.MiniGmp
