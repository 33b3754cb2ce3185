import Pobc.MiniGmp.DivQr

/-!
# What `mpn_div_qr` computes (`mimc-gmp/mini-gmp.c:886-1138`)

The shift that normalises the divisor is taken out of the remainder again, and no assertion
fails.
-/

namespace Pobc.MiniGmp
open Pobc.Limbs

variable {w : ℕ}

/-! ### Normalisation -/

theorem lshift_getD_succ (cnt : ℕ) (u : BitVec w) (up : List (BitVec w)) (i : ℕ)
    (hi : i < up.length) :
    (mpnLshift (u :: up) cnt).1.getD (i + 1) 0 =
      ((u :: up).getD (i + 1) 0 <<< cnt) ||| ((u :: up).getD i 0 >>> (w - cnt)) := by
  induction up generalizing u i with
  | nil => exact absurd hi (Nat.not_lt_zero i)
  | cons u' up ih =>
    cases i with
    | zero =>
      have hhigh : (lshiftLoop cnt (u' :: up)).2.1 = u' <<< cnt := by
        cases up <;> rfl
      simp [mpnLshift, lshiftLoop, hhigh]
    | succ i => exact ih u' i (by simpa using hi)

theorem lshift_getD_zero (cnt : ℕ) (u : BitVec w) (up : List (BitVec w)) :
    (mpnLshift (u :: up) cnt).1.getD 0 0 = u <<< cnt := by
  cases up <;> rfl

theorem shiftUp_getD_zero (dp : List (BitVec w)) (hdp : dp ≠ []) (shift : ℕ) :
    (shiftUp dp shift).1.getD 0 0 = dp.getD 0 0 <<< shift := by
  cases dp with
  | nil => exact absurd rfl hdp
  | cons u up =>
    unfold shiftUp
    by_cases hpos : shift > 0
    · rw [if_pos hpos, lshift_getD_zero]
      rfl
    · have hzero : shift = 0 := by omega
      rw [if_neg hpos, hzero]
      simp

theorem shiftUp_getD_succ (dp : List (BitVec w)) (shift i : ℕ) (hi : i + 1 < dp.length) :
    (shiftUp dp shift).1.getD (i + 1) 0 =
      if shift > 0 then (dp.getD (i + 1) 0 <<< shift) ||| (dp.getD i 0 >>> (w - shift))
      else dp.getD (i + 1) 0 := by
  cases dp with
  | nil => simp at hi
  | cons u up =>
    unfold shiftUp
    by_cases hpos : shift > 0
    · rw [if_pos hpos, if_pos hpos, lshift_getD_succ shift u up i (by simpa using hi)]
    · rw [if_neg hpos, if_neg hpos]

section Normalise

variable {shift : ℕ} (hshift : shift ≤ w) {np : List (BitVec w)} (hnp : np ≠ [])

include hshift hnp

theorem shiftUp_value :
    value (shiftUp np shift).1 + base w ^ np.length * (shiftUp np shift).2.toNat =
      2 ^ shift * value np ∧ (shiftUp np shift).1.length = np.length := by
  unfold shiftUp
  by_cases hpos : shift > 0
  · rw [if_pos hpos]
    exact lshift_value hshift np hnp
  · have hzero : shift = 0 := by omega
    rw [if_neg hpos, hzero]
    simp

theorem shiftUp_carry_lt : (shiftUp np shift).2.toNat < 2 ^ shift := by
  have hval := (shiftUp_value hshift hnp).1
  have hlt := Nat.mul_lt_mul_of_pos_left (value_lt np) (Nat.two_pow_pos shift)
  refine lt_of_mul_lt_mul_left (a := base w ^ np.length) ?_ (Nat.zero_le _)
  rw [Nat.mul_comm _ (2 ^ shift)]
  omega

end Normalise

/-- What `mpn_div_qr` makes of the divisor: `tp` is the divisor shifted up, without a carry. -/
structure Normalised (dp : List (BitVec w)) (inv : GmpDivInverse w) : Prop where
  shift_lt : inv.shift < w
  no_carry : (shiftUp dp inv.shift).2 = 0
  high : base w ≤ 2 * inv.d1.toNat
  d1_eq : inv.d1 = (shiftUp dp inv.shift).1.getD (dp.length - 1) 0
  d0_eq : 2 ≤ dp.length → inv.d0 = (shiftUp dp inv.shift).1.getD (dp.length - 2) 0
  inverse : dp.length = 1 → Inverse inv.d1 inv.di
  inverse3by2 : 2 ≤ dp.length → Inverse3by2 inv.d1 inv.d0 inv.di

theorem divQrInvert_one (dp : List (BitVec w)) (hdn : dp.length = 1) :
    mpnDivQrInvert dp = mpnDivQr1Invert (dp.getD (dp.length - 1) 0) := by
  simp only [mpnDivQrInvert]
  rw [if_pos hdn, hdn]

/- From two limbs on, the inverse is the one of the two highest limbs of the shifted divisor. -/
theorem divQrInvert_two (dp : List (BitVec w)) (hdn : 2 ≤ dp.length) :
    mpnDivQrInvert dp =
      let shift := gmpClz (dp.getD (dp.length - 1) 0)
      let d1 := (shiftUp dp shift).1.getD (dp.length - 1) 0
      let d0 := (shiftUp dp shift).1.getD (dp.length - 2) 0
      { shift, d1, d0, di := mpnInvert3by2 d1 d0 } := by
  have hne : dp ≠ [] := List.ne_nil_of_length_pos (by omega)
  obtain ⟨i, hi⟩ : ∃ i, dp.length = i + 2 := ⟨dp.length - 2, by omega⟩
  have hi1 : dp.length - 1 = i + 1 := by omega
  have hi2 : dp.length - 2 = i := by omega
  simp only [hi1, hi2]
  rw [shiftUp_getD_succ dp _ i (by omega)]
  cases i with
  | zero =>
    have h1 : dp.length ≠ 1 := by omega
    simp only [mpnDivQrInvert, if_neg h1, if_pos hi, mpnDivQr2Invert, shiftUp_getD_zero dp hne]
    split
    · rfl
    · next hpos =>
      have hzero : gmpClz (dp.getD 1 0) = 0 := by omega
      simp only [hzero, BitVec.shiftLeft_zero]
  | succ i =>
    have h1 : dp.length ≠ 1 := by omega
    have h2 : dp.length ≠ 2 := by omega
    have hi3 : dp.length - 3 = i := by omega
    rw [shiftUp_getD_succ dp _ i (by omega)]
    simp only [mpnDivQrInvert, if_neg h1, if_neg h2, hi1, hi2, hi3]
    split <;> rfl

section LeadingZeros

variable (hw : LimbBits w) {dp : List (BitVec w)} (hdp : dp ≠ [])
  (ht : dp.getD (dp.length - 1) 0 ≠ 0)

include hw

/- The highest limb loses nothing. -/
theorem LimbBits.clz_lt {t : BitVec w} (ht : t ≠ 0) : t.toNat < 2 ^ (w - gmpClz t) := by
  obtain ⟨hclz, hlt, -⟩ := hw.gmpClz_spec ht
  rw [base_eq_mul hclz.le] at hlt
  exact lt_of_mul_lt_mul_right hlt (Nat.zero_le _)

theorem LimbBits.toNat_shiftLeft_clz {t : BitVec w} (ht : t ≠ 0) :
    (t <<< gmpClz t).toNat = t.toNat * 2 ^ gmpClz t := by
  obtain ⟨hclz, -, -⟩ := hw.gmpClz_spec ht
  rw [toNat_shiftLeft hclz.le, Nat.mod_eq_of_lt (hw.clz_lt ht), Nat.mul_comm]

include hdp ht

/- Neither do the other limbs. -/
theorem LimbBits.shiftUp_clz_carry :
    (shiftUp dp (gmpClz (dp.getD (dp.length - 1) 0))).2 = 0 := by
  obtain ⟨t, ht'⟩ : ∃ t, t = dp.getD (dp.length - 1) 0 := ⟨_, rfl⟩
  rw [← ht'] at ht ⊢
  obtain ⟨k, hk⟩ : ∃ k, dp.length = k + 1 :=
    ⟨dp.length - 1, (Nat.sub_add_cancel (List.length_pos_of_ne_nil hdp)).symm⟩
  have hk1 : dp.length - 1 = k := by omega
  obtain ⟨hclz, -, -⟩ := hw.gmpClz_spec ht
  have hval := (shiftUp_value hclz.le hdp).1
  have htop := value_top dp (by omega)
  have hlow := value_lt (dp.take k)
  rw [List.length_take_of_le (by omega)] at hlow
  rw [← ht', hk1] at htop
  have hfits : 2 ^ gmpClz t * (t.toNat + 1) ≤ base w := by
    rw [base_eq_mul hclz.le, Nat.mul_comm (2 ^ (w - _))]
    exact Nat.mul_le_mul_left _ (hw.clz_lt ht)
  have hscale := Nat.mul_le_mul_left (base w ^ k) hfits
  have hdiv : 2 ^ gmpClz t * value dp < 2 ^ gmpClz t * (base w ^ k * (t.toNat + 1)) := by
    refine Nat.mul_lt_mul_of_pos_left ?_ (Nat.two_pow_pos _)
    rw [htop, Nat.mul_succ]
    omega
  refine BitVec.eq_of_toNat_eq ?_
  by_contra hne
  have hmul := Nat.mul_le_mul_left (base w ^ dp.length) (Nat.one_le_iff_ne_zero.mpr hne)
  rw [hk, Nat.pow_succ] at hmul hval
  have hcomm : 2 ^ gmpClz t * (base w ^ k * (t.toNat + 1)) =
    base w ^ k * (2 ^ gmpClz t * (t.toNat + 1)) := by ring
  omega

theorem LimbBits.shiftUp_clz_high :
    base w ≤ 2 * ((shiftUp dp (gmpClz (dp.getD (dp.length - 1) 0))).1.getD
      (dp.length - 1) 0).toNat := by
  obtain ⟨hclz, -, hhigh⟩ := hw.gmpClz_spec ht
  have hshl := hw.toNat_shiftLeft_clz ht
  obtain ⟨k, hk⟩ : ∃ k, dp.length = k + 1 :=
    ⟨dp.length - 1, (Nat.sub_add_cancel (List.length_pos_of_ne_nil hdp)).symm⟩
  have hk1 : dp.length - 1 = k := by omega
  rw [hk1] at hclz hhigh hshl ⊢
  cases k with
  | zero => rwa [shiftUp_getD_zero dp hdp, hshl]
  | succ i =>
    rw [shiftUp_getD_succ dp _ i (by omega)]
    split
    · rw [toNat_shiftLeft_or hclz.le _ (toNat_shiftRight_lt hclz.le _), hshl]
      omega
    · next hpos =>
      have hzero : gmpClz (dp.getD (i + 1) 0) = 0 := by omega
      rwa [hzero, Nat.pow_zero, Nat.mul_one] at hhigh

end LeadingZeros

theorem LimbBits.divQrInvert_normalised (hw : LimbBits w) {dp : List (BitVec w)} (hdp : dp ≠ [])
    (hnormal : Normal dp) : Normalised dp (mpnDivQrInvert dp) := by
  have ht := hnormal.high_ne_zero hdp
  have hclz := (hw.gmpClz_spec ht).1
  have hcarry := hw.shiftUp_clz_carry hdp ht
  have hhigh := hw.shiftUp_clz_high hdp ht
  by_cases hone : dp.length = 1
  · have hd1 : (shiftUp dp (gmpClz (dp.getD (dp.length - 1) 0))).1.getD (dp.length - 1) 0 =
        dp.getD (dp.length - 1) 0 <<< gmpClz (dp.getD (dp.length - 1) 0) := by
      rw [hone]
      exact shiftUp_getD_zero dp hdp _
    have hnorm := hhigh
    rw [hd1] at hnorm
    rw [divQrInvert_one dp hone]
    constructor
    case shift_lt => exact hclz
    case no_carry => exact hcarry
    case high => exact hnorm
    case d1_eq => exact hd1.symm
    case d0_eq => omega
    case inverse => exact fun _ => hw.mpnInvert3by2_zero hnorm
    case inverse3by2 => omega
  · have hpos := List.length_pos_of_ne_nil hdp
    rw [divQrInvert_two dp (by omega)]
    constructor
    case shift_lt => exact hclz
    case no_carry => exact hcarry
    case high => exact hhigh
    case d1_eq => rfl
    case d0_eq => exact fun _ => rfl
    case inverse => exact fun h => absurd h hone
    case inverse3by2 => exact fun _ => hw.mpnInvert3by2_spec hhigh _

/-! ### Division of shifted numbers -/

theorem divide_out {s n q d r : ℕ} (h : q * (2 ^ s * d) + r = 2 ^ s * n) (hlt : r < 2 ^ s * d) :
    ∃ r', r = 2 ^ s * r' ∧ n = q * d + r' ∧ r' < d := by
  have hpos := Nat.two_pow_pos s
  have hdvd : 2 ^ s ∣ r := by
    refine (Nat.dvd_add_right (Dvd.intro (q * d) ?_)).mp (Dvd.intro n h.symm)
    ring
  obtain ⟨r', rfl⟩ := hdvd
  refine ⟨r', rfl, ?_, Nat.lt_of_mul_lt_mul_left hlt⟩
  refine Nat.eq_of_mul_eq_mul_left hpos ?_
  rw [← h]
  ring

/- The low limb of a multiple of `2 ^ s` has `s` zero bits. -/
theorem low_bits_zero {s : ℕ} (hs : s ≤ w) (u : BitVec w) (up : List (BitVec w)) {r : ℕ}
    (h : value (u :: up) = 2 ^ s * r) : u.toNat % 2 ^ s = 0 := by
  have hdvd : 2 ^ s ∣ base w * value up := by
    rw [base_eq_mul hs, Nat.mul_assoc]
    exact Dvd.dvd.mul_left (Nat.dvd_mul_right _ _) _
  have hsum : 2 ^ s ∣ u.toNat + base w * value up := by
    rw [← value_cons, h]
    exact Nat.dvd_mul_right _ _
  exact Nat.mod_eq_zero_of_dvd ((Nat.dvd_add_left hdvd).mp hsum)

theorem toNat_and_lowMask {s : ℕ} (hs : s ≤ w) (x : BitVec w) :
    (x &&& (limbMax >>> (w - s))).toNat = x.toNat % 2 ^ s := by
  have hsplit := base_eq_mul hs
  have hmask : (base w - 1) / 2 ^ (w - s) = 2 ^ s - 1 := by
    have hlow := Nat.two_pow_pos (w - s)
    have hcount := Nat.two_pow_pos s
    rw [hsplit]
    refine Nat.div_eq_of_lt_le ?_ ?_
    · rw [Nat.sub_mul, Nat.mul_comm]
      omega
    · rw [Nat.sub_add_cancel hcount, Nat.mul_comm]
      exact Nat.sub_lt (Nat.mul_pos hcount hlow) Nat.one_pos
  rw [BitVec.toNat_and, BitVec.toNat_ushiftRight, Nat.shiftRight_eq_div_pow, toNat_limbMax, hmask,
    Nat.and_two_pow_sub_one_eq_mod]

/- Shifting back down is exact and moves no bit out. -/
theorem rshift_exact {s : ℕ} (hs : s ≤ w) {l : List (BitVec w)} (hl : l ≠ []) {r : ℕ}
    (h : value l = 2 ^ s * r) :
    value (mpnRshift l s).1 = r ∧ (mpnRshift l s).2 = 0 ∧
      (mpnRshift l s).1.length = l.length := by
  cases l with
  | nil => exact absurd rfl hl
  | cons u up =>
    have hzero := low_bits_zero hs u up h
    obtain ⟨hval, hout, hlen⟩ := rshift_value hs u up
    rw [hzero, Nat.add_zero, h] at hval
    rw [hzero, Nat.mul_zero] at hout
    exact ⟨Nat.eq_of_mul_eq_mul_left (Nat.two_pow_pos s) hval, BitVec.eq_of_toNat_eq hout, hlen⟩

section Preinv

variable (hw : LimbBits w) {dp np : List (BitVec w)} {inv : GmpDivInverse w}
  (hinv : Normalised dp inv) (hdp : dp ≠ []) (hnp : np ≠ [])

include hinv hdp in
theorem Normalised.value_eq :
    value (shiftUp dp inv.shift).1 = 2 ^ inv.shift * value dp ∧
      (shiftUp dp inv.shift).1.length = dp.length := by
  obtain ⟨hval, hlen⟩ := shiftUp_value hinv.shift_lt.le hdp
  rw [hinv.no_carry] at hval
  exact ⟨by simpa using hval, hlen⟩

include hw hinv hnp in
/- The limb that the shift of the numerator moves out is less than the highest of the divisor. -/
theorem Normalised.carry_lt : (shiftUp np inv.shift).2 < inv.d1 := by
  have hcarry := shiftUp_carry_lt hinv.shift_lt.le hnp
  have hpow : 2 ^ inv.shift ≤ 2 ^ (w - 1) :=
    Nat.pow_le_pow_right (by decide) (Nat.le_sub_one_of_lt hinv.shift_lt)
  have hbase := base_eq_two_mul hw.pos
  have hhigh := hinv.high
  exact BitVec.lt_def.mpr (by omega)

include hw hinv hnp in
theorem divQr1Preinv_spec (hone : dp.length = 1) :
    let x := mpnDivQr1Preinv np inv
    value np = value x.1 * value dp + x.2.toNat ∧ x.2.toNat < value dp ∧
      x.1.length = np.length := by
  have hdp : dp ≠ [] := List.ne_nil_of_length_pos (by omega)
  obtain ⟨htp, htlen⟩ := hinv.value_eq hdp
  obtain ⟨hval, hlen⟩ := shiftUp_value hinv.shift_lt.le hnp
  have hlt := hinv.carry_lt hw hnp
  obtain ⟨sh, hsh⟩ : ∃ sh, sh = shiftUp np inv.shift := ⟨_, rfl⟩
  rw [← hsh] at hval hlen hlt
  obtain ⟨hr, hquot⟩ := divQr1Loop_spec hw hinv.high (hinv.inverse hone) sh.1 hlt
  have hd : inv.d1.toNat = 2 ^ inv.shift * value dp := by
    have htop := value_top (shiftUp dp inv.shift).1 (by omega)
    rw [htlen, ← hinv.d1_eq, hone] at htop
    simpa [htp] using htop.symm
  rw [hlen, hval, hd] at hquot
  obtain ⟨r', hr', hnum, hrem⟩ := divide_out hquot (by rw [← hd]; exact BitVec.lt_def.mp hr)
  intro x
  have hx1 : x.1 = (chainDown (fun n r => udivQrnndPreinv r n inv.d1 inv.di) sh.1 sh.2).1 := by
    rw [hsh]
    rfl
  have hx2 : x.2.toNat = r' := by
    have h : x.2 = (chainDown (fun n r => udivQrnndPreinv r n inv.d1 inv.di) sh.1 sh.2).2 >>>
        inv.shift := by
      rw [hsh]
      rfl
    rw [h, BitVec.toNat_ushiftRight, Nat.shiftRight_eq_div_pow, hr']
    exact Nat.mul_div_cancel_left _ (Nat.two_pow_pos _)
  rw [hx2, hx1]
  exact ⟨hnum, hrem, by rw [length_chainDown, hlen]⟩

include hw hinv in
theorem divQr2Preinv_spec (htwo : dp.length = 2) (hnn : 2 ≤ np.length) :
    ∃ qp rp, mpnDivQr2Preinv np inv = some (qp, rp) ∧
      value np = value qp * value dp + value rp ∧ value rp < value dp ∧
      qp.length = np.length - 1 ∧ rp.length = 2 := by
  have hdp : dp ≠ [] := List.ne_nil_of_length_pos (by omega)
  have hnp : np ≠ [] := List.ne_nil_of_length_pos (by omega)
  have hs := hinv.shift_lt.le
  obtain ⟨htp, htlen⟩ := hinv.value_eq hdp
  obtain ⟨hval, hlen⟩ := shiftUp_value hs hnp
  have hlt := BitVec.lt_def.mp (hinv.carry_lt hw hnp)
  obtain ⟨sh, hsh⟩ : ∃ sh, sh = shiftUp np inv.shift := ⟨_, rfl⟩
  rw [← hsh] at hval hlen hlt
  have hd : wide (inv.d1, inv.d0) = 2 ^ inv.shift * value dp := by
    have htop := value_top_two (shiftUp dp inv.shift).1 (by omega)
    rw [htlen, ← hinv.d1_eq, ← hinv.d0_eq (by omega), htwo] at htop
    simpa [htp] using htop.symm
  -- the two highest limbs are the first remainder
  have hstart : wide (sh.2, sh.1.getD (sh.1.length - 1) 0) < wide (inv.d1, inv.d0) := by
    have hmul := Nat.mul_le_mul_left (base w) (Nat.succ_le_of_lt hlt)
    have hlow := toNat_lt_base (sh.1.getD (sh.1.length - 1) 0)
    rw [Nat.mul_succ] at hmul
    simp only [wide]
    omega
  obtain ⟨hrem, hquot⟩ := divQr2Loop_spec hw hinv.high (hinv.inverse3by2 (by omega))
    (sh.1.take (sh.1.length - 1)) hstart
  obtain ⟨y, hy⟩ : ∃ y, y = chainDown
      (fun n0 (r : BitVec w × BitVec w) => udivQr3by2 r.1 r.2 n0 inv.d1 inv.d0 inv.di)
      (sh.1.take (sh.1.length - 1)) (sh.2, sh.1.getD (sh.1.length - 1) 0) := ⟨_, rfl⟩
  rw [← hy] at hrem hquot
  have htop := value_top sh.1 (by omega)
  have hpow : base w ^ np.length = base w ^ (sh.1.length - 1) * base w := by
    rw [← Nat.pow_succ, Nat.succ_eq_add_one, Nat.sub_add_cancel (by omega), hlen]
  have hnum : value (sh.1.take (sh.1.length - 1)) + base w ^ (sh.1.length - 1) *
      wide (sh.2, sh.1.getD (sh.1.length - 1) 0) = 2 ^ inv.shift * value np := by
    rw [← hval, htop, hpow, wide]
    ring
  rw [List.length_take_of_le (by omega), hnum, hd] at hquot
  rw [hd] at hrem
  obtain ⟨r', hr', hvalue, hlt'⟩ := divide_out hquot hrem
  have hqlen : y.1.length = np.length - 1 := by
    rw [hy, length_chainDown, List.length_take_of_le (by omega), hlen]
  have hwide : value [y.2.2, y.2.1] = 2 ^ inv.shift * r' := by
    rw [← hr']
    simp [wide]
  by_cases hpos : inv.shift > 0
  · obtain ⟨hr, -, hrlen⟩ := rshift_exact hs (List.cons_ne_nil _ _) hwide
    have hmask : y.2.2 &&& (limbMax >>> (w - inv.shift)) = 0 := by
      refine BitVec.eq_of_toNat_eq ?_
      rw [toNat_and_lowMask hs, low_bits_zero hs _ _ hwide]
      rfl
    refine ⟨y.1, (mpnRshift [y.2.2, y.2.1] inv.shift).1, ?_, by rw [hr, ← hvalue],
      by rwa [hr], hqlen, hrlen⟩
    simp only [mpnDivQr2Preinv]
    rw [← hsh, ← hy, if_pos hpos, if_pos hmask]
    rfl
  · have hzero : inv.shift = 0 := by omega
    have hr : value [y.2.2, y.2.1] = r' := by simpa [hzero] using hwide
    refine ⟨y.1, [y.2.2, y.2.1], ?_, by rw [hr, ← hvalue], by rwa [hr], hqlen, rfl⟩
    simp only [mpnDivQr2Preinv]
    rw [← hsh, ← hy, if_neg hpos]

include hw hinv in
theorem divQrPreinv_spec (hnn : dp.length ≤ np.length) (hthree : 3 ≤ dp.length) :
    ∃ qp rp, mpnDivQrPreinv np (shiftUp dp inv.shift).1 inv = some (qp, rp) ∧
      value np = value qp * value dp + value rp ∧ value rp < value dp ∧
      qp.length = np.length - dp.length + 1 ∧ rp.length = dp.length := by
  have hdp : dp ≠ [] := List.ne_nil_of_length_pos (by omega)
  have hnp : np ≠ [] := List.ne_nil_of_length_pos (by omega)
  have hs := hinv.shift_lt.le
  obtain ⟨htp, htlen⟩ := hinv.value_eq hdp
  obtain ⟨hval, hlen⟩ := shiftUp_value hs hnp
  have hlt := hinv.carry_lt hw hnp
  have hhigh := hinv.high
  have hdi := hinv.inverse3by2 (by omega)
  have hd1 := hinv.d1_eq
  have hd0 := hinv.d0_eq (by omega)
  obtain ⟨sh, hsh⟩ : ∃ sh, sh = shiftUp np inv.shift := ⟨_, rfl⟩
  obtain ⟨tp, htp'⟩ : ∃ tp, tp = (shiftUp dp inv.shift).1 := ⟨_, rfl⟩
  rw [← hsh] at hval hlen hlt
  rw [← htp'] at htp htlen hd1 hd0 ⊢
  rw [← htlen] at hd1 hd0
  -- the assertions on the inverse
  have hassert : inv.d1 = tp.getD (tp.length - 1) 0 ∧ inv.d0 = tp.getD (tp.length - 2) 0 ∧
      inv.d1 &&& highbit ≠ 0 := by
    refine ⟨hd1, hd0, fun hzero => ?_⟩
    have hsmall : inv.d1.toNat < 2 ^ (w - 1) := (and_mask_eq_zero_iff hw.pos inv.d1).mp hzero
    have hbase := base_eq_two_mul hw.pos
    omega
  rw [hd1] at hhigh hlt
  rw [hd1, hd0] at hdi
  obtain ⟨hquot, hrem, hrlen, hqlen⟩ := divQrPi1_spec hw (by omega) hhigh hdi sh.1 sh.2
    (by omega) hlt
  obtain ⟨y, hy⟩ : ∃ y, y = mpnDivQrPi1 sh.1 sh.2 tp inv.di := ⟨_, rfl⟩
  rw [← hy] at hquot hrem hrlen hqlen
  rw [hlen, hval, htp] at hquot
  rw [htp] at hrem
  rw [hlen, htlen] at hqlen
  rw [htlen] at hrlen
  obtain ⟨r', hr', hvalue, hlt'⟩ := divide_out hquot hrem
  have hone : tp.length ≠ 1 := by omega
  have htwo : tp.length ≠ 2 := by omega
  by_cases hpos : inv.shift > 0
  · obtain ⟨hr, hout, hlen'⟩ := rshift_exact hs
      (List.ne_nil_of_length_pos (by omega : 0 < y.2.length)) hr'
    refine ⟨y.1, (mpnRshift y.2 inv.shift).1, ?_, by rw [hr, ← hvalue], by rwa [hr], hqlen,
      by rw [hlen', hrlen]⟩
    simp only [mpnDivQrPreinv]
    rw [if_neg hone, if_neg htwo, if_pos hassert, ← hsh, ← hy, if_pos hpos, if_pos hout]
  · have hzero : inv.shift = 0 := by omega
    have hr : value y.2 = r' := by simpa [hzero] using hr'
    refine ⟨y.1, y.2, ?_, by rw [hr, ← hvalue], by rwa [hr], hqlen, hrlen⟩
    simp only [mpnDivQrPreinv]
    rw [if_neg hone, if_neg htwo, if_pos hassert, ← hsh, ← hy, if_neg hpos]

end Preinv

theorem LimbBits.mpnDivQr_spec (hw : LimbBits w) {np dp : List (BitVec w)} (hdp : dp ≠ [])
    (hnormal : Normal dp) (hnn : dp.length ≤ np.length) :
    ∃ qp rp, mpnDivQr np dp = some (qp, rp) ∧
      value np = value qp * value dp + value rp ∧ value rp < value dp ∧
      qp.length = np.length - dp.length + 1 ∧ rp.length = dp.length := by
  have hinv := hw.divQrInvert_normalised hdp hnormal
  have hpos : 0 < dp.length := List.length_pos_of_ne_nil hdp
  have hnp : np ≠ [] := List.ne_nil_of_length_pos (by omega)
  obtain ⟨inv, hi⟩ : ∃ inv, inv = mpnDivQrInvert dp := ⟨_, rfl⟩
  rw [← hi] at hinv
  rcases Nat.lt_or_ge dp.length 3 with hshort | hlong
  · have hkeep : mpnDivQr np dp = mpnDivQrPreinv np dp inv := by
      simp only [mpnDivQr]
      rw [if_neg (by omega), ← hi]
    by_cases hone : dp.length = 1
    · obtain ⟨hnum, hrem, hlen⟩ := divQr1Preinv_spec hw hinv hnp hone
      refine ⟨(mpnDivQr1Preinv np inv).1, [(mpnDivQr1Preinv np inv).2], ?_, ?_, ?_, ?_, ?_⟩
      · rw [hkeep]
        simp only [mpnDivQrPreinv]
        rw [if_pos hone]
      · rwa [value_singleton]
      · rwa [value_singleton]
      · omega
      · exact hone.symm
    · have htwo : dp.length = 2 := by omega
      have hnn' : 2 ≤ np.length := by omega
      obtain ⟨qp, rp, hx, hnum, hrem, hqlen, hrlen⟩ := divQr2Preinv_spec hw hinv htwo hnn'
      refine ⟨qp, rp, ?_, hnum, hrem, by omega, by omega⟩
      rw [hkeep]
      simp only [mpnDivQrPreinv]
      rw [if_neg hone, if_pos htwo, hx]
  · have hshift : mpnDivQr np dp = mpnDivQrPreinv np (shiftUp dp inv.shift).1 inv := by
      have hcarry := hinv.no_carry
      simp only [mpnDivQr]
      rw [← hi]
      by_cases hs : inv.shift > 0
      · rw [if_pos ⟨hlong, hs⟩]
        simp only [shiftUp, if_pos hs] at hcarry ⊢
        rw [if_pos hcarry]
      · rw [if_neg (by omega)]
        simp only [shiftUp, if_neg hs]
    rw [hshift]
    exact divQrPreinv_spec hw hinv hnn hlong

end Pobc.MiniGmp
