import Pobc.MiniGmp.Limb
import Pobc.Lib.Reciprocal

/-!
# Division of two and of three limbs (`mimc-gmp/mini-gmp.c:172-216`)

The macros that divide by one or by two limbs whose inverse is known: the estimate of the
quotient from one product with the inverse, and two corrections.
-/

namespace Pobc.MiniGmp
open Pobc.Limbs Pobc.Reciprocal

variable {w : ℕ}

/-- `gmp_udiv_qrnnd_preinv`: quotient and remainder. -/
def udivQrnndPreinv (nh nl d di : BitVec w) : BitVec w × BitVec w :=
  let (qh, ql) := umulPpmm nh di
  let (qh, ql) := addSsaaaa qh ql (nh + 1) nl
  let r := nl - qh * d
  let mask := -flag (r > ql)
  let qh := qh + mask
  let r := r + (mask &&& d)
  if r ≥ d then (qh + 1, r - d) else (qh, r)

/-- `gmp_udiv_qr_3by2`: quotient, and the two limbs of the remainder. -/
def udivQr3by2 (n2 n1 n0 d1 d0 dinv : BitVec w) : BitVec w × BitVec w × BitVec w :=
  let (q, q0) := umulPpmm n2 dinv
  let (q, q0) := addSsaaaa q q0 n2 n1
  let r1 := n1 - d1 * q
  let (r1, r0) := subDdmmss r1 n0 d1 d0
  let (t1, t0) := umulPpmm d0 q
  let (r1, r0) := subDdmmss r1 r0 t1 t0
  let q := q + 1
  let mask := -flag (r1 ≥ q0)
  let q := q + mask
  let (r1, r0) := addSsaaaa r1 r0 (mask &&& d1) (mask &&& d0)
  if r1 ≥ d1 then
    if r1 > d1 ∨ r0 ≥ d0 then
      let (r1, r0) := subDdmmss r1 r0 d1 d0
      (q + 1, r1, r0)
    else (q, r1, r0)
  else (q, r1, r0)

/-! ### Division with the inverse -/

/-- What `di` is to a normalised limb `d`: its 2/1 inverse. -/
def Inverse (d di : BitVec w) : Prop :=
  IsReciprocal (base w) (base w * base w) d.toNat di.toNat

/-- What `dinv` is to two limbs, the higher one normalised: their 3/2 inverse. -/
def Inverse3by2 (d1 d0 dinv : BitVec w) : Prop :=
  IsReciprocal (base w) (base w * base w * base w) (wide (d1, d0)) dinv.toNat

/- Two registers that hold a number modulo the square of the base. -/
theorem wide_modEq {x : BitVec w × BitVec w} {h l : ℤ} (hl : 0 ≤ l) (hlt : l < base w)
    (hx : (wide x : ℤ) ≡ l + base w * h [ZMOD base w * base w]) :
    (x.2.toNat : ℤ) = l ∧ (x.1.toNat : ℤ) ≡ h [ZMOD base w] := by
  have hwide : (wide x : ℤ) = x.2.toNat + base w * x.1.toNat := by simp [wide]
  rw [hwide] at hx
  have hlow : (x.2.toNat : ℤ) = l := by
    refine toNat_eq_of_modEq ?_ hl hlt
    have hmod := hx.of_mul_left (base w : ℤ)
    simpa only [Int.ModEq, Int.add_mul_emod_self_left] using hmod
  refine ⟨hlow, ?_⟩
  rw [hlow] at hx
  have hb : (base w : ℤ) ≠ 0 := by exact_mod_cast (base_pos w).ne'
  exact Int.ModEq.mul_left_cancel' hb (Int.ModEq.add_left_cancel' l hx)

/- The second correction. -/
theorem LimbBits.last_correction (hw : LimbBits w) {q z d : BitVec w} {n c : ℤ}
    (hd : base w ≤ 2 * d.toNat) (hq : (q.toNat : ℤ) ≡ c [ZMOD base w])
    (hn : n = c * d.toNat + z.toNat) (hn0 : 0 ≤ n) (hnd : n < base w * d.toNat) :
    let x := if z ≥ d then (q + 1, z - d) else (q, z)
    (x.1.toNat * d.toNat + x.2.toNat : ℤ) = n ∧ x.2 < d := by
  have hz := toNat_lt_base' z
  by_cases hge : z ≥ d
  · rw [if_pos hge]
    have hle : d.toNat ≤ z.toNat := BitVec.le_def.mp hge
    have hsub : (z - d).toNat = z.toNat - d.toNat := BitVec.toNat_sub_of_le hge
    have hrest : (z - d).toNat < d.toNat := by omega
    have hn' : n = (c + 1) * d.toNat + (z - d).toNat := by
      rw [hn, hsub, Nat.cast_sub hle]
      ring
    obtain ⟨hc0, hcβ⟩ := quotient_range hn' (Int.natCast_nonneg _) (by omega) hn0 hnd
    have hone : ((q + 1).toNat : ℤ) ≡ c + 1 [ZMOD base w] := by
      have hadd := modEq_toNat_add q 1
      rw [toNat_one hw.pos] at hadd
      exact hadd.trans (hq.add_right 1)
    refine ⟨?_, BitVec.lt_def.mpr hrest⟩
    rw [toNat_eq_of_modEq hone hc0 hcβ, hn']
  · rw [if_neg hge]
    have hrest : z.toNat < d.toNat := Nat.lt_of_not_le fun h => hge (BitVec.le_def.mpr h)
    obtain ⟨hc0, hcβ⟩ := quotient_range hn (Int.natCast_nonneg _) (by omega) hn0 hnd
    refine ⟨?_, BitVec.lt_def.mpr hrest⟩
    rw [toNat_eq_of_modEq hq hc0 hcβ, hn]

/- The estimate of `gmp_udiv_qrnnd_preinv` is one more than the high limb of `n`. -/
theorem LimbBits.estimate_one (hw : LimbBits w) {nh nl di : BitVec w} {n : ℤ}
    (hnh : nh.toNat + 1 < base w) (hn : n = (base w + di.toNat) * nh.toNat + nl.toNat) :
    let e := addSsaaaa (umulPpmm nh di).1 (umulPpmm nh di).2 (nh + 1) nl
    (e.2.toNat : ℤ) = n % base w ∧ (e.1.toNat : ℤ) ≡ n / base w + 1 [ZMOD base w] := by
  have hβ : (0 : ℤ) < base w := by exact_mod_cast base_pos w
  have hone : (nh + 1).toNat = nh.toNat + 1 := by
    rw [← toNat_one hw.pos] at hnh
    rw [BitVec.toNat_add_of_lt hnh, toNat_one hw.pos]
  refine wide_modEq (Int.emod_nonneg n hβ.ne') (Int.emod_lt_of_pos n hβ) ?_
  have hprod : wide ((umulPpmm nh di).1, (umulPpmm nh di).2) = nh.toNat * di.toNat :=
    hw.wide_umulPpmm nh di
  have heq : n % base w + base w * (n / base w + 1) =
      ((nh.toNat * di.toNat : ℕ) : ℤ) + (wide (nh + 1, nl) : ℕ) := by
    have hdiv := Int.emod_add_mul_ediv n (base w)
    simp only [wide, hone]
    push_cast
    linear_combination hdiv + hn
  rw [heq, ← hprod]
  exact modEq_wide_addSsaaaa hw.pos _ _ _ _

/-- With the inverse of a normalised limb, the quotient of two limbs and the remainder. -/
theorem LimbBits.udivQrnndPreinv_spec (hw : LimbBits w) {nh d di : BitVec w}
    (hd : base w ≤ 2 * d.toNat) (hdi : Inverse d di) (hn : nh < d) (nl : BitVec w) :
    let x := udivQrnndPreinv nh nl d di
    x.1.toNat * d.toNat + x.2.toNat = wide (nh, nl) ∧ x.2 < d := by
  have hβ : (0 : ℤ) < base w := by exact_mod_cast base_pos w
  have hnd : nh.toNat < d.toNat := BitVec.lt_def.mp hn
  have hdβ := toNat_lt_base d
  have hnl := toNat_lt_base nl
  obtain ⟨n, hn⟩ : ∃ n : ℤ, n = (base w + di.toNat) * nh.toNat + nl.toNat := ⟨_, rfl⟩
  let e := addSsaaaa (umulPpmm nh di).1 (umulPpmm nh di).2 (nh + 1) nl
  obtain ⟨hq0, hq1⟩ : (e.2.toNat : ℤ) = n % base w ∧
      (e.1.toNat : ℤ) ≡ n / base w + 1 [ZMOD base w] := hw.estimate_one (by omega) hn
  -- the remainder of the estimate, modulo the base
  obtain ⟨r, hr⟩ : ∃ r : ℤ, r = nh.toNat * base w + nl.toNat - (n / base w + 1) * d.toNat :=
    ⟨_, rfl⟩
  have hwindow : Window (base w) d.toNat (n % base w + 1) r := by
    rw [hr]
    refine window_one (by omega) (by omega) hdi (by omega) (by omega) (by omega) (by omega)
      (Int.emod_nonneg n hβ.ne') (Int.emod_lt_of_pos n hβ) ?_
    have hdiv := Int.emod_add_mul_ediv n (base w)
    linear_combination hdiv + hn
  let x := nl - e.1 * d
  have hx : (x.toNat : ℤ) ≡ r [ZMOD base w] := by
    have hprod := (modEq_toNat_mul e.1 d).trans (hq1.mul_right _)
    have hsub := (modEq_toNat_sub nl (e.1 * d)).trans (hprod.sub_left _)
    refine hsub.trans (Int.modEq_iff_dvd.mpr ⟨nh.toNat, ?_⟩)
    rw [hr]
    ring
  have hy : ((x + d).toNat : ℤ) ≡ r + d.toNat [ZMOD base w] :=
    (modEq_toNat_add x d).trans (hx.add_right _)
  have hq0β := Int.emod_lt_of_pos n hβ
  obtain ⟨hwrap, hkeep⟩ := corrected hwindow (by omega) (by omega) (by omega)
    (Int.natCast_nonneg _) (toNat_lt_base' x) hx (Int.natCast_nonneg _) (toNat_lt_base' _) hy
  -- the first correction
  let z := x + (-flag (x > e.2) &&& d)
  have hz : (wide (nh, nl) : ℤ) =
      (n / base w + 1 + if x > e.2 then -1 else 0) * d.toNat + z.toNat := by
    have hwide : (wide (nh, nl) : ℤ) = nl.toNat + base w * nh.toNat := by simp [wide]
    simp only [z, mask_and]
    by_cases hgt : x > e.2
    · have hlt : e.2.toNat < x.toNat := BitVec.lt_def.mp hgt
      rw [if_pos hgt, if_pos hgt, hwrap (by omega), hr, hwide]
      ring
    · have hle : x.toNat ≤ e.2.toNat := Nat.le_of_not_lt fun h => hgt (BitVec.lt_def.mpr h)
      rw [if_neg hgt, if_neg hgt, BitVec.add_zero, hkeep (by omega), hr, hwide]
      ring
  have hqh : ((e.1 + -flag (x > e.2)).toNat : ℤ) ≡
      n / base w + 1 + (if x > e.2 then -1 else 0) [ZMOD base w] :=
    (modEq_toNat_add _ _).trans (hq1.add (modEq_mask hw.pos _))
  have hfits : wide (nh, nl) < base w * d.toNat := by
    have hmul : base w * (nh.toNat + 1) ≤ base w * d.toNat := Nat.mul_le_mul_left _ hnd
    rw [Nat.mul_add] at hmul
    simp only [wide]
    omega
  have hlast := hw.last_correction hd hqh hz (Int.natCast_nonneg _) (by exact_mod_cast hfits)
  exact_mod_cast hlast

/-! ### `gmp_udiv_qr_3by2` -/

/- Two registers that hold a number below the square of the base. -/
theorem wide_eq_of_modEq {x : BitVec w × BitVec w} {n : ℤ}
    (h : (wide x : ℤ) ≡ n [ZMOD base w * base w]) (hn : 0 ≤ n) (hlt : n < base w * base w) :
    (wide x : ℤ) = n :=
  eq_of_modEq h (Int.natCast_nonneg _) (by exact_mod_cast wide_lt x) hn hlt

theorem addSsaaaa_mask (p : Prop) [Decidable p] (x : BitVec w × BitVec w) (bh bl : BitVec w) :
    addSsaaaa x.1 x.2 (-flag p &&& bh) (-flag p &&& bl) =
      if p then addSsaaaa x.1 x.2 bh bl else x := by
  rw [mask_and, mask_and]
  split
  · rfl
  · simp [addSsaaaa, flag]

/- The estimate of `gmp_udiv_qr_3by2` is the high limb of `n`, which has two. -/
theorem LimbBits.estimate_two (hw : LimbBits w) {n2 n1 dinv : BitVec w} {n : ℤ}
    (hn : n = (base w + dinv.toNat) * n2.toNat + n1.toNat) (hlt : n < base w * base w) :
    let e := addSsaaaa (umulPpmm n2 dinv).1 (umulPpmm n2 dinv).2 n2 n1
    (e.2.toNat : ℤ) = n % base w ∧ (e.1.toNat : ℤ) = n / base w := by
  have hβ : (0 : ℤ) < base w := by exact_mod_cast base_pos w
  have hn0 : 0 ≤ n := by
    rw [hn]
    positivity
  have hprod : wide ((umulPpmm n2 dinv).1, (umulPpmm n2 dinv).2) = n2.toNat * dinv.toNat :=
    hw.wide_umulPpmm n2 dinv
  have hdiv := Int.emod_add_mul_ediv n (base w)
  have heq : n % base w + base w * (n / base w) =
      ((n2.toNat * dinv.toNat : ℕ) : ℤ) + (wide (n2, n1) : ℕ) := by
    simp only [wide]
    push_cast
    linear_combination hdiv + hn
  have hsum := modEq_wide_addSsaaaa hw.pos (umulPpmm n2 dinv).1 (umulPpmm n2 dinv).2 n2 n1
  rw [hprod, ← heq] at hsum
  obtain ⟨hlow, hhigh⟩ := wide_modEq (Int.emod_nonneg n hβ.ne') (Int.emod_lt_of_pos n hβ) hsum
  exact ⟨hlow, toNat_eq_of_modEq hhigh (Int.ediv_nonneg hn0 hβ.le) (Int.ediv_lt_of_lt_mul hβ hlt)⟩

/- The remainder of the estimate, in two limbs. -/
theorem LimbBits.remainder_two (hw : LimbBits w) (n2 n1 n0 d1 d0 q : BitVec w) :
    let x := subDdmmss (n1 - d1 * q) n0 d1 d0
    let t := umulPpmm d0 q
    (wide (subDdmmss x.1 x.2 t.1 t.2) : ℤ) ≡ n2.toNat * base w * base w + n1.toNat * base w +
      n0.toNat - (q.toNat + 1) * wide (d1, d0) [ZMOD base w * base w] := by
  intro x t
  have ht : (wide (t.1, t.2) : ℤ) = d0.toNat * q.toNat := by
    exact_mod_cast hw.wide_umulPpmm d0 q
  have hhigh : ((n1 - d1 * q).toNat : ℤ) ≡ n1.toNat - d1.toNat * q.toNat [ZMOD base w] :=
    (modEq_toNat_sub n1 (d1 * q)).trans ((modEq_toNat_mul d1 q).sub_left _)
  have hx : (wide (x.1, x.2) : ℤ) ≡ _ [ZMOD base w * base w] :=
    (modEq_wide_subDdmmss hw.pos _ _ _ _).trans
      ((modEq_wide (x := (n1 - d1 * q, n0)) hhigh rfl).sub_right _)
  have hsub := modEq_wide_subDdmmss hw.pos x.1 x.2 t.1 t.2
  rw [ht] at hsub
  refine (hsub.trans (hx.sub_right _)).trans (Int.modEq_iff_dvd.mpr ⟨n2.toNat, ?_⟩)
  rw [wide_cast]
  ring

/- The second correction. -/
theorem LimbBits.last_correction_two (hw : LimbBits w) {q d1 d0 : BitVec w}
    {z : BitVec w × BitVec w} {n c : ℤ} (hd : base w ≤ 2 * d1.toNat)
    (hq : (q.toNat : ℤ) ≡ c [ZMOD base w]) (hn : n = c * wide (d1, d0) + wide z) (hn0 : 0 ≤ n)
    (hnd : n < base w * wide (d1, d0)) :
    let x := if z.1 ≥ d1 then
        if z.1 > d1 ∨ z.2 ≥ d0 then (q + 1, subDdmmss z.1 z.2 d1 d0) else (q, z)
      else (q, z)
    (x.1.toNat * wide (d1, d0) + wide x.2 : ℤ) = n ∧ wide x.2 < wide (d1, d0) := by
  intro x
  have hz := wide_lt z
  have hdd : base w * base w ≤ 2 * wide (d1, d0) := by
    have hmul := Nat.mul_le_mul_left (base w) hd
    simp only [wide]
    linarith
  by_cases hge : wide (d1, d0) ≤ wide z
  · have hx : x = (q + 1, subDdmmss z.1 z.2 d1 d0) := by
      obtain ⟨h1, h2⟩ := (wide_le_iff z (d1, d0)).mp hge
      exact (if_pos h1).trans (if_pos h2)
    have hsub : (wide (subDdmmss z.1 z.2 d1 d0) : ℤ) = wide z - wide (d1, d0) := by
      refine wide_eq_of_modEq (modEq_wide_subDdmmss hw.pos z.1 z.2 d1 d0) ?_ ?_
      · exact sub_nonneg.mpr (by exact_mod_cast hge)
      · have hz' : (wide z : ℤ) < base w * base w := by exact_mod_cast hz
        exact (sub_le_self _ (Int.natCast_nonneg _)).trans_lt hz'
    have hrest : wide (subDdmmss z.1 z.2 d1 d0) < wide (d1, d0) := by omega
    have hn' : n = (c + 1) * wide (d1, d0) + wide (subDdmmss z.1 z.2 d1 d0) := by
      rw [hn, hsub]
      ring
    obtain ⟨hc0, hcβ⟩ := quotient_range hn' (Int.natCast_nonneg _) (by omega) hn0 hnd
    have hone : ((q + 1).toNat : ℤ) ≡ c + 1 [ZMOD base w] := by
      have hadd := modEq_toNat_add q 1
      rw [toNat_one hw.pos] at hadd
      exact hadd.trans (hq.add_right 1)
    rw [hx]
    refine ⟨?_, hrest⟩
    rw [toNat_eq_of_modEq hone hc0 hcβ, hn']
  · have hx : x = (q, z) := by
      by_cases h1 : z.1 ≥ d1
      · have h2 : ¬ (z.1 > d1 ∨ z.2 ≥ d0) := fun h2 => hge ((wide_le_iff z (d1, d0)).mpr ⟨h1, h2⟩)
        exact (if_pos h1).trans (if_neg h2)
      · exact if_neg h1
    obtain ⟨hc0, hcβ⟩ := quotient_range hn (Int.natCast_nonneg _) (by omega) hn0 hnd
    rw [hx]
    refine ⟨?_, Nat.lt_of_not_le hge⟩
    rw [toNat_eq_of_modEq hq hc0 hcβ, hn]

/- The high limb decides whether two limbs reach a multiple of the base. -/
theorem high_ge_iff (x : BitVec w × BitVec w) (e : BitVec w) :
    x.1 ≥ e ↔ (e.toNat * base w : ℤ) ≤ wide x := by
  have hβ : (0 : ℤ) < base w := by exact_mod_cast base_pos w
  have hx2 := toNat_lt_base' x.2
  rw [ge_iff_le, BitVec.le_def, wide_cast]
  constructor
  · intro hle
    have hmul := mul_le_mul_of_nonneg_left (Nat.cast_le.mpr hle) hβ.le
    linarith [Int.natCast_nonneg (x.2.toNat)]
  · intro hle
    by_contra hlt
    have hsucc : (x.1.toNat : ℤ) + 1 ≤ e.toNat := by omega
    have hmul := mul_le_mul_of_nonneg_left hsucc hβ.le
    linarith

section ThreeByTwo

variable {n2 n1 d1 d0 dinv : BitVec w} (hd : base w ≤ 2 * d1.toNat)
  (hdinv : Inverse3by2 d1 d0 dinv) (hn : wide (n2, n1) < wide (d1, d0))

include hdinv hn in
theorem estimate_two_lt :
    ((base w + dinv.toNat) * n2.toNat + n1.toNat : ℤ) < base w * base w := by
  have hβ : (0 : ℤ) < base w := by exact_mod_cast base_pos w
  refine estimate_lt hβ hdinv ?_ (Int.natCast_nonneg _) (Int.natCast_nonneg _)
  have hlt : (wide (n2, n1) : ℤ) < wide (d1, d0) := by exact_mod_cast hn
  rw [wide_cast (n2, n1)] at hlt
  linarith

include hdinv hn in
theorem estimate_two_window (n0 : BitVec w) {n : ℤ}
    (h : n = (base w + dinv.toNat) * n2.toNat + n1.toNat) :
    Window (base w * base w) (wide (d1, d0)) (n % base w * base w)
      (n2.toNat * base w * base w + n1.toNat * base w + n0.toNat -
        (n / base w + 1) * wide (d1, d0)) := by
  have hβ : (0 : ℤ) < base w := by exact_mod_cast base_pos w
  have hnd : (n2.toNat : ℤ) * base w + n1.toNat < wide (d1, d0) := by
    have hlt : (wide (n2, n1) : ℤ) < wide (d1, d0) := by exact_mod_cast hn
    rw [wide_cast (n2, n1)] at hlt
    linarith
  refine window_two hβ (by omega) (by exact_mod_cast wide_lt (d1, d0)) hdinv
    (Int.natCast_nonneg _) hnd (toNat_lt_base' n1) (toNat_lt_base' n0) (Int.natCast_nonneg _)
    (Int.natCast_nonneg _) (Int.natCast_nonneg _) (Int.emod_nonneg n hβ.ne')
    (Int.emod_lt_of_pos n hβ) ?_
  have hdiv := Int.emod_add_mul_ediv n (base w)
  linear_combination hdiv + h

include hd hdinv hn in
/- The first correction, on the limbs `x` of the remainder and the low limb `e` of the estimate. -/
theorem first_correction_two (hw : LimbBits w) (n0 : BitVec w) {n : ℤ} {e : BitVec w}
    {x : BitVec w × BitVec w} (h : n = (base w + dinv.toNat) * n2.toNat + n1.toNat)
    (he : (e.toNat : ℤ) = n % base w)
    (hx : (wide x : ℤ) ≡ n2.toNat * base w * base w + n1.toNat * base w + n0.toNat -
      (n / base w + 1) * wide (d1, d0) [ZMOD base w * base w]) :
    (wide (n2, n1) * base w + n0.toNat : ℤ) =
      (n / base w + 1 + if x.1 ≥ e then -1 else 0) * wide (d1, d0) +
        wide (addSsaaaa x.1 x.2 (-flag (x.1 ≥ e) &&& d1) (-flag (x.1 ≥ e) &&& d0)) := by
  have hβ : (0 : ℤ) < base w := by exact_mod_cast base_pos w
  let y := addSsaaaa x.1 x.2 d1 d0
  have hy : (wide y : ℤ) ≡ n2.toNat * base w * base w + n1.toNat * base w + n0.toNat -
      (n / base w + 1) * wide (d1, d0) + wide (d1, d0) [ZMOD base w * base w] :=
    (modEq_wide_addSsaaaa hw.pos _ _ _ _).trans (hx.add_right _)
  have hhigh : (base w * base w : ℤ) ≤ 2 * wide (d1, d0) := by
    have hmul : (base w * base w : ℤ) ≤ base w * (2 * d1.toNat) :=
      mul_le_mul_of_nonneg_left (by exact_mod_cast hd) hβ.le
    rw [wide_cast]
    linarith [Int.natCast_nonneg (d0.toNat)]
  have hthreshold : (e.toNat * base w : ℤ) ≤ base w * base w :=
    mul_le_mul_of_nonneg_right (toNat_lt_base' e).le hβ.le
  have hwindow := estimate_two_window hdinv hn n0 h
  rw [← he] at hwindow
  obtain ⟨hwrap, hkeep⟩ := corrected hwindow hhigh (by exact_mod_cast wide_lt (d1, d0)) hthreshold
    (Int.natCast_nonneg _) (by exact_mod_cast wide_lt x) hx (Int.natCast_nonneg _)
    (by exact_mod_cast wide_lt y) hy
  rw [addSsaaaa_mask]
  by_cases hge : x.1 ≥ e
  · rw [if_pos hge, if_pos hge, hwrap ((high_ge_iff x e).mp hge), wide_cast (n2, n1)]
    ring
  · rw [if_neg hge, if_neg hge, hkeep (lt_of_not_ge fun h => hge ((high_ge_iff x e).mpr h)),
      wide_cast (n2, n1)]
    ring

include hd hdinv hn in
/-- With the inverse of two limbs, the quotient of three limbs and the remainder. -/
theorem LimbBits.udivQr3by2_spec (hw : LimbBits w) (n0 : BitVec w) :
    let x := udivQr3by2 n2 n1 n0 d1 d0 dinv
    x.1.toNat * wide (d1, d0) + wide x.2 = wide (n2, n1) * base w + n0.toNat ∧
      wide x.2 < wide (d1, d0) := by
  obtain ⟨n, hn'⟩ : ∃ n : ℤ, n = (base w + dinv.toNat) * n2.toNat + n1.toNat := ⟨_, rfl⟩
  let e := addSsaaaa (umulPpmm n2 dinv).1 (umulPpmm n2 dinv).2 n2 n1
  obtain ⟨hq0, hq1⟩ : (e.2.toNat : ℤ) = n % base w ∧ (e.1.toNat : ℤ) = n / base w :=
    hw.estimate_two hn' (hn' ▸ estimate_two_lt hdinv hn)
  -- the remainder of the estimate, modulo the square of the base
  let s := subDdmmss (n1 - d1 * e.1) n0 d1 d0
  let t := umulPpmm d0 e.1
  let x := subDdmmss s.1 s.2 t.1 t.2
  have hx : (wide x : ℤ) ≡ n2.toNat * base w * base w + n1.toNat * base w + n0.toNat -
      (n / base w + 1) * wide (d1, d0) [ZMOD base w * base w] := by
    rw [← hq1]
    exact hw.remainder_two n2 n1 n0 d1 d0 e.1
  have hz := first_correction_two hd hdinv hn hw n0 hn' hq0 hx
  have hq : ((e.1 + 1 + -flag (x.1 ≥ e.2)).toNat : ℤ) ≡
      n / base w + 1 + (if x.1 ≥ e.2 then -1 else 0) [ZMOD base w] := by
    have hone := modEq_toNat_add e.1 1
    rw [toNat_one hw.pos, hq1] at hone
    exact (modEq_toNat_add _ _).trans (hone.add (modEq_mask hw.pos _))
  have hfits : wide (n2, n1) * base w + n0.toNat < base w * wide (d1, d0) := by
    have hmul : base w * (wide (n2, n1) + 1) ≤ base w * wide (d1, d0) := Nat.mul_le_mul_left _ hn
    have hn0 := toNat_lt_base n0
    linarith
  have hlast := hw.last_correction_two hd hq hz (by positivity) (by exact_mod_cast hfits)
  exact_mod_cast hlast

end ThreeByTwo

end Pobc.MiniGmp
