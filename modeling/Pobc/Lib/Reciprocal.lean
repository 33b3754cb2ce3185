import Mathlib.Data.Int.ModEq
import Mathlib.Tactic.LinearCombination
import Mathlib.Tactic.Linarith
import Mathlib.Tactic.Ring

/-!
# Division with a precomputed reciprocal

One digit of a quotient in base `b` from one product with the reciprocal of a normalised
divisor, of one digit or of two. The estimate leaves a remainder in a window of the width
of the modulus it is computed with, so two conditional corrections make it exact. Nothing
here refers to a program.
-/

namespace Pobc.Reciprocal

/-- `b + v` is `(m - 1) / d`, rounded down. -/
structure IsReciprocal (b m d v : ℤ) : Prop where
  lt : (b + v) * d < m
  le : m ≤ (b + v + 1) * d

/-- Where the remainder `r` of an estimate can lie, modulo `m`, for a threshold `s`. -/
structure Window (m d s r : ℤ) : Prop where
  neg_le : -d ≤ r
  sub_le : s - m ≤ r
  lt : r < m - d ∨ r < s

/-! ### A divisor of one digit -/

section OneDigit

variable {b d v u1 u0 q1 q0 : ℤ} (hd : 0 < d) (hdb : d < b) (hv : IsReciprocal b (b * b) d v)
  (hu1 : 0 ≤ u1) (hu1d : u1 < d) (hu0 : 0 ≤ u0) (hu0b : u0 < b) (hq0 : 0 ≤ q0) (hq0b : q0 < b)
  (hq : q1 * b + q0 = (b + v) * u1 + u0)

include hd hdb hv hu1 hu1d hu0 hu0b hq0 hq0b hq

/- `b` times the remainder, with the error `b^2 - (b + v) * d` of the reciprocal. -/
theorem window_one : Window b d (q0 + 1) (u1 * b + u0 - (q1 + 1) * d) := by
  let k := b * b - (b + v) * d
  let r := u1 * b + u0 - (q1 + 1) * d
  have hk1 : 0 < k := sub_pos.mpr hv.lt
  have hkd : k ≤ d := by
    have hle := hv.le
    simp only [k]
    linarith
  have hr : b * r = u1 * k + u0 * (b - d) + q0 * d - b * d := by
    simp only [r, k]
    linear_combination (-d) * hq
  have hu1k : 0 ≤ u1 * k := mul_nonneg hu1 hk1.le
  have hu0d : 0 ≤ u0 * (b - d) := mul_nonneg hu0 (by omega)
  have hq0d : 0 ≤ q0 * d := mul_nonneg hq0 hd.le
  have hb : 0 < b := hd.trans hdb
  refine ⟨?_, ?_, ?_⟩
  · refine le_of_mul_le_mul_left ?_ hb
    show b * -d ≤ b * r
    linarith
  · have hgap : (b - q0) * d < (b - q0) * b := mul_lt_mul_of_pos_left hdb (by omega)
    have hlt : b * (q0 - b) < b * r := by
      rw [hr]
      linarith
    have hlt' := lt_of_mul_lt_mul_left hlt hb.le
    show q0 + 1 - b ≤ r
    omega
  · have hu1k' : u1 * k ≤ (d - 1) * d := mul_le_mul (by omega) hkd hk1.le (by omega)
    have hu0d' : u0 * (b - d) ≤ (b - 1) * (b - d) :=
      mul_le_mul_of_nonneg_right (by omega) (by omega)
    have hlt : b * r < (b - d) * (b - d) + d * q0 := by
      rw [hr]
      linarith
    by_contra hout
    push Not at hout
    have hq0r : d * q0 ≤ d * r := mul_le_mul_of_nonneg_left (by omega) hd.le
    have hbd : (b - d) * (b - d) ≤ (b - d) * r := mul_le_mul_of_nonneg_left hout.1 (by omega)
    linarith

end OneDigit

/-! ### A divisor of two digits -/

section TwoDigits

variable {b d v u2 u1 u0 q1 q0 : ℤ} (hb : 0 < b) (hd : 0 < d) (hdb : d < b * b)
  (hv : IsReciprocal b (b * b * b) d v) (hu2 : 0 ≤ u2) (hu : u2 * b + u1 < d) (hu1b : u1 < b)
  (hu0b : u0 < b)

include hb hd hdb hv hu2 hu hu1b hu0b in
/- The upper bound when `d` leaves room below `b^2`. -/
theorem lt_of_room (hroom : (b + 1) * d ≤ b * b * b) :
    u2 * (b * b * b - (b + v) * d) + u1 * (b * b - d) + u0 * b + q0 * d - b * d <
      b * max (b * b - d) (q0 * b) := by
  let k := b * b * b - (b + v) * d
  let c := max (b * b - d) (q0 * b)
  have hkd : k ≤ d := by
    have hle := hv.le
    simp only [k]
    linarith
  have hu2k : u2 * k ≤ u2 * d := mul_le_mul_of_nonneg_left hkd hu2
  -- everything times `b`, with `u2 * b` bounded by `d - 1 - u1`
  have hu2d : u2 * b * d ≤ (d - 1 - u1) * d := mul_le_mul_of_nonneg_right (by omega) hd.le
  have hcoef : u1 * (b * b * b - (b + 1) * d) ≤ (b - 1) * (b * b * b - (b + 1) * d) :=
    mul_le_mul_of_nonneg_right (by omega) (by omega)
  have hu0b' : u0 * (b * b) ≤ (b - 1) * (b * b) :=
    mul_le_mul_of_nonneg_right (by omega) (mul_nonneg hb.le hb.le)
  have hbb : 0 < b * b := mul_pos hb hb
  have hsq : b * (u2 * d + u1 * (b * b - d) + u0 * b - b * d) < (b * b - d) * (b * b - d) := by
    linarith
  have hc1 : (b * b - d) * (b * b - d) ≤ (b * b - d) * c :=
    mul_le_mul_of_nonneg_left (le_max_left _ _) (by omega)
  have hc2 : d * (q0 * b) ≤ d * c := mul_le_mul_of_nonneg_left (le_max_right _ _) hd.le
  have hexp : b * (u2 * k) ≤ b * (u2 * d) := mul_le_mul_of_nonneg_left hu2k hb.le
  refine lt_of_mul_lt_mul_left ?_ hb.le
  show b * (u2 * k + u1 * (b * b - d) + u0 * b + q0 * d - b * d) < b * (b * c)
  linarith

variable (hv0 : 0 ≤ v) (hu1 : 0 ≤ u1) (hu0 : 0 ≤ u0) (hq0 : 0 ≤ q0) (hq0b : q0 < b)
  (hq : q1 * b + q0 = (b + v) * u2 + u1)

include hb hdb hv hu hu1 hu1b hu0b hv0 hq0 hq0b hq in
/- Without room the reciprocal is zero, and the estimate is the leading digit. -/
theorem lt_of_no_room (hroom : b * b * b < (b + 1) * d) :
    u2 * b * b + u1 * b + u0 - (q1 + 1) * d < q0 * b := by
  have hv0' : v = 0 := by
    by_contra hne
    have hone : 1 * d ≤ v * d := mul_le_mul_of_nonneg_right (by omega) (by nlinarith)
    have hlt := hv.lt
    linarith
  rw [hv0', add_zero] at hq
  have hq1 : q1 = u2 := by
    have hdiff : (q1 - u2) * b = u1 - q0 := by linarith
    have hlow : -1 < q1 - u2 := by nlinarith
    have hhigh : q1 - u2 < 1 := by nlinarith
    omega
  have hq0' : q0 = u1 := by
    rw [hq1] at hq
    linarith
  have hgap : b * b - d < b := by
    have hlt : b * (b * b - d) < b * b := by linarith
    exact lt_of_mul_lt_mul_left hlt hb.le
  have hu2b : u2 < b := by nlinarith
  have hprod : (u2 + 1) * (b * b - d) ≤ b * (b - 1) :=
    mul_le_mul (by omega) (by omega) (by omega) hb.le
  rw [hq1, hq0']
  linarith

include hb hd hdb hv hu2 hu hu1 hu1b hu0 hu0b hv0 hq0 hq0b hq in
theorem window_two : Window (b * b) d (q0 * b) (u2 * b * b + u1 * b + u0 - (q1 + 1) * d) := by
  let k := b * b * b - (b + v) * d
  let r := u2 * b * b + u1 * b + u0 - (q1 + 1) * d
  have hr : b * r = u2 * k + u1 * (b * b - d) + u0 * b + q0 * d - b * d := by
    simp only [r, k]
    linear_combination (-d) * hq
  have hu2k : 0 ≤ u2 * k := mul_nonneg hu2 (sub_nonneg.mpr hv.lt.le)
  have hu1d : 0 ≤ u1 * (b * b - d) := mul_nonneg hu1 (by omega)
  have hu0b' : 0 ≤ u0 * b := mul_nonneg hu0 hb.le
  have hq0d : 0 ≤ q0 * d := mul_nonneg hq0 hd.le
  refine ⟨?_, ?_, ?_⟩
  · refine le_of_mul_le_mul_left ?_ hb
    show b * -d ≤ b * r
    linarith
  · have hgap : (b - q0) * d ≤ (b - q0) * (b * b) := mul_le_mul_of_nonneg_left hdb.le (by omega)
    refine le_of_mul_le_mul_left ?_ hb
    show b * (q0 * b - b * b) ≤ b * r
    linarith
  · rcases le_or_gt ((b + 1) * d) (b * b * b) with hroom | hroom
    · have hlt : b * r < b * max (b * b - d) (q0 * b) := by
        rw [hr]
        exact lt_of_room hb hd hdb hv hu2 hu hu1b hu0b hroom
      exact lt_max_iff.mp (lt_of_mul_lt_mul_left hlt hb.le)
    · exact Or.inr (lt_of_no_room hb hdb hv hu hu1b hu0b hv0 hu1 hq0 hq0b hq hroom)

include hb hv hu hv0 hu1 in
/- The estimate is one digit. -/
theorem estimate_lt : (b + v) * u2 + u1 < b * b := by
  have hbv : 0 < b + v := by omega
  have hscale : b * u1 ≤ (b + v) * u1 := mul_le_mul_of_nonneg_right (by omega) hu1
  have hprod : (b + v) * (u2 * b + u1) < (b + v) * d := mul_lt_mul_of_pos_left hu hbv
  have hlt := hv.lt
  refine lt_of_mul_lt_mul_left ?_ hb.le
  linarith

end TwoDigits

/-! ### Registers -/

/- A register holds a number modulo `m`. -/
theorem register_cases {m r x : ℤ} (hx : 0 ≤ x) (hxm : x < m) (hlow : -m ≤ r) (hhigh : r < m)
    (h : x ≡ r [ZMOD m]) : x = r ∨ x = r + m := by
  obtain ⟨k, hk⟩ := h.dvd
  have hlow' : -2 < k := by nlinarith
  have hhigh' : k < 1 := by nlinarith
  have hcases : k = -1 ∨ k = 0 := by omega
  rcases hcases with rfl | rfl
  · right
    linarith
  · left
    linarith

/- The first correction: `x` holds the remainder of the estimate, `y` the same plus `d`. The
comparison with the threshold tells which of them did not wrap around. -/
theorem corrected {m d s r x y : ℤ} (hr : Window m d s r) (hmd : m ≤ 2 * d) (hdm : d < m)
    (hs : s ≤ m) (hx : 0 ≤ x) (hxm : x < m) (hxr : x ≡ r [ZMOD m]) (hy : 0 ≤ y) (hym : y < m)
    (hyr : y ≡ r + d [ZMOD m]) : (s ≤ x → y = r + d) ∧ (x < s → x = r) := by
  obtain ⟨h1, h2, h3⟩ := hr
  have hx' := register_cases hx hxm (by omega) (by omega) hxr
  constructor
  · intro hsx
    cases hx' with
    | inl hx' => rcases register_cases hy hym (by omega) (by omega) hyr with hy' | hy' <;> omega
    | inr hx' => rcases register_cases hy hym (by omega) (by omega) hyr with hy' | hy' <;> omega
  · intro hxs
    cases hx' with
    | inl hx' => exact hx'
    | inr hx' => omega

/- The quotient fits in a digit. -/
theorem quotient_range {b d n q z : ℤ} (h : n = q * d + z) (hz : 0 ≤ z) (hzd : z < d)
    (hn : 0 ≤ n) (hnd : n < b * d) : 0 ≤ q ∧ q < b := by
  have hd : 0 < d := hz.trans_lt hzd
  have hlow : -1 * d < q * d := by linarith
  have hhigh : q * d < b * d := by linarith
  have hq := lt_of_mul_lt_mul_right hlow hd.le
  exact ⟨by omega, lt_of_mul_lt_mul_right hhigh hd.le⟩

end Pobc.Reciprocal
