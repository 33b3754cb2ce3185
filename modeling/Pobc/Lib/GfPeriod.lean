import Pobc.Lib.Gf
import Mathlib.Data.Nat.Prime.Basic
import Mathlib.Dynamics.PeriodicPts.Defs

/-!
# How soon multiplication by `y` comes back

The period of an element under `mulY`. If `N` steps are a round and `N / q` steps move
the element, for a prime `q`, then `q` divides the period; a few such primes bound it
from below without the factorization of `N`. That `n` steps move every element but zero
takes one product: an inverse of `y^n + 1`.
-/

namespace Pobc
open Function

theorem dvd_minimalPeriod {α : Type*} (f : α → α) (x : α) (N q : ℕ) (hq : q.Prime) (hdvd : q ∣ N)
    (hround : IsPeriodicPt f N x) (hmoves : ¬ IsPeriodicPt f (N / q) x) :
    q ∣ minimalPeriod f x := by
  by_contra hnot
  have hcoprime : (minimalPeriod f x).Coprime q :=
    ((Nat.Prime.coprime_iff_not_dvd hq).mpr hnot).symm
  have hperiod : minimalPeriod f x ∣ q * (N / q) := by
    rw [Nat.mul_div_cancel' hdvd]
    exact hround.minimalPeriod_dvd
  exact hmoves (isPeriodicPt_iff_minimalPeriod_dvd.mpr (hcoprime.dvd_of_dvd_mul_left hperiod))

namespace Gf

variable {w : ℕ} {p : BitVec w}

/-! ### Products of numbers

The operations on the numbers that the words are, for terms that are to be evaluated. -/

/-- `mulY` on numbers. -/
def shiftNat (w p a : ℕ) : ℕ := 2 * a % 2^w ^^^ 2 * a / 2^w * p

def mulNat (w p : ℕ) : ℕ → ℕ → ℕ → ℕ
  | 0, _, _ => 0
  | n + 1, b, a => b % 2 * a ^^^ mulNat w p n (b / 2) (shiftNat w p a)

/-- `y^n` by repeated squaring, for `n` of at most `k` bits. -/
def powNat (w p : ℕ) : ℕ → ℕ → ℕ
  | 0, _ => 1
  | k + 1, n =>
    let square := mulNat w p w (powNat w p k (n / 2)) (powNat w p k (n / 2))
    if n % 2 = 1 then shiftNat w p square else square

theorem toNat_mulY (hw : 0 < w) (a : Gf w p) :
    (mulY a).bits.toNat = shiftNat w p.toNat a.bits.toNat := by
  have hlt := a.bits.isLt
  have hpow : 2^w = 2 * 2^(w - 1) := by
    rw [← pow_succ', Nat.sub_add_cancel hw]
  have hshift : (a.bits <<< 1).toNat = 2 * a.bits.toNat % 2^w := by
    rw [BitVec.toNat_shiftLeft, Nat.shiftLeft_eq, pow_one, Nat.mul_comm]
  have hmsb : a.bits.msb = decide (2^(w - 1) ≤ a.bits.toNat) := BitVec.msb_eq_decide a.bits
  rw [mulY, BitVec.toNat_xor, hshift, shiftNat, hmsb]
  by_cases htop : 2^(w - 1) ≤ a.bits.toNat
  · have hone : 2 * a.bits.toNat / 2^w = 1 := Nat.div_eq_of_lt_le (by omega) (by omega)
    rw [decide_eq_true htop, if_pos rfl, hone, Nat.one_mul]
  · have hzero : 2 * a.bits.toNat / 2^w = 0 := Nat.div_eq_of_lt (by omega)
    rw [decide_eq_false htop, hzero, Nat.zero_mul]
    rfl

/- As long as nothing falls off, the number is doubled. -/
theorem toNat_iterate_mulY (hw : 0 < w) (k : ℕ) (a : Gf w p) (h : 2^k * a.bits.toNat < 2^w) :
    (mulY^[k] a).bits.toNat = 2^k * a.bits.toNat := by
  induction k with
  | zero => rw [iterate_zero_apply, pow_zero, Nat.one_mul]
  | succ k ih =>
    rw [pow_succ', Nat.mul_assoc] at h ⊢
    rw [iterate_succ_apply', toNat_mulY hw, ih (by omega), shiftNat, Nat.mod_eq_of_lt h,
      Nat.div_eq_of_lt h, Nat.zero_mul, Nat.xor_zero]

theorem toNat_mulFrom (hw : 0 < w) (b : BitVec w) (n i : ℕ) (a : Gf w p) :
    (mulFrom b n i a).bits.toNat = mulNat w p.toNat n (b.toNat / 2^i) a.bits.toNat := by
  induction n generalizing i a with
  | zero => rfl
  | succ n ih =>
    have hnext : b.toNat / 2^(i + 1) = b.toNat / 2^i / 2 := by
      rw [Nat.div_div_eq_div_mul, pow_succ]
    have hbit : b.getLsbD i = decide (b.toNat / 2^i % 2 = 1) := Nat.testBit_eq_decide_div_mod_eq
    have hhead : (if b.getLsbD i then a else 0).bits.toNat = b.toNat / 2^i % 2 * a.bits.toNat := by
      rw [hbit]
      rcases Nat.mod_two_eq_zero_or_one (b.toNat / 2^i) with h | h
      · rw [h, Nat.zero_mul]
        rfl
      · rw [h, Nat.one_mul]
        rfl
    rw [mulFrom, bits_add, BitVec.toNat_xor, ih, toNat_mulY hw, hnext, hhead, mulNat]

theorem toNat_mul (hw : 0 < w) (a b : Gf w p) :
    (a * b).bits.toNat = mulNat w p.toNat w b.bits.toNat a.bits.toNat := by
  rw [mul_def, toNat_mulFrom hw, pow_zero, Nat.div_one]

theorem toNat_pow (hw : 1 < w) (k n : ℕ) (hn : n < 2^k) :
    (power w p 1 ^ n).bits.toNat = powNat w p.toNat k n := by
  have hpos : 0 < w := by omega
  induction k generalizing n with
  | zero =>
    have hzero : n = 0 := by omega
    rw [hzero, pow_zero, powNat]
    exact Nat.mod_eq_of_lt (Nat.one_lt_two_pow (by omega))
  | succ k ih =>
    have hhalf : n / 2 < 2^k := by
      rw [pow_succ] at hn
      omega
    have hsquare : (power w p 1 ^ (n / 2 + n / 2)).bits.toNat =
        mulNat w p.toNat w (powNat w p.toNat k (n / 2)) (powNat w p.toNat k (n / 2)) := by
      rw [pow_add, toNat_mul hpos, ih (n / 2) hhalf]
    rw [powNat, ← hsquare]
    split_ifs with hodd
    · have hsucc : n = n / 2 + n / 2 + 1 := by omega
      rw [← toNat_mulY hpos, mulY_eq hw, ← pow_succ', ← hsucc]
    · have hdouble : n = n / 2 + n / 2 := by omega
      rw [← hdouble]

/-! ### Periods -/

theorem iterate_mulY (hw : 1 < w) (k : ℕ) (a : Gf w p) : mulY^[k] a = power w p 1 ^ k * a := by
  induction k with
  | zero => rw [iterate_zero_apply, pow_zero, one_mul]
  | succ k ih => rw [iterate_succ_apply', ih, mulY_eq hw, pow_succ', mul_assoc]

theorem isPeriodicPt_of_pow (hw : 1 < w) (n : ℕ) (hn : power w p 1 ^ n = 1) (a : Gf w p) :
    IsPeriodicPt mulY n a := by
  rw [IsPeriodicPt, IsFixedPt, iterate_mulY hw, hn, one_mul]

/- A power of `y` that is one makes `y` invertible. -/
theorem mulY_injective (hw : 1 < w) (n : ℕ) (hpos : 0 < n) (hn : power w p 1 ^ n = 1) :
    Injective (mulY : Gf w p → Gf w p) := by
  intro a b h
  obtain ⟨k, rfl⟩ : ∃ k, n = k + 1 := ⟨n - 1, by omega⟩
  have ha : mulY^[k + 1] a = a := isPeriodicPt_of_pow hw (k + 1) hn a
  have hb : mulY^[k + 1] b = b := isPeriodicPt_of_pow hw (k + 1) hn b
  rw [← ha, ← hb, iterate_succ_apply, iterate_succ_apply, h]

/- An inverse of `y^n + 1` leaves only zero where it was. -/
theorem not_isPeriodicPt (hw : 1 < w) (n : ℕ) (v a : Gf w p) (hv : (power w p 1 ^ n + 1) * v = 1)
    (ha : a ≠ 0) : ¬ IsPeriodicPt mulY n a := by
  intro h
  rw [IsPeriodicPt, IsFixedPt, iterate_mulY hw] at h
  have hzero : (power w p 1 ^ n + 1) * a = 0 := by
    rw [add_mul, one_mul, h, add_self]
  refine ha ?_
  calc a = v * ((power w p 1 ^ n + 1) * a) := by rw [← mul_assoc, mul_comm v, hv, one_mul]
    _ = 0 := by rw [hzero, mul_zero]

/- Below its period an element does not come back, and never becomes zero. -/
theorem iterate_mulY_ne_zero (a : Gf w p) (k : ℕ) (hk : k + 1 < minimalPeriod mulY a) :
    mulY^[k] a ≠ 0 := by
  intro hzero
  have hnext : mulY^[k + 1] a = mulY^[k] a := by
    rw [iterate_succ_apply', hzero]
    exact Gf.ext (by simp [mulY])
  have heq := (iterate_eq_iterate_iff_of_lt_minimalPeriod hk (by omega)).mp hnext
  omega

end Gf

end Pobc
