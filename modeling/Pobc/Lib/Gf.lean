import Mathlib.Algebra.Ring.Basic
import Mathlib.Logic.Function.Iterate
import Mathlib.Data.BitVec
import Mathlib.Algebra.Group.Hom.Basic
import Mathlib.Tactic.Abel
import Mathlib.Tactic.LinearCombination

/-!
# Binary polynomials modulo a polynomial of degree `w`

`Gf w p` is `GF(2)[y] / (y^w + p)` with elements kept as coefficient words, bit
`i` being the coefficient of `y^i`. Addition is XOR and multiplication adds up
shifted copies, so every operation runs on closed terms. The ring laws all come
from one fact: an additive map that commutes with multiplication by `y` passes
through a product (`map_mulFrom`).
-/

namespace Pobc

/-- `GF(2)[y] / (y^w + p)`; `p` holds the coefficients below `y^w`. -/
@[ext] structure Gf (w : ℕ) (p : BitVec w) where
  bits : BitVec w
  deriving DecidableEq

namespace Gf

variable {w : ℕ} {p : BitVec w}

instance : Zero (Gf w p) := ⟨⟨0#w⟩⟩
instance : One (Gf w p) := ⟨⟨1#w⟩⟩
instance : Add (Gf w p) := ⟨fun a b => ⟨a.bits ^^^ b.bits⟩⟩
instance : Neg (Gf w p) := ⟨fun a => a⟩
instance : Sub (Gf w p) := ⟨fun a b => ⟨a.bits ^^^ b.bits⟩⟩

@[simp] theorem bits_zero : (0 : Gf w p).bits = 0#w := rfl
@[simp] theorem bits_one : (1 : Gf w p).bits = 1#w := rfl
@[simp] theorem bits_add (a b : Gf w p) : (a + b).bits = a.bits ^^^ b.bits := rfl

instance : AddCommGroup (Gf w p) where
  add_assoc a b c := Gf.ext (BitVec.xor_assoc a.bits b.bits c.bits)
  zero_add a := Gf.ext BitVec.zero_xor
  add_zero a := Gf.ext BitVec.xor_zero
  add_comm a b := Gf.ext (BitVec.xor_comm a.bits b.bits)
  neg_add_cancel a := Gf.ext BitVec.xor_self
  nsmul := nsmulRec
  zsmul := zsmulRec

theorem add_self (a : Gf w p) : a + a = 0 := Gf.ext BitVec.xor_self

theorem add_eq_zero_iff (a b : Gf w p) : a + b = 0 ↔ a = b := by
  rw [← add_self b]
  exact add_left_inj b

theorem add_eq_add_iff (a b c d : Gf w p) : a + b = c + d ↔ a + c = b + d := by
  rw [← add_eq_zero_iff, ← add_eq_zero_iff (a + c), add_add_add_comm]

def mulY (a : Gf w p) : Gf w p :=
  ⟨(a.bits <<< 1) ^^^ (if a.bits.msb then p else 0#w)⟩

theorem mulY_add (a b : Gf w p) : mulY (a + b) = mulY a + mulY b := by
  apply Gf.ext
  simp only [mulY, bits_add, BitVec.shiftLeft_xor_distrib, BitVec.msb_xor]
  cases a.bits.msb <;> cases b.bits.msb <;> simp [BitVec.xor_assoc, BitVec.xor_comm p]

/-- `sum of y^k * a` over the set bits `i + k` of `b`, `k < n`. -/
def mulFrom (b : BitVec w) : ℕ → ℕ → Gf w p → Gf w p
  | 0, _, _ => 0
  | n + 1, i, a => (if b.getLsbD i then a else 0) + mulFrom b n (i + 1) (mulY a)

instance : Mul (Gf w p) := ⟨fun a b => mulFrom b.bits w 0 a⟩

theorem mul_def (a b : Gf w p) : a * b = mulFrom b.bits w 0 a := rfl

/- The one induction behind the ring laws. -/
theorem map_mulFrom (φ : Gf w p → Gf w p) (hadd : ∀ a b, φ (a + b) = φ a + φ b)
    (hY : ∀ a, φ (mulY a) = mulY (φ a)) (b : BitVec w) (n i : ℕ) (a : Gf w p) :
    φ (mulFrom b n i a) = mulFrom b n i (φ a) := by
  have hzero : φ 0 = 0 := by
    have h := hadd 0 0
    rw [add_zero] at h
    exact left_eq_add.mp h
  induction n generalizing i a with
  | zero => exact hzero
  | succ n ih =>
    simp only [mulFrom, hadd, ih, hY]
    cases b.getLsbD i <;> simp [hzero]

theorem mulFrom_add_left (b : BitVec w) (n i : ℕ) (x y : Gf w p) :
    mulFrom b n i (x + y) = mulFrom b n i x + mulFrom b n i y := by
  induction n generalizing i x y with
  | zero => simp [mulFrom]
  | succ n ih =>
    simp only [mulFrom, mulY_add, ih]
    cases b.getLsbD i <;> simp [add_add_add_comm]

theorem mulFrom_mulY (b : BitVec w) (n i : ℕ) (a : Gf w p) :
    mulY (mulFrom b n i a) = mulFrom b n i (mulY a) :=
  map_mulFrom mulY mulY_add (fun _ => rfl) b n i a

theorem iterate_mulY_mulFrom (b : BitVec w) (n i k : ℕ) (a : Gf w p) :
    mulY^[k] (mulFrom b n i a) = mulFrom b n i (mulY^[k] a) := by
  induction k generalizing a with
  | zero => rfl
  | succ k ih => rw [Function.iterate_succ_apply, mulFrom_mulY, ih, Function.iterate_succ_apply]

/- The partial product in two pieces. -/
theorem mulFrom_split (b : BitVec w) (n m i : ℕ) (a : Gf w p) :
    mulFrom b (n + m) i a = mulFrom b n i a + mulFrom b m (i + n) (mulY^[n] a) := by
  induction n generalizing i a with
  | zero =>
    rw [Nat.zero_add, mulFrom, zero_add]
    rfl
  | succ n ih =>
    have hlen : n + 1 + m = n + m + 1 := by omega
    have hpos : i + 1 + n = i + (n + 1) := by omega
    rw [hlen, mulFrom, mulFrom, ih, hpos, add_assoc, Function.iterate_succ_apply]

/- Horner's rule: the high part first, then a shift past the low part. -/
theorem mulFrom_horner (b : BitVec w) (n m i : ℕ) (a : Gf w p) :
    mulFrom b (n + m) i a = mulY^[n] (mulFrom b m (i + n) a) + mulFrom b n i a := by
  rw [mulFrom_split, iterate_mulY_mulFrom, add_comm]

theorem mul_swap (a b c : Gf w p) : a * c * b = a * b * c :=
  map_mulFrom (· * b) (mulFrom_add_left b.bits w 0) (fun x => (mulFrom_mulY b.bits w 0 x).symm)
    c.bits w 0 a

/-! ### The power basis -/

def power (w : ℕ) (p : BitVec w) (i : ℕ) : Gf w p := ⟨BitVec.twoPow w i⟩

theorem mulY_power (i : ℕ) (hi : i + 1 < w) : mulY (power w p i) = power w p (i + 1) := by
  apply Gf.ext
  apply BitVec.eq_of_getLsbD_eq
  intro k hk
  have hmsb : (BitVec.twoPow w i).msb = false := by
    rw [BitVec.msb_twoPow]
    simp
    omega
  simp only [mulY, power, hmsb, Bool.false_eq_true, if_false, BitVec.xor_zero,
    BitVec.getLsbD_shiftLeft, BitVec.getLsbD_twoPow]
  grind

/- The partial product of `y^i` reads bits `i` to `i + n - 1` of the factor. -/
theorem getLsbD_mulFrom_power (b : BitVec w) (n i k : ℕ) (hn : i + n ≤ w) :
    (mulFrom b n i (power w p i)).bits.getLsbD k =
      (decide (i ≤ k ∧ k < i + n) && b.getLsbD k) := by
  induction n generalizing i with
  | zero =>
    simp [mulFrom]
  | succ n ih =>
    have htail : (mulFrom b n (i + 1) (mulY (power w p i))).bits.getLsbD k =
        (decide (i + 1 ≤ k ∧ k < i + 1 + n) && b.getLsbD k) := by
      cases n with
      | zero =>
        have hempty : ¬ (i + 1 ≤ k ∧ k < i + 1 + 0) := by omega
        rw [decide_eq_false hempty, Bool.false_and]
        exact BitVec.getLsbD_zero
      | succ n =>
        rw [mulY_power i (by omega)]
        exact ih (i + 1) (by omega)
    have hhead : (if b.getLsbD i then power w p i else 0).bits.getLsbD k =
        (decide (i = k) && b.getLsbD k) := by
      by_cases hk : i = k
      · subst hk
        cases hb : b.getLsbD i <;> simp [power]
        omega
      · cases hb : b.getLsbD i <;> simp [power, hk]
    simp only [mulFrom, bits_add, BitVec.getLsbD_xor, hhead, htail]
    cases hb : b.getLsbD k
    · simp
    · grind

theorem power_zero : power w p 0 = 1 := Gf.ext (BitVec.twoPow_zero)

theorem one_mul' (b : Gf w p) : 1 * b = b := by
  apply Gf.ext
  apply BitVec.eq_of_getLsbD_eq
  intro k hk
  rw [mul_def, ← power_zero, getLsbD_mulFrom_power b.bits w 0 k (by omega)]
  simp [hk]

theorem mul_comm' (a b : Gf w p) : a * b = b * a := by
  have h := mul_swap 1 b a
  rwa [one_mul', one_mul'] at h

theorem add_mul' (a b c : Gf w p) : (a + b) * c = a * c + b * c :=
  mulFrom_add_left c.bits w 0 a b

instance : CommRing (Gf w p) where
  mul_assoc a b c := by
    rw [mul_comm' a b, mul_swap b c a, mul_comm' (b * c) a]
  one_mul := one_mul'
  mul_one a := (mul_comm' a 1).trans (one_mul' a)
  mul_comm := mul_comm'
  left_distrib a b c := by
    rw [mul_comm', add_mul', mul_comm' b, mul_comm' c]
  right_distrib := add_mul'
  zero_mul a := by
    have h := add_mul' 0 0 a
    rw [add_zero] at h
    exact left_eq_add.mp h
  mul_zero a := by
    have h := add_mul' 0 0 a
    rw [add_zero] at h
    rw [mul_comm']
    exact left_eq_add.mp h
  zsmul := zsmulRec
  neg_add_cancel := neg_add_cancel

theorem mulY_eq (hw : 1 < w) (a : Gf w p) : mulY a = power w p 1 * a := by
  have hY : mulY (1 : Gf w p) = power w p 1 := by
    rw [← power_zero, mulY_power 0 hw]
  rw [← hY, mul_def, ← mulFrom_mulY, ← mul_def, one_mul]

theorem power_one_pow (i : ℕ) (hi : i < w) : power w p 1 ^ i = power w p i := by
  induction i with
  | zero => rw [pow_zero, power_zero]
  | succ i ih => rw [pow_succ', ih (by omega), ← mulY_eq (by omega), mulY_power i hi]

/-! ### Additive maps -/

/- An additive map is known from its values on the power basis. -/
theorem addHom_ext {G : Type*} [AddMonoid G] (φ ψ : Gf w p →+ G)
    (h : ∀ i < w, φ (power w p i) = ψ (power w p i)) : φ = ψ := by
  have hpart : ∀ (b : BitVec w) (n i : ℕ), i + n ≤ w →
      φ (mulFrom b n i (power w p i)) = ψ (mulFrom b n i (power w p i)) := by
    intro b n
    induction n with
    | zero => intro i _; rw [mulFrom, map_zero, map_zero]
    | succ n ih =>
      intro i hi
      have hhead : φ (if b.getLsbD i then power w p i else 0) =
          ψ (if b.getLsbD i then power w p i else 0) := by
        split
        · exact h i (by omega)
        · rw [map_zero, map_zero]
      have htail : φ (mulFrom b n (i + 1) (mulY (power w p i))) =
          ψ (mulFrom b n (i + 1) (mulY (power w p i))) := by
        cases n with
        | zero => rw [mulFrom, map_zero, map_zero]
        | succ n =>
          rw [mulY_power i (by omega)]
          exact ih (i + 1) (by omega)
      rw [mulFrom, map_add, map_add, hhead, htail]
  ext a
  have ha := hpart a.bits w 0 (by omega)
  rwa [power_zero, ← mul_def, one_mul] at ha

/- A map that sends multiplication by `y` to multiplication by `β` is
multiplicative. -/
theorem map_mul_of_mulY {R : Type*} [CommRing R] (φ : Gf w p →+ R) (β : R) (hone : φ 1 = 1)
    (hY : ∀ a, φ (mulY a) = β * φ a) (a b : Gf w p) : φ (a * b) = φ a * φ b := by
  have hswap : ∀ (n i : ℕ) (a c : Gf w p),
      φ (mulFrom b.bits n i a) * φ c = φ (mulFrom b.bits n i c) * φ a := by
    intro n
    induction n with
    | zero => intro i a c; rw [mulFrom, mulFrom, map_zero, zero_mul, zero_mul]
    | succ n ih =>
      intro i a c
      have htail : φ (mulFrom b.bits n (i + 1) (mulY a)) * φ c =
          φ (mulFrom b.bits n (i + 1) (mulY c)) * φ a := by
        rw [ih, ← mulFrom_mulY, hY, hY, mul_left_comm, mul_assoc]
      rw [mulFrom, mulFrom, map_add, map_add, add_mul, add_mul, htail]
      split
      · rw [mul_comm]
      · rw [map_zero, zero_mul, zero_mul]
  have h := hswap w 0 a 1
  rw [← mul_def, ← mul_def, one_mul, hone, mul_one] at h
  rw [h, mul_comm]

theorem two_eq_zero : (2 : Gf w p) = 0 := by
  rw [← one_add_one_eq_two, add_self]

/- Squaring is additive. -/
theorem add_pow_two_pow (a b : Gf w p) (k : ℕ) : (a + b)^(2^k) = a^(2^k) + b^(2^k) := by
  induction k with
  | zero => rw [pow_zero, pow_one, pow_one, pow_one]
  | succ k ih =>
    rw [pow_succ, pow_mul, pow_mul, pow_mul, ih]
    linear_combination (a^(2^k) * b^(2^k)) * two_eq_zero (p := p)

theorem iterate_square (x : Gf w p) (k : ℕ) : (fun y => y * y)^[k] x = x^(2^k) := by
  induction k with
  | zero => rw [pow_zero, pow_one, Function.iterate_zero_apply]
  | succ k ih => rw [Function.iterate_succ_apply', ih, ← pow_two, ← pow_mul, ← pow_succ]

/-- `x^(2^k)` as an additive map. -/
def frobenius (k : ℕ) : Gf w p →+ Gf w p where
  toFun x := x^(2^k)
  map_zero' := zero_pow (Nat.two_pow_pos k).ne'
  map_add' a b := add_pow_two_pow a b k

end Gf

end Pobc
