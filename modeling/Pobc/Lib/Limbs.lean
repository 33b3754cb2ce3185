import Mathlib.Data.Int.ModEq
import Mathlib.Data.Nat.Digits.Lemmas
import Mathlib.Data.Nat.Prime.Basic
import Mathlib.Tactic.Ring
import Mathlib.Tactic.Linarith
import Mathlib.Tactic.LinearCombination
import Mathlib.Data.List.GetD

/-!
# Numbers in limbs

A list of words of `w` bits is a number in base `2^w`, the lowest word first. A carry or a
borrow of a word operation is a comparison of its result with an operand. Nothing here
refers to a program.
-/

namespace Pobc.Limbs

variable {w : ℕ}

/-- The base. It is opaque to arithmetic, which needs only that it is positive. -/
def base (w : ℕ) : ℕ := 2 ^ w

theorem base_pos (w : ℕ) : 0 < base w := Nat.two_pow_pos w

theorem one_lt_base (hw : 0 < w) : 1 < base w := Nat.one_lt_two_pow hw.ne'

theorem toNat_lt_base (x : BitVec w) : x.toNat < base w := x.isLt

theorem pow_base_pos (w n : ℕ) : 0 < base w ^ n := Nat.pow_pos (base_pos w)

theorem base_eq_two_mul (hw : 0 < w) : base w = 2 * 2 ^ (w - 1) := by
  rw [← Nat.pow_succ', Nat.succ_eq_add_one, Nat.sub_add_cancel hw]
  rfl

/- A product and two digits more still have two digits. -/
theorem mul_add_add_lt {b x y m n : ℕ} (hx : x < b) (hy : y < b) (hm : m < b) (hn : n < b) :
    x * y + m + n < b * b := by
  obtain ⟨c, rfl⟩ := Nat.exists_eq_add_of_lt hx
  have hmul : x * y ≤ (x + c) * (x + c) := Nat.mul_le_mul (by omega) (by omega)
  linarith

/-! ### Words -/

/-- A truth value as a word. -/
def flag (p : Prop) [Decidable p] : BitVec w := if p then 1 else 0

theorem toNat_flag (hw : 0 < w) (p : Prop) [Decidable p] :
    (flag p : BitVec w).toNat = if p then 1 else 0 := by
  have hone : 1 < 2 ^ w := one_lt_base hw
  rw [flag]
  split
  · exact (BitVec.toNat_ofNat 1 w).trans (Nat.mod_eq_of_lt hone)
  · exact BitVec.toNat_zero

theorem flag_ne_zero_iff (hw : 0 < w) (p : Prop) [Decidable p] :
    flag p ≠ (0 : BitVec w) ↔ p := by
  have h := toNat_flag hw p
  rw [Ne, ← BitVec.toNat_inj, h]
  split <;> simp_all

/- A sum and the carry out of it; the carry shows in either operand. -/
theorem toNat_add_carry (x y : BitVec w) :
    (x + y).toNat + base w * (if x + y < y then 1 else 0) = x.toNat + y.toNat := by
  have hx := toNat_lt_base x
  have hy := toNat_lt_base y
  have hsum : (x + y).toNat = (x.toNat + y.toNat) % base w := BitVec.toNat_add x y
  rcases Nat.lt_or_ge (x.toNat + y.toNat) (base w) with hlt | hge
  · rw [Nat.mod_eq_of_lt hlt] at hsum
    have hno : ¬ x + y < y := by
      rw [BitVec.lt_def]
      omega
    rw [if_neg hno, hsum, Nat.mul_zero, Nat.add_zero]
  · rw [Nat.mod_eq_sub_mod hge, Nat.mod_eq_of_lt (by omega)] at hsum
    have hyes : x + y < y := by
      rw [BitVec.lt_def]
      omega
    rw [if_pos hyes, hsum]
    omega

theorem toNat_add_carry' (x y : BitVec w) :
    (x + y).toNat + base w * (if x + y < x then 1 else 0) = x.toNat + y.toNat := by
  rw [BitVec.add_comm, toNat_add_carry, Nat.add_comm]

theorem toNat_sub_borrow (x y : BitVec w) :
    (x - y).toNat + y.toNat = x.toNat + base w * (if x < y then 1 else 0) := by
  have hx := toNat_lt_base x
  have hy := toNat_lt_base y
  have hdiff : (x - y).toNat = (base w - y.toNat + x.toNat) % base w := BitVec.toNat_sub x y
  by_cases hlt : x < y
  · have hlt' := BitVec.lt_def.mp hlt
    rw [Nat.mod_eq_of_lt (by omega)] at hdiff
    rw [if_pos hlt, hdiff]
    omega
  · have hge : y.toNat ≤ x.toNat := Nat.not_lt.mp fun h => hlt (BitVec.lt_def.mpr h)
    have hle : base w ≤ base w - y.toNat + x.toNat := by omega
    rw [Nat.mod_eq_sub_mod hle, Nat.mod_eq_of_lt (by omega)] at hdiff
    rw [if_neg hlt, hdiff]
    omega

/- The borrow shows in the result. -/
theorem sub_gt_iff (x y : BitVec w) : x - y > x ↔ x < y := by
  have hx := toNat_lt_base x
  have hy := toNat_lt_base y
  have hdiff := toNat_sub_borrow x y
  show x < x - y ↔ x < y
  by_cases hlt : x < y
  · have hlt' := BitVec.lt_def.mp hlt
    rw [if_pos hlt] at hdiff
    refine iff_of_true ?_ hlt
    rw [BitVec.lt_def]
    omega
  · rw [if_neg hlt] at hdiff
    refine iff_of_false (fun h => ?_) hlt
    have h' := BitVec.lt_def.mp h
    omega

/-! ### Words modulo the base -/

/- Equal modulo `m` and both in its range. -/
theorem eq_of_modEq {m x n : ℤ} (h : x ≡ n [ZMOD m]) (hx : 0 ≤ x) (hxm : x < m) (hn : 0 ≤ n)
    (hnm : n < m) : x = n := by
  have hmod : x % m = n % m := h
  rwa [Int.emod_eq_of_lt hx hxm, Int.emod_eq_of_lt hn hnm] at hmod

/- A word holds a number modulo the base. -/
theorem modEq_toNat_add (x y : BitVec w) :
    ((x + y).toNat : ℤ) ≡ x.toNat + y.toNat [ZMOD base w] := by
  have h : (x + y).toNat = (x.toNat + y.toNat) % base w := BitVec.toNat_add x y
  rw [h]
  exact_mod_cast Int.mod_modEq (x.toNat + y.toNat) (base w)

theorem modEq_toNat_mul (x y : BitVec w) :
    ((x * y).toNat : ℤ) ≡ x.toNat * y.toNat [ZMOD base w] := by
  have h : (x * y).toNat = (x.toNat * y.toNat) % base w := BitVec.toNat_mul x y
  rw [h]
  exact_mod_cast Int.mod_modEq (x.toNat * y.toNat) (base w)

theorem modEq_toNat_sub (x y : BitVec w) :
    ((x - y).toNat : ℤ) ≡ x.toNat - y.toNat [ZMOD base w] := by
  have h := toNat_sub_borrow x y
  refine Int.modEq_iff_dvd.mpr ⟨-(if x < y then 1 else 0), ?_⟩
  zify at h
  linarith

section ModEq

variable {x y : BitVec w} {m n : ℤ} (hx : (x.toNat : ℤ) ≡ m [ZMOD base w])
  (hy : (y.toNat : ℤ) ≡ n [ZMOD base w])

include hx hy

theorem modEq_add : ((x + y).toNat : ℤ) ≡ m + n [ZMOD base w] :=
  (modEq_toNat_add x y).trans (hx.add hy)

theorem modEq_sub : ((x - y).toNat : ℤ) ≡ m - n [ZMOD base w] :=
  (modEq_toNat_sub x y).trans (hx.sub hy)

theorem modEq_mul : ((x * y).toNat : ℤ) ≡ m * n [ZMOD base w] :=
  (modEq_toNat_mul x y).trans (hx.mul hy)

end ModEq

theorem modEq_toNat_neg (x : BitVec w) : ((-x).toNat : ℤ) ≡ -x.toNat [ZMOD base w] := by
  have h := modEq_toNat_sub 0 x
  simpa using h

theorem modEq_flag (hw : 0 < w) (p : Prop) [Decidable p] :
    ((flag p : BitVec w).toNat : ℤ) = if p then 1 else 0 := by
  rw [toNat_flag hw]
  split <;> rfl

theorem toNat_lt_base' (x : BitVec w) : (x.toNat : ℤ) < base w := by
  exact_mod_cast toNat_lt_base x

theorem toNat_eq_of_modEq {x : BitVec w} {n : ℤ} (h : (x.toNat : ℤ) ≡ n [ZMOD base w])
    (hn : 0 ≤ n) (hlt : n < base w) : (x.toNat : ℤ) = n := by
  exact eq_of_modEq h (Int.natCast_nonneg _) (toNat_lt_base' x) hn hlt

theorem toNat_one (hw : 0 < w) : (1 : BitVec w).toNat = 1 :=
  (BitVec.toNat_ofNat 1 w).trans (Nat.mod_eq_of_lt (one_lt_base hw))

theorem modEq_one (hw : 0 < w) : ((1 : BitVec w).toNat : ℤ) ≡ 1 [ZMOD base w] := by
  rw [toNat_one hw]
  rfl

/- A sum of two carries that a bound keeps below the base. -/
theorem toNat_add_of_mul_lt {x y : BitVec w} {k : ℕ} (hk : k ≤ base w)
    (h : base w * (x.toNat + y.toNat) < base w * k) :
    (x + y).toNat = x.toNat + y.toNat ∧ x.toNat + y.toNat < k := by
  have hlt := lt_of_mul_lt_mul_left h (Nat.zero_le _)
  exact ⟨BitVec.toNat_add_of_lt (hlt.trans_le hk), hlt⟩

/- A mask of ones or of zeros. -/
theorem mask_and (p : Prop) [Decidable p] (x : BitVec w) :
    -flag p &&& x = if p then x else 0#w := by
  unfold flag
  split
  · rw [show (-1 : BitVec w) = BitVec.allOnes w from BitVec.neg_one_eq_allOnes, BitVec.allOnes_and]
  · simp

theorem modEq_mask (hw : 0 < w) (p : Prop) [Decidable p] :
    ((-flag p : BitVec w).toNat : ℤ) ≡ if p then -1 else 0 [ZMOD base w] := by
  have h := modEq_toNat_neg (flag p : BitVec w)
  rw [modEq_flag hw] at h
  split at h <;> simp_all

theorem flag_or_and (p q r : Prop) [Decidable p] [Decidable q] [Decidable r] :
    (flag p ||| (flag q &&& flag r) : BitVec w) = flag (p ∨ (q ∧ r)) := by
  by_cases hp : p <;> by_cases hq : q <;> by_cases hr : r <;> simp [flag, hp, hq, hr]

/- A divisor of a power of two in the upper half of a range is the power in its middle. -/
theorem eq_half_of_dvd {d n k : ℕ} (hd : d ∣ 2 ^ k) (hlow : 2 ^ n ≤ 2 * d) (hhigh : d < 2 ^ n) :
    2 ^ n = 2 * d := by
  obtain ⟨j, -, rfl⟩ := (Nat.dvd_prime_pow Nat.prime_two).mp hd
  rw [← Nat.pow_succ'] at hlow ⊢
  have hjn := (Nat.pow_lt_pow_iff_right (by decide)).mp hhigh
  have hnj := (Nat.pow_le_pow_iff_right (by decide)).mp hlow
  rw [show n = j.succ by omega]

/-! ### Shifts -/

section Shift

variable {k : ℕ} (hk : k ≤ w)

include hk

theorem base_eq_mul : base w = 2 ^ (w - k) * 2 ^ k := by
  rw [← Nat.pow_add, Nat.sub_add_cancel hk]
  rfl

theorem toNat_shiftLeft (x : BitVec w) : (x <<< k).toNat = 2 ^ k * (x.toNat % 2 ^ (w - k)) := by
  have h : (x <<< k).toNat = x.toNat * 2 ^ k % base w := by
    rw [BitVec.toNat_shiftLeft, Nat.shiftLeft_eq]
    rfl
  rw [h, base_eq_mul hk, Nat.mul_mod_mul_right, Nat.mul_comm]

theorem toNat_shiftRight_lt (x : BitVec w) : (x >>> (w - k)).toNat < 2 ^ k := by
  rw [BitVec.toNat_ushiftRight, Nat.shiftRight_eq_div_pow]
  exact Nat.div_lt_of_lt_mul (base_eq_mul hk ▸ toNat_lt_base x)

/- What a shift moves out is what the shift the other way keeps. -/
theorem shift_split (x : BitVec w) :
    (x <<< k).toNat + base w * (x >>> (w - k)).toNat = 2 ^ k * x.toNat := by
  have hsplit := Nat.mod_add_div x.toNat (2 ^ (w - k))
  rw [toNat_shiftLeft hk, BitVec.toNat_ushiftRight, Nat.shiftRight_eq_div_pow, base_eq_mul hk]
  calc 2 ^ k * (x.toNat % 2 ^ (w - k)) + 2 ^ (w - k) * 2 ^ k * (x.toNat / 2 ^ (w - k))
      = 2 ^ k * (x.toNat % 2 ^ (w - k) + 2 ^ (w - k) * (x.toNat / 2 ^ (w - k))) := by ring
    _ = 2 ^ k * x.toNat := by rw [hsplit]

/- A limb of the high bits of one and the low bits of another. -/
theorem toNat_shiftLeft_or (x : BitVec w) {y : BitVec w} (hy : y.toNat < 2 ^ k) :
    (x <<< k ||| y).toNat = (x <<< k).toNat + y.toNat := by
  rw [BitVec.toNat_or, toNat_shiftLeft hk]
  exact (Nat.two_pow_add_eq_or_of_lt hy _).symm

end Shift

/-! ### Lists of limbs -/

def value (l : List (BitVec w)) : ℕ := Nat.ofDigits (base w) (l.map BitVec.toNat)

@[simp] theorem value_nil : value ([] : List (BitVec w)) = 0 := rfl

@[simp] theorem value_cons (x : BitVec w) (l : List (BitVec w)) :
    value (x :: l) = x.toNat + base w * value l := by
  rw [value, List.map_cons, Nat.ofDigits_cons]
  rfl

theorem value_append (l l' : List (BitVec w)) :
    value (l ++ l') = value l + base w ^ l.length * value l' := by
  rw [value, List.map_append, Nat.ofDigits_append, List.length_map]
  rfl

theorem value_singleton (x : BitVec w) : value [x] = x.toNat := by
  rw [value_cons, value_nil, Nat.mul_zero, Nat.add_zero]

theorem value_concat (l : List (BitVec w)) (x : BitVec w) :
    value (l ++ [x]) = value l + base w ^ l.length * x.toNat := by
  rw [value_append, value_singleton]

theorem value_take_add_drop (l : List (BitVec w)) (n : ℕ) (hn : n ≤ l.length) :
    value (l.take n) + base w ^ n * value (l.drop n) = value l := by
  have h := value_append (l.take n) (l.drop n)
  rw [List.take_append_drop, List.length_take_of_le hn] at h
  exact h.symm

theorem value_take_succ (l : List (BitVec w)) (n : ℕ) (hn : n < l.length) :
    value (l.take (n + 1)) = value (l.take n) + base w ^ n * (l.getD n 0).toNat := by
  have hlast : l.take (n + 1) = l.take n ++ [l.getD n 0] := by
    rw [List.getD_eq_getElem _ _ hn, List.take_concat_get']
  rw [hlast, value_concat, List.length_take_of_le hn.le]

/- A number and its highest limb. -/
theorem value_top (l : List (BitVec w)) (hl : 1 ≤ l.length) :
    value l = value (l.take (l.length - 1)) +
      base w ^ (l.length - 1) * (l.getD (l.length - 1) 0).toNat := by
  have h := value_take_succ l (l.length - 1) (by omega)
  rwa [Nat.sub_add_cancel hl, List.take_length] at h

theorem value_lt (l : List (BitVec w)) : value l < base w ^ l.length := by
  induction l with
  | nil => exact Nat.one_pos
  | cons x l ih =>
    have hx := toNat_lt_base x
    have hl : base w * (value l + 1) ≤ base w * base w ^ l.length := Nat.mul_le_mul_left _ ih
    rw [Nat.mul_add] at hl
    rw [value_cons, List.length_cons, Nat.pow_succ, Nat.mul_comm (base w ^ l.length)]
    omega

/- The quotient and the remainder by the base are unique. -/
theorem split_unique {b x y m n : ℕ} (hx : x < b) (hy : y < b) (h : x + b * m = y + b * n) :
    x = y ∧ m = n := by
  have hmod := congrArg (· % b) h
  have hdiv := congrArg (· / b) h
  simp only [Nat.add_mul_mod_self_left, Nat.mod_eq_of_lt hx, Nat.mod_eq_of_lt hy] at hmod
  simp only [Nat.add_mul_div_left _ _ (Nat.zero_lt_of_lt hx), Nat.div_eq_of_lt hx,
    Nat.div_eq_of_lt hy, Nat.zero_add] at hdiv
  exact ⟨hmod, hdiv⟩

theorem value_injective (l l' : List (BitVec w)) (hlen : l.length = l'.length)
    (h : value l = value l') : l = l' := by
  induction l generalizing l' with
  | nil => exact (List.eq_nil_of_length_eq_zero hlen.symm).symm
  | cons x l ih =>
    cases l' with
    | nil => exact absurd hlen (Nat.succ_ne_zero _)
    | cons y l' =>
      rw [value_cons, value_cons] at h
      obtain ⟨hx, hl⟩ := split_unique (toNat_lt_base x) (toNat_lt_base y) h
      rw [BitVec.eq_of_toNat_eq hx, ih l' (Nat.succ.inj hlen) hl]

/-! ### Loops with a carry -/

section Chain

variable {α : Type*} (step : α → BitVec w → BitVec w × BitVec w)

/-- A loop over a list, lowest limb first, that writes one limb a round and hands a carry on. -/
def chain : List α → BitVec w → List (BitVec w) × BitVec w
  | [], c => ([], c)
  | x :: l, c =>
    let (r, c) := step x c
    let (rp, c) := chain l c
    (r :: rp, c)

/-- The number whose digits are the values of `f`, which need not be below the base. -/
def total (w : ℕ) (f : α → ℤ) : List α → ℤ
  | [] => 0
  | x :: l => f x + base w * total w f l

theorem length_chain (l : List α) (c : BitVec w) : (chain step l c).1.length = l.length := by
  induction l generalizing c with
  | nil => rfl
  | cons x l ih => simp [chain, ih]

/-- When each round is exact, so is the loop; `s` is `1` for a carry and `-1` for a borrow. -/
theorem value_chain (s : ℤ) (f : α → ℤ) (I : BitVec w → Prop)
    (hstep : ∀ x c, I c → I (step x c).2 ∧
      ((step x c).1.toNat + s * base w * (step x c).2.toNat : ℤ) = f x + s * c.toNat)
    (l : List α) (c : BitVec w) (hc : I c) :
    I (chain step l c).2 ∧
      (value (chain step l c).1 + s * base w ^ l.length * (chain step l c).2.toNat : ℤ) =
        total w f l + s * c.toNat := by
  induction l generalizing c with
  | nil => simpa [chain, total] using hc
  | cons x l ih =>
    obtain ⟨hI, hx⟩ := hstep x c hc
    obtain ⟨hI', hl⟩ := ih (step x c).2 hI
    refine ⟨hI', ?_⟩
    simp only [chain, total, value_cons, List.length_cons, pow_succ, Nat.cast_add, Nat.cast_mul]
    linear_combination hx + (base w : ℤ) * hl

theorem total_zip (f : BitVec w → ℤ) (g : BitVec w → ℤ) (l l' : List (BitVec w))
    (hlen : l.length = l'.length) :
    total w (fun x => f x.1 + g x.2) (l.zip l') = total w f l + total w g l' := by
  induction l generalizing l' with
  | nil =>
    cases l' with
    | nil => rfl
    | cons y l' => simp at hlen
  | cons x l ih =>
    cases l' with
    | nil => simp at hlen
    | cons y l' =>
      simp only [List.zip_cons_cons, total]
      rw [ih l' (Nat.succ.inj hlen)]
      ring

theorem total_toNat (l : List (BitVec w)) : total w (fun x => (x.toNat : ℤ)) l = value l := by
  induction l with
  | nil => rfl
  | cons x l ih => simp [total, ih]

theorem total_mul (v : ℤ) (f : BitVec w → ℤ) (l : List (BitVec w)) :
    total w (fun x => v * f x) l = v * total w f l := by
  induction l with
  | nil => simp [total]
  | cons x l ih =>
    simp only [total, ih]
    ring

end Chain

/-! ### Loops from the highest limb down -/

section ChainDown

variable {σ : Type*} (step : BitVec w → σ → BitVec w × σ)

/-- A loop from the highest limb down, that writes one limb a round and changes a state. -/
def chainDown : List (BitVec w) → σ → List (BitVec w) × σ
  | [], s => ([], s)
  | x :: l, s =>
    let (qp, s) := chainDown l s
    let (q, s) := step x s
    (q :: qp, s)

theorem length_chainDown (l : List (BitVec w)) (s : σ) :
    (chainDown step l s).1.length = l.length := by
  induction l with
  | nil => rfl
  | cons x l ih => simp [chainDown, ih]

/-- Long division: the state is the remainder, and each round finds one limb of the quotient. -/
theorem value_chainDown (d : ℕ) (val : σ → ℕ) (I : σ → Prop)
    (hstep : ∀ x s, I s → I (step x s).2 ∧
      (step x s).1.toNat * d + val (step x s).2 = x.toNat + base w * val s)
    (l : List (BitVec w)) (s : σ) (hs : I s) :
    I (chainDown step l s).2 ∧
      value (chainDown step l s).1 * d + val (chainDown step l s).2 =
        value l + base w ^ l.length * val s := by
  induction l with
  | nil => simpa [chainDown] using hs
  | cons x l ih =>
    obtain ⟨hI, hl⟩ := ih
    obtain ⟨hI', hx⟩ := hstep x _ hI
    refine ⟨hI', ?_⟩
    simp only [chainDown, value_cons, List.length_cons, Nat.pow_succ]
    zify at hx hl ⊢
    linear_combination hx + (base w : ℤ) * hl

end ChainDown

/-! ### Leading zeros -/

/-- The highest limb is not zero. -/
def Normal (l : List (BitVec w)) : Prop := l.getLast? ≠ some 0

theorem normal_nil : Normal ([] : List (BitVec w)) := nofun

theorem normal_concat (l : List (BitVec w)) (x : BitVec w) : Normal (l ++ [x]) ↔ x ≠ 0 := by
  rw [Normal, List.getLast?_concat]
  exact not_congr Option.some_inj

theorem Normal.high_ne_zero {l : List (BitVec w)} (h : Normal l) (hne : l ≠ []) :
    l.getD (l.length - 1) 0 ≠ 0 := by
  obtain ⟨m, x, rfl⟩ : ∃ m x, l = m ++ [x] := ⟨l.dropLast, l.getLast hne,
    (List.dropLast_append_getLast hne).symm⟩
  simpa using (normal_concat m x).mp h

theorem normal_of_le {l : List (BitVec w)} (h : base w ^ (l.length - 1) ≤ value l) : Normal l := by
  intro hlast
  obtain ⟨m, rfl⟩ := List.getLast?_eq_some_iff.mp hlast
  have hlt := value_lt m
  rw [value_concat] at h
  simp at h
  omega

/- A normal number uses its limbs up. -/
theorem Normal.le_value {l : List (BitVec w)} (h : Normal l) (hne : l ≠ []) :
    base w ^ (l.length - 1) ≤ value l := by
  obtain ⟨m, x, rfl⟩ : ∃ m x, l = m ++ [x] := ⟨l.dropLast, l.getLast hne,
    (List.dropLast_append_getLast hne).symm⟩
  have hx : x.toNat ≠ 0 := fun h0 => (normal_concat m x).mp h (BitVec.eq_of_toNat_eq h0)
  have hmul : base w ^ m.length * 1 ≤ base w ^ m.length * x.toNat :=
    Nat.mul_le_mul_left _ (Nat.pos_of_ne_zero hx)
  have hlen : (m ++ [x]).length - 1 = m.length := by simp
  rw [hlen, value_concat]
  omega

theorem Normal.value_pos {l : List (BitVec w)} (h : Normal l) (hne : l ≠ []) : 0 < value l :=
  (pow_base_pos w _).trans_le (h.le_value hne)

theorem Normal.value_eq_zero_iff {l : List (BitVec w)} (h : Normal l) : value l = 0 ↔ l = [] := by
  constructor
  · intro hv
    by_contra hne
    exact (h.value_pos hne).ne' hv
  · rintro rfl
    rfl

/- Limbs without leading zeros are the digits of their number. -/
theorem Normal.map_toNat_eq_digits (hw : 0 < w) {l : List (BitVec w)} (h : Normal l) :
    l.map BitVec.toNat = Nat.digits (base w) (value l) := by
  refine (Nat.digits_ofDigits (base w) (one_lt_base hw) (l.map BitVec.toNat) ?_ ?_).symm
  · intro y hy
    obtain ⟨x, -, rfl⟩ := List.mem_map.mp hy
    exact toNat_lt_base x
  · intro hmap
    rw [List.getLast_map]
    intro hzero
    refine h ?_
    rw [List.getLast?_eq_some_getLast (by simpa using hmap)]
    exact congrArg some (BitVec.eq_of_toNat_eq hzero)

/- More limbs, a greater number. -/
theorem Normal.value_lt_of_length {l l' : List (BitVec w)} (h : Normal l')
    (hlen : l.length < l'.length) : value l < value l' := by
  have hne : l' ≠ [] := List.ne_nil_of_length_pos (Nat.zero_lt_of_lt hlen)
  have hpow : base w ^ l.length ≤ base w ^ (l'.length - 1) :=
    Nat.pow_le_pow_right (base_pos w) (by omega)
  exact (value_lt l).trans_le (hpow.trans (h.le_value hne))

theorem Normal.length_le {l l' : List (BitVec w)} (h : Normal l) (hv : value l ≤ value l') :
    l.length ≤ l'.length :=
  Nat.le_of_not_lt fun hlt => (h.value_lt_of_length hlt).not_ge hv

/-- Equal numbers without leading zeros have equal limbs. -/
theorem Normal.eq_of_value_eq {l l' : List (BitVec w)} (h : Normal l) (h' : Normal l')
    (hv : value l = value l') : l = l' := by
  refine value_injective l l' ?_ hv
  rcases Nat.lt_trichotomy l.length l'.length with hlt | heq | hgt
  · exact absurd hv (h'.value_lt_of_length hlt).ne
  · exact heq
  · exact absurd hv (h.value_lt_of_length hgt).ne'

end Pobc.Limbs
