import Pobc.MiniGmp.Limb
import Mathlib.Data.List.GetD

/-!
# Natural numbers of mini-gmp (`mimc-gmp/mini-gmp.c:391-699`)

The functions `mpn_*` on lists of limbs, the lowest limb first. What a function writes to `rp`
is a list of its own: the loops read an entry before they write it, so `rp` may be an operand.

The assertions on the arguments are left out. They are about sizes (`n >= 1`, `an >= bn`,
`un >= vn`, `vn >= 1`), shift counts (`0 < cnt < GMP_LIMB_BITS`) and the result of `mpn_mul`, which
overlaps no operand; the functions that call these here have checked them before.
-/

namespace Pobc.MiniGmp
open Pobc.Limbs

variable {w : ℕ}

/-! ### Comparison -/

/-- `mpn_cmp`, from the highest limb on. -/
def mpnCmp : List (BitVec w) → List (BitVec w) → ℤ
  | a :: ap, b :: bp =>
    let c := mpnCmp ap bp
    if c ≠ 0 then c else if a ≠ b then (if a > b then 1 else -1) else 0
  | _, _ => 0

/-- `mpn_cmp4`. -/
def mpnCmp4 (ap bp : List (BitVec w)) : ℤ :=
  if ap.length ≠ bp.length then (if ap.length < bp.length then -1 else 1) else mpnCmp ap bp

/-- `mpn_normalized_size`. -/
def mpnNormalizedSize (xp : List (BitVec w)) : ℕ → ℕ
  | 0 => 0
  | n + 1 => if xp.getD n 0 = 0 then mpnNormalizedSize xp n else n + 1

/-! ### Addition and subtraction -/

def add1Step (a b : BitVec w) : BitVec w × BitVec w :=
  let r := a + b
  (r, flag (r < b))

/-- `mpn_add_1`: the sum and the carry. -/
def mpnAdd1 (ap : List (BitVec w)) (b : BitVec w) : List (BitVec w) × BitVec w :=
  chain add1Step ap b

def addNStep (x : BitVec w × BitVec w) (cy : BitVec w) : BitVec w × BitVec w :=
  let (a, b) := x
  let r := a + cy
  let cy := flag (r < cy)
  let r := r + b
  (r, cy + flag (r < b))

/-- `mpn_add_n`. -/
def mpnAddN (ap bp : List (BitVec w)) : List (BitVec w) × BitVec w :=
  chain addNStep (ap.zip bp) 0

/-- `mpn_add`, for `ap` at least as long as `bp`. -/
def mpnAdd (ap bp : List (BitVec w)) : List (BitVec w) × BitVec w :=
  let (rp, cy) := mpnAddN (ap.take bp.length) bp
  if ap.length > bp.length then
    let (rp', cy) := mpnAdd1 (ap.drop bp.length) cy
    (rp ++ rp', cy)
  else (rp, cy)

def sub1Step (a b : BitVec w) : BitVec w × BitVec w :=
  let cy := flag (a < b)
  (a - b, cy)

/-- `mpn_sub_1`: the difference and the borrow. -/
def mpnSub1 (ap : List (BitVec w)) (b : BitVec w) : List (BitVec w) × BitVec w :=
  chain sub1Step ap b

def subNStep (x : BitVec w × BitVec w) (cy : BitVec w) : BitVec w × BitVec w :=
  let (a, b) := x
  let b := b + cy
  let cy := flag (b < cy)
  (a - b, cy + flag (a < b))

/-- `mpn_sub_n`. -/
def mpnSubN (ap bp : List (BitVec w)) : List (BitVec w) × BitVec w :=
  chain subNStep (ap.zip bp) 0

/-- `mpn_sub`, for `ap` at least as long as `bp`. -/
def mpnSub (ap bp : List (BitVec w)) : List (BitVec w) × BitVec w :=
  let (rp, cy) := mpnSubN (ap.take bp.length) bp
  if ap.length > bp.length then
    let (rp', cy) := mpnSub1 (ap.drop bp.length) cy
    (rp ++ rp', cy)
  else (rp, cy)

/-! ### Multiplication -/

def mul1Step (vl ul cl : BitVec w) : BitVec w × BitVec w :=
  let (hpl, lpl) := umulPpmm ul vl
  let lpl := lpl + cl
  (lpl, flag (lpl < cl) + hpl)

/-- `mpn_mul_1`: the product and its highest limb. -/
def mpnMul1 (up : List (BitVec w)) (vl : BitVec w) : List (BitVec w) × BitVec w :=
  chain (mul1Step vl) up 0

def addmul1Step (vl : BitVec w) (x : BitVec w × BitVec w) (cl : BitVec w) :
    BitVec w × BitVec w :=
  let (ul, rl) := x
  let (hpl, lpl) := umulPpmm ul vl
  let lpl := lpl + cl
  let cl := flag (lpl < cl) + hpl
  let lpl := rl + lpl
  (lpl, cl + flag (lpl < rl))

/-- `mpn_addmul_1`. -/
def mpnAddmul1 (rp up : List (BitVec w)) (vl : BitVec w) : List (BitVec w) × BitVec w :=
  chain (addmul1Step vl) (up.zip rp) 0

def submul1Step (vl : BitVec w) (x : BitVec w × BitVec w) (cl : BitVec w) :
    BitVec w × BitVec w :=
  let (ul, rl) := x
  let (hpl, lpl) := umulPpmm ul vl
  let lpl := lpl + cl
  let cl := flag (lpl < cl) + hpl
  let lpl := rl - lpl
  (lpl, cl + flag (lpl > rl))

/-- `mpn_submul_1`. -/
def mpnSubmul1 (rp up : List (BitVec w)) (vl : BitVec w) : List (BitVec w) × BitVec w :=
  chain (submul1Step vl) (up.zip rp) 0

/-- The loop of `mpn_mul`: `rp` holds the limbs from the pointer on, and each round moves the
pointer over one limb of the product. -/
def mulLoop (up : List (BitVec w)) : List (BitVec w) → List (BitVec w) → List (BitVec w)
  | rp, [] => rp
  | rp, v :: vp =>
    let (rp', cl) := mpnAddmul1 rp up v
    rp'.take 1 ++ mulLoop up (rp'.drop 1 ++ [cl]) vp

/-- `mpn_mul`. -/
def mpnMul (up : List (BitVec w)) : List (BitVec w) → List (BitVec w)
  | [] => []
  | v :: vp =>
    let (rp, cl) := mpnMul1 up v
    rp.take 1 ++ mulLoop up (rp.drop 1 ++ [cl]) vp

/-! ### Shifts -/

/-- The loop of `mpn_lshift`, from the highest limb on: the limb shifted out, `high_limb`, and the
limbs above it. -/
def lshiftLoop (cnt : ℕ) : List (BitVec w) → BitVec w × BitVec w × List (BitVec w)
  | [] => (0, 0, [])
  | [u] => (u >>> (w - cnt), u <<< cnt, [])
  | u :: up =>
    let (retval, highLimb, rp) := lshiftLoop cnt up
    (retval, u <<< cnt, (highLimb ||| (u >>> (w - cnt))) :: rp)

/-- `mpn_lshift`. -/
def mpnLshift (up : List (BitVec w)) (cnt : ℕ) : List (BitVec w) × BitVec w :=
  let (retval, highLimb, rp) := lshiftLoop cnt up
  (highLimb :: rp, retval)

def rshiftStep (cnt : ℕ) (highLimb lowLimb : BitVec w) : BitVec w × BitVec w :=
  (lowLimb ||| (highLimb <<< (w - cnt)), highLimb >>> cnt)

/-- `mpn_rshift`. -/
def mpnRshift (up : List (BitVec w)) (cnt : ℕ) : List (BitVec w) × BitVec w :=
  match up with
  | [] => ([], 0)
  | u :: up =>
    let (rp, lowLimb) := chain (rshiftStep cnt) up (u >>> cnt)
    (rp ++ [lowLimb], u <<< (w - cnt))

/-! ### What the comparisons decide -/

theorem mpnCmp_eq (ap bp : List (BitVec w)) (hlen : ap.length = bp.length) :
    mpnCmp ap bp = (value ap - value bp : ℤ).sign := by
  induction ap generalizing bp with
  | nil =>
    cases bp with
    | nil => simp [mpnCmp]
    | cons b bp => simp at hlen
  | cons a ap ih =>
    cases bp with
    | nil => simp at hlen
    | cons b bp =>
      have ha := toNat_lt_base' a
      have hb := toNat_lt_base' b
      have hβ : (0 : ℤ) < base w := by exact_mod_cast base_pos w
      have hsub : ((value (a :: ap) : ℤ) - value (b :: bp)) =
          a.toNat - b.toNat + base w * (value ap - value bp) := by
        simp only [value_cons, Nat.cast_add, Nat.cast_mul]
        ring
      rw [mpnCmp, ih bp (Nat.succ.inj hlen), hsub]
      rcases lt_trichotomy (value ap : ℤ) (value bp) with hlt | heq | hgt
      · have hmul : (base w : ℤ) * (value ap - value bp) ≤ base w * -1 :=
          mul_le_mul_of_nonneg_left (by omega) hβ.le
        rw [Int.sign_eq_neg_one_of_neg (by omega), Int.sign_eq_neg_one_of_neg (by omega)]
        rfl
      · rw [heq, sub_self, Int.sign_zero, mul_zero, add_zero]
        rcases Nat.lt_trichotomy a.toNat b.toNat with hlt | hab | hgt
        · have hne : a ≠ b := fun h => by rw [h] at hlt; omega
          have hno : ¬ a > b := fun h => by have h' := BitVec.lt_def.mp h; omega
          rw [Int.sign_eq_neg_one_of_neg (by omega)]
          simp [hne, hno]
        · rw [BitVec.eq_of_toNat_eq hab]
          simp
        · have hne : a ≠ b := fun h => by rw [h] at hgt; omega
          have hyes : a > b := BitVec.lt_def.mpr hgt
          rw [Int.sign_eq_one_of_pos (by omega)]
          simp [hne, hyes]
      · have hmul : (base w : ℤ) * 1 ≤ base w * (value ap - value bp) :=
          mul_le_mul_of_nonneg_left (by omega) hβ.le
        rw [Int.sign_eq_one_of_pos (by omega), Int.sign_eq_one_of_pos (by omega)]
        rfl

/- Without leading zeros, the lengths decide first. -/
theorem mpnCmp4_eq (ap bp : List (BitVec w)) (ha : Normal ap) (hb : Normal bp) :
    mpnCmp4 ap bp = (value ap - value bp : ℤ).sign := by
  unfold mpnCmp4
  rcases Nat.lt_trichotomy ap.length bp.length with hlt | heq | hgt
  · have hv := hb.value_lt_of_length hlt
    rw [if_pos hlt.ne, if_pos hlt, Int.sign_eq_neg_one_of_neg (by omega)]
  · rw [if_neg (not_not.mpr heq), mpnCmp_eq ap bp heq]
  · have hv := ha.value_lt_of_length hgt
    rw [if_pos hgt.ne', if_neg (by omega), Int.sign_eq_one_of_pos (by omega)]

/- The limbs that are cut off are zeros. -/
theorem mpnNormalizedSize_spec (xp : List (BitVec w)) (n : ℕ) (hn : n ≤ xp.length) :
    mpnNormalizedSize xp n ≤ n ∧ Normal (xp.take (mpnNormalizedSize xp n)) ∧
      value (xp.take (mpnNormalizedSize xp n)) = value (xp.take n) := by
  induction n with
  | zero => exact ⟨Nat.le_refl 0, normal_nil, rfl⟩
  | succ n ih =>
    have hlast : xp.take (n + 1) = xp.take n ++ [xp.getD n 0] := by
      rw [List.getD_eq_getElem _ _ hn, List.take_concat_get']
    unfold mpnNormalizedSize
    by_cases hzero : xp.getD n 0 = 0
    · obtain ⟨hle, hnormal, hval⟩ := ih (by omega)
      rw [if_pos hzero]
      refine ⟨by omega, hnormal, ?_⟩
      rw [hval, hlast, value_concat, hzero]
      simp
    · rw [if_neg hzero]
      refine ⟨Nat.le_refl _, ?_, rfl⟩
      rw [hlast]
      exact (normal_concat _ _).mpr hzero

/-! ### Sums and differences -/

section AddSub

variable (hw : 0 < w)

include hw

theorem add1_value (ap : List (BitVec w)) (b : BitVec w) :
    value (mpnAdd1 ap b).1 + base w ^ ap.length * (mpnAdd1 ap b).2.toNat =
      value ap + b.toNat := by
  have h := (value_chain add1Step 1 (fun a => (a.toNat : ℤ)) (fun _ => True)
    (fun a b _ => ⟨trivial, by
      have hcarry := toNat_add_carry a b
      rw [← toNat_flag hw] at hcarry
      zify at hcarry
      simpa [add1Step] using hcarry⟩) ap b trivial).2
  rw [total_toNat, one_mul, one_mul] at h
  exact_mod_cast h

theorem addNStep_eq (x : BitVec w × BitVec w) (cy : BitVec w) (hcy : cy.toNat ≤ 1) :
    (addNStep x cy).2.toNat ≤ 1 ∧
      ((addNStep x cy).1.toNat + 1 * base w * (addNStep x cy).2.toNat : ℤ) =
        (x.1.toNat + x.2.toNat) + 1 * cy.toNat := by
  have ha := toNat_lt_base x.1
  have hb := toNat_lt_base x.2
  have hc1 := toNat_add_carry x.1 cy
  have hc2 := toNat_add_carry (x.1 + cy) x.2
  rw [← toNat_flag hw] at hc1 hc2
  obtain ⟨hcarry, hlt⟩ := toNat_add_of_mul_lt (x := flag (x.1 + cy < cy))
    (y := flag (x.1 + cy + x.2 < x.2)) (one_lt_base hw) (by rw [Nat.mul_add]; omega)
  refine ⟨?_, ?_⟩
  · simp only [addNStep, hcarry]
    omega
  · simp only [addNStep, hcarry]
    zify at hc1 hc2
    push_cast
    linear_combination hc1 + hc2

theorem addN_value (ap bp : List (BitVec w)) (hlen : ap.length = bp.length) :
    value (mpnAddN ap bp).1 + base w ^ ap.length * (mpnAddN ap bp).2.toNat =
      value ap + value bp ∧ (mpnAddN ap bp).2.toNat ≤ 1 := by
  obtain ⟨hcy, h⟩ := value_chain addNStep 1 _ _ (addNStep_eq hw) (ap.zip bp) 0 (by simp)
  rw [total_zip (fun a => (a.toNat : ℤ)) (fun b => (b.toNat : ℤ)) _ _ hlen, total_toNat,
    total_toNat, List.length_zip, ← hlen, Nat.min_self] at h
  refine ⟨?_, hcy⟩
  simp only [one_mul, BitVec.ofNat_eq_ofNat, BitVec.toNat_zero, Nat.cast_zero, add_zero] at h
  exact_mod_cast h

theorem add_value (ap bp : List (BitVec w)) (hlen : bp.length ≤ ap.length) :
    value (mpnAdd ap bp).1 + base w ^ ap.length * (mpnAdd ap bp).2.toNat =
      value ap + value bp := by
  have htake : (ap.take bp.length).length = bp.length := List.length_take_of_le hlen
  have hsplit := value_take_add_drop ap bp.length hlen
  have hlow := (addN_value hw (ap.take bp.length) bp htake).1
  rw [htake] at hlow
  have hlow' : (mpnAddN (ap.take bp.length) bp).1.length = bp.length := by
    simp [mpnAddN, length_chain, htake]
  unfold mpnAdd
  by_cases hgt : ap.length > bp.length
  · have hhigh := add1_value hw (ap.drop bp.length) (mpnAddN (ap.take bp.length) bp).2
    have hpow : base w ^ ap.length = base w ^ bp.length * base w ^ (ap.drop bp.length).length := by
      rw [List.length_drop, ← Nat.pow_add, Nat.add_sub_cancel' hlen]
    simp only [if_pos hgt, value_append, hlow', hpow]
    zify at hhigh hlow hsplit ⊢
    linear_combination (base w : ℤ) ^ bp.length * hhigh + hlow + hsplit
  · have hall : ap.length = bp.length := by omega
    simp only [if_neg hgt]
    rw [hall, hlow, ← hall, List.take_length]

theorem sub1_value (ap : List (BitVec w)) (b : BitVec w) :
    value (mpnSub1 ap b).1 + b.toNat =
      value ap + base w ^ ap.length * (mpnSub1 ap b).2.toNat := by
  have h := (value_chain sub1Step (-1) (fun a => (a.toNat : ℤ)) (fun _ => True)
    (fun a b _ => ⟨trivial, by
      have hborrow := toNat_sub_borrow a b
      rw [← toNat_flag hw] at hborrow
      zify at hborrow
      simp only [sub1Step]
      linear_combination hborrow⟩) ap b trivial).2
  rw [total_toNat] at h
  zify
  simp only [mpnSub1]
  linear_combination h

theorem subNStep_eq (x : BitVec w × BitVec w) (cy : BitVec w) (hcy : cy.toNat ≤ 1) :
    (subNStep x cy).2.toNat ≤ 1 ∧
      ((subNStep x cy).1.toNat + -1 * base w * (subNStep x cy).2.toNat : ℤ) =
        (x.1.toNat + -1 * x.2.toNat) + -1 * cy.toNat := by
  have ha := toNat_lt_base (x.1 - (x.2 + cy))
  have hb := toNat_lt_base x.2
  have hc1 := toNat_add_carry x.2 cy
  have hc2 := toNat_sub_borrow x.1 (x.2 + cy)
  rw [← toNat_flag hw] at hc1 hc2
  obtain ⟨hcarry, hlt⟩ := toNat_add_of_mul_lt (x := flag (x.2 + cy < cy))
    (y := flag (x.1 < x.2 + cy)) (one_lt_base hw) (by rw [Nat.mul_add]; omega)
  refine ⟨?_, ?_⟩
  · simp only [subNStep, hcarry]
    omega
  · simp only [subNStep, hcarry]
    zify at hc1 hc2
    push_cast
    linear_combination hc2 - hc1

theorem subN_value (ap bp : List (BitVec w)) (hlen : ap.length = bp.length) :
    value (mpnSubN ap bp).1 + value bp =
      value ap + base w ^ ap.length * (mpnSubN ap bp).2.toNat := by
  obtain ⟨-, h⟩ := value_chain subNStep (-1) _ _ (subNStep_eq hw) (ap.zip bp) 0 (by simp)
  rw [total_zip (fun a => (a.toNat : ℤ)) (fun b => -1 * (b.toNat : ℤ)) _ _ hlen, total_toNat,
    total_mul, total_toNat, List.length_zip, ← hlen, Nat.min_self] at h
  simp only [BitVec.ofNat_eq_ofNat, BitVec.toNat_zero, Nat.cast_zero, mul_zero, add_zero] at h
  zify
  simp only [mpnSubN]
  linear_combination h

theorem sub_value (ap bp : List (BitVec w)) (hlen : bp.length ≤ ap.length) :
    value (mpnSub ap bp).1 + value bp =
      value ap + base w ^ ap.length * (mpnSub ap bp).2.toNat := by
  have htake : (ap.take bp.length).length = bp.length := List.length_take_of_le hlen
  have hsplit := value_take_add_drop ap bp.length hlen
  have hlow := subN_value hw (ap.take bp.length) bp htake
  rw [htake] at hlow
  have hlow' : (mpnSubN (ap.take bp.length) bp).1.length = bp.length := by
    simp [mpnSubN, length_chain, htake]
  unfold mpnSub
  by_cases hgt : ap.length > bp.length
  · have hhigh := sub1_value hw (ap.drop bp.length) (mpnSubN (ap.take bp.length) bp).2
    have hpow : base w ^ ap.length = base w ^ bp.length * base w ^ (ap.drop bp.length).length := by
      rw [List.length_drop, ← Nat.pow_add, Nat.add_sub_cancel' hlen]
    simp only [if_pos hgt, value_append, hlow', hpow]
    zify at hhigh hlow hsplit ⊢
    linear_combination (base w : ℤ) ^ bp.length * hhigh + hlow + hsplit
  · have hall : ap.length = bp.length := by omega
    simp only [if_neg hgt]
    rw [hall, hlow, ← hall, List.take_length]

end AddSub

/-! ### Lengths -/

theorem length_mpnAdd (ap bp : List (BitVec w)) (hlen : bp.length ≤ ap.length) :
    (mpnAdd ap bp).1.length = ap.length := by
  unfold mpnAdd
  by_cases hgt : ap.length > bp.length
  · simp [hgt, mpnAddN, mpnAdd1, length_chain, hlen]
  · simp only [if_neg hgt]
    simp [mpnAddN, length_chain, hlen]
    omega

theorem length_mpnSub (ap bp : List (BitVec w)) (hlen : bp.length ≤ ap.length) :
    (mpnSub ap bp).1.length = ap.length := by
  unfold mpnSub
  by_cases hgt : ap.length > bp.length
  · simp [hgt, mpnSubN, mpnSub1, length_chain, hlen]
  · simp only [if_neg hgt]
    simp [mpnSubN, length_chain, hlen]
    omega

/-! ### Products -/

/- The pointer moves over the lowest limb, and the carry becomes the highest one. -/
theorem window_value (rp l : List (BitVec w)) (cl : BitVec w) (hrp : 0 < rp.length)
    (n : ℕ) (hl : value l = value (rp.drop 1 ++ [cl]) + n) :
    value (rp.take 1 ++ l) = value rp + base w ^ rp.length * cl.toNat + base w * n := by
  have hsplit := value_take_add_drop rp 1 hrp
  have htake : (rp.take 1).length = 1 := List.length_take_of_le hrp
  have hdrop : (rp.drop 1).length = rp.length - 1 := List.length_drop
  have hpow : base w ^ rp.length = base w * base w ^ (rp.length - 1) := by
    rw [← Nat.pow_succ', Nat.succ_eq_add_one, Nat.sub_add_cancel hrp]
  rw [value_append, hl, value_concat, htake, hdrop, hpow, Nat.pow_one]
  rw [Nat.pow_one] at hsplit
  linarith

section Mul

variable (hw : LimbBits w)

include hw

/- A round of `mpn_mul_1`, which the two others begin with. -/
theorem mul1Step_eq (vl ul cl : BitVec w) :
    (mul1Step vl ul cl).1.toNat + base w * (mul1Step vl ul cl).2.toNat =
      ul.toNat * vl.toNat + cl.toNat := by
  have hcl := toNat_lt_base cl
  have hprod : (umulPpmm ul vl).2.toNat + base w * (umulPpmm ul vl).1.toNat =
      ul.toNat * vl.toNat := hw.wide_umulPpmm ul vl
  have hcarry := toNat_add_carry (umulPpmm ul vl).2 cl
  rw [← toNat_flag hw.pos] at hcarry
  have hbound := mul_add_add_lt (toNat_lt_base ul) (toNat_lt_base vl) hcl (base_pos w)
  obtain ⟨hsum, -⟩ := toNat_add_of_mul_lt (x := flag ((umulPpmm ul vl).2 + cl < cl))
    (y := (umulPpmm ul vl).1) (Nat.le_refl _) (by rw [Nat.mul_add]; omega)
  simp only [mul1Step, hsum]
  linarith

theorem mul1_value (up : List (BitVec w)) (vl : BitVec w) :
    value (mpnMul1 up vl).1 + base w ^ up.length * (mpnMul1 up vl).2.toNat =
      value up * vl.toNat := by
  have h := (value_chain (mul1Step vl) 1 (fun u => vl.toNat * (u.toNat : ℤ)) (fun _ => True)
    (fun u c _ => ⟨trivial, by
      have hstep := mul1Step_eq hw vl u c
      zify at hstep
      linear_combination hstep⟩) up 0 trivial).2
  rw [total_mul, total_toNat] at h
  simp only [BitVec.ofNat_eq_ofNat, BitVec.toNat_zero, Nat.cast_zero] at h
  zify
  simp only [mpnMul1]
  linear_combination h

theorem addmul1Step_eq (vl : BitVec w) (x : BitVec w × BitVec w) (cl : BitVec w) :
    ((addmul1Step vl x cl).1.toNat + 1 * base w * (addmul1Step vl x cl).2.toNat : ℤ) =
      (vl.toNat * (x.1.toNat : ℤ) + x.2.toNat) + 1 * cl.toNat := by
  have hmul := mul1Step_eq hw vl x.1 cl
  have hcarry := toNat_add_carry' x.2 (mul1Step vl x.1 cl).1
  rw [← toNat_flag hw.pos] at hcarry
  have hbound := mul_add_add_lt (toNat_lt_base x.1) (toNat_lt_base vl) (toNat_lt_base cl)
    (toNat_lt_base x.2)
  obtain ⟨hsum, -⟩ := toNat_add_of_mul_lt (x := (mul1Step vl x.1 cl).2)
    (y := flag (x.2 + (mul1Step vl x.1 cl).1 < x.2)) (Nat.le_refl _) (by rw [Nat.mul_add]; omega)
  have hstep : addmul1Step vl x cl = (x.2 + (mul1Step vl x.1 cl).1,
      (mul1Step vl x.1 cl).2 + flag (x.2 + (mul1Step vl x.1 cl).1 < x.2)) := rfl
  rw [hstep]
  simp only [hsum]
  zify at hmul hcarry
  push_cast
  linear_combination hmul + hcarry

theorem addmul1_value (rp up : List (BitVec w)) (vl : BitVec w) (hlen : up.length = rp.length) :
    value (mpnAddmul1 rp up vl).1 + base w ^ up.length * (mpnAddmul1 rp up vl).2.toNat =
      value rp + value up * vl.toNat := by
  have h := (value_chain (addmul1Step vl) 1 _ (fun _ => True)
    (fun x c _ => ⟨trivial, addmul1Step_eq hw vl x c⟩) (up.zip rp) 0 trivial).2
  rw [total_zip (fun u => vl.toNat * (u.toNat : ℤ)) (fun r => (r.toNat : ℤ)) _ _ hlen, total_mul,
    total_toNat, total_toNat, List.length_zip, ← hlen, Nat.min_self] at h
  simp only [BitVec.ofNat_eq_ofNat, BitVec.toNat_zero, Nat.cast_zero] at h
  zify
  simp only [mpnAddmul1]
  linear_combination h

theorem submul1Step_eq (vl : BitVec w) (x : BitVec w × BitVec w) (cl : BitVec w) :
    ((submul1Step vl x cl).1.toNat + -1 * base w * (submul1Step vl x cl).2.toNat : ℤ) =
      (-vl.toNat * (x.1.toNat : ℤ) + x.2.toNat) + -1 * cl.toNat := by
  have hmul := mul1Step_eq hw vl x.1 cl
  have hborrow := toNat_sub_borrow x.2 (mul1Step vl x.1 cl).1
  rw [← toNat_flag hw.pos] at hborrow
  have hbound := mul_add_add_lt (toNat_lt_base x.1) (toNat_lt_base vl) (toNat_lt_base cl)
    (toNat_lt_base (x.2 - (mul1Step vl x.1 cl).1))
  obtain ⟨hsum, -⟩ := toNat_add_of_mul_lt (x := (mul1Step vl x.1 cl).2)
    (y := flag (x.2 < (mul1Step vl x.1 cl).1)) (Nat.le_refl _) (by rw [Nat.mul_add]; omega)
  have hstep : submul1Step vl x cl = (x.2 - (mul1Step vl x.1 cl).1,
      (mul1Step vl x.1 cl).2 + flag (x.2 - (mul1Step vl x.1 cl).1 > x.2)) := rfl
  have hflag : (flag (x.2 - (mul1Step vl x.1 cl).1 > x.2) : BitVec w) =
      flag (x.2 < (mul1Step vl x.1 cl).1) := if_congr (sub_gt_iff _ _) rfl rfl
  rw [hstep, hflag]
  simp only [hsum]
  zify at hmul hborrow
  push_cast
  linear_combination hborrow - hmul

theorem submul1_value (rp up : List (BitVec w)) (vl : BitVec w) (hlen : up.length = rp.length) :
    value (mpnSubmul1 rp up vl).1 + value up * vl.toNat =
      value rp + base w ^ up.length * (mpnSubmul1 rp up vl).2.toNat := by
  have h := (value_chain (submul1Step vl) (-1) _ (fun _ => True)
    (fun x c _ => ⟨trivial, submul1Step_eq hw vl x c⟩) (up.zip rp) 0 trivial).2
  rw [total_zip (fun u => -vl.toNat * (u.toNat : ℤ)) (fun r => (r.toNat : ℤ)) _ _ hlen, total_mul,
    total_toNat, total_toNat, List.length_zip, ← hlen, Nat.min_self] at h
  simp only [BitVec.ofNat_eq_ofNat, BitVec.toNat_zero, Nat.cast_zero] at h
  zify
  simp only [mpnSubmul1]
  linear_combination h

theorem mulLoop_value (up rp vp : List (BitVec w)) (hup : 0 < up.length)
    (hlen : rp.length = up.length) :
    value (mulLoop up rp vp) = value rp + value up * value vp ∧
      (mulLoop up rp vp).length = up.length + vp.length := by
  induction vp generalizing rp with
  | nil => simp [mulLoop, hlen]
  | cons v vp ih =>
    have hrp := addmul1_value hw rp up v hlen.symm
    have hlen' : (mpnAddmul1 rp up v).1.length = up.length := by
      simp [mpnAddmul1, length_chain, hlen]
    obtain ⟨hval, hlength⟩ := ih ((mpnAddmul1 rp up v).1.drop 1 ++ [(mpnAddmul1 rp up v).2])
      (by simp only [List.length_append, List.length_drop, List.length_singleton]; omega)
    have hwindow := window_value _ _ _ (by omega) _ hval
    constructor
    · simp only [mulLoop]
      rw [hwindow, hlen', value_cons]
      linarith
    · simp only [mulLoop, List.length_append, hlength, List.length_cons, List.length_take]
      omega

/-- `mpn_mul` is exact. -/
theorem mul_value (up vp : List (BitVec w)) (hup : 0 < up.length) (hvp : 0 < vp.length) :
    value (mpnMul up vp) = value up * value vp ∧ (mpnMul up vp).length = up.length + vp.length := by
  cases vp with
  | nil => simp at hvp
  | cons v vp =>
    have hrp := mul1_value hw up v
    have hlen' : (mpnMul1 up v).1.length = up.length := by simp [mpnMul1, length_chain]
    obtain ⟨hval, hlength⟩ := mulLoop_value hw up ((mpnMul1 up v).1.drop 1 ++ [(mpnMul1 up v).2])
      vp hup (by simp only [List.length_append, List.length_drop, List.length_singleton]; omega)
    have hwindow := window_value _ _ _ (by omega) _ hval
    constructor
    · simp only [mpnMul]
      rw [hwindow, hlen', value_cons]
      linarith
    · simp only [mpnMul, List.length_append, hlength, List.length_cons, List.length_take]
      omega

end Mul

/-! ### Shifted numbers -/

section Shift

variable {cnt : ℕ} (hcnt : cnt ≤ w)

include hcnt

theorem lshiftLoop_value (u : BitVec w) (up : List (BitVec w)) :
    let x := lshiftLoop cnt (u :: up)
    value (x.2.1 :: x.2.2) + base w ^ (u :: up).length * x.1.toNat = 2 ^ cnt * value (u :: up) ∧
      x.2.1 = u <<< cnt ∧ x.2.2.length = up.length := by
  induction up generalizing u with
  | nil =>
    have hsplit := shift_split hcnt u
    simpa [lshiftLoop] using hsplit
  | cons u' up ih =>
    obtain ⟨hval, hhigh, hlen⟩ := ih u'
    have hsplit := shift_split hcnt u
    have hor := toNat_shiftLeft_or hcnt u' (toNat_shiftRight_lt hcnt u)
    intro x
    have hx : x = ((lshiftLoop cnt (u' :: up)).1, u <<< cnt,
        ((lshiftLoop cnt (u' :: up)).2.1 ||| (u >>> (w - cnt))) ::
          (lshiftLoop cnt (u' :: up)).2.2) := rfl
    refine ⟨?_, by rw [hx], by rw [hx]; simp [hlen]⟩
    rw [hx]
    rw [value_cons, hhigh] at hval
    simp only [value_cons, List.length_cons, Nat.pow_succ, hhigh, hor] at hval ⊢
    zify at hval hsplit ⊢
    linear_combination hsplit + (base w : ℤ) * hval

theorem lshift_value (up : List (BitVec w)) (hup : up ≠ []) :
    value (mpnLshift up cnt).1 + base w ^ up.length * (mpnLshift up cnt).2.toNat =
      2 ^ cnt * value up ∧ (mpnLshift up cnt).1.length = up.length := by
  cases up with
  | nil => exact absurd rfl hup
  | cons u up =>
    obtain ⟨hval, -, hlen⟩ := lshiftLoop_value hcnt u up
    exact ⟨hval, congrArg Nat.succ hlen⟩

theorem rshift_value (u : BitVec w) (up : List (BitVec w)) :
    2 ^ cnt * value (mpnRshift (u :: up) cnt).1 + u.toNat % 2 ^ cnt = value (u :: up) ∧
      (mpnRshift (u :: up) cnt).2.toNat = 2 ^ (w - cnt) * (u.toNat % 2 ^ cnt) ∧
      (mpnRshift (u :: up) cnt).1.length = (u :: up).length := by
  have hback : w - (w - cnt) = cnt := by omega
  have hstep (x c : BitVec w) (hc : c.toNat < 2 ^ (w - cnt)) :
      (rshiftStep cnt x c).2.toNat < 2 ^ (w - cnt) ∧
        ((rshiftStep cnt x c).1.toNat + 1 * base w * (rshiftStep cnt x c).2.toNat : ℤ) =
          2 ^ (w - cnt) * x.toNat + 1 * c.toNat := by
    have hlt := toNat_shiftRight_lt (Nat.sub_le w cnt) x
    have hsplit := shift_split (Nat.sub_le w cnt) x
    have hor := toNat_shiftLeft_or (Nat.sub_le w cnt) x hc
    rw [hback] at hlt hsplit
    refine ⟨hlt, ?_⟩
    simp only [rshiftStep, BitVec.or_comm c, hor]
    zify at hsplit
    push_cast
    linear_combination hsplit
  have hlow := toNat_shiftRight_lt (Nat.sub_le w cnt) u
  rw [hback] at hlow
  obtain ⟨-, h⟩ := value_chain (rshiftStep cnt) 1 (fun x => (2 : ℤ) ^ (w - cnt) * x.toNat)
    (fun c => c.toNat < 2 ^ (w - cnt)) hstep up (u >>> cnt) hlow
  rw [total_mul, total_toNat] at h
  refine ⟨?_, ?_, ?_⟩
  · have hpow : (2 : ℤ) ^ cnt * 2 ^ (w - cnt) = base w := by
      rw [← pow_add, Nat.add_sub_cancel' hcnt]
      simp [base]
    have hdiv : (2 : ℤ) ^ cnt * (u >>> cnt).toNat + u.toNat % 2 ^ cnt = u.toNat := by
      rw [BitVec.toNat_ushiftRight, Nat.shiftRight_eq_div_pow]
      exact_mod_cast Nat.div_add_mod u.toNat (2 ^ cnt)
    simp only [mpnRshift, value_concat, value_cons, length_chain]
    zify
    linear_combination (2 : ℤ) ^ cnt * h + value up * hpow + hdiv
  · have hshift := toNat_shiftLeft (Nat.sub_le w cnt) u
    rwa [hback] at hshift
  · simp [mpnRshift, length_chain]

end Shift

end Pobc.MiniGmp
