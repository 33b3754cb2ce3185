import Pobc.MiniGmp.Division
import Mathlib.Data.Int.Bitwise

/-!
# Integers of mini-gmp (`mimc-gmp/mini-gmp.c:1410-2320`)

An `mpz_t` is a size with the sign of the number and the limbs of its absolute value. The
functions that MiMC calls are the operations of `ℤ` on the numbers that their arguments hold.

The size is an `int` in the source, so numbers of `2^31` limbs and more are outside the model.
There is no memory here: no `_mp_alloc`, and no assertion on it.
-/

namespace Pobc.MiniGmp
open Pobc.Limbs

variable {w : ℕ}

/-- `mpz_t`: `_mp_size` and the limbs in use of `_mp_d`. -/
structure Mpz (w : ℕ) where
  size : ℤ
  d : List (BitVec w)

/-- `(x ^ y) >= 0`: the sign bits agree. -/
def sameSign (x y : ℤ) : Prop := 0 ≤ Int.xor x y

instance (x y : ℤ) : Decidable (sameSign x y) := inferInstanceAs (Decidable (0 ≤ _))

/-! ### Addition, subtraction, multiplication -/

/-- `mpz_abs_add`: the size and the limbs of the result. -/
def mpzAbsAdd (a b : Mpz w) : ℤ × List (BitVec w) :=
  let (a, b) := if a.size.natAbs < b.size.natAbs then (b, a) else (a, b)
  let an := a.size.natAbs
  let (rp, cy) := mpnAdd a.d b.d
  let rn := an + cy.toNat
  (rn, (rp ++ [cy]).take rn)

/-- `mpz_abs_sub`. -/
def mpzAbsSub (a b : Mpz w) : Option (ℤ × List (BitVec w)) :=
  let cmp := mpnCmp4 a.d b.d
  if cmp > 0 then
    let (rp, cy) := mpnSub a.d b.d
    let rn := mpnNormalizedSize rp a.size.natAbs
    if cy = 0 then some (rn, rp.take rn) else none
  else if cmp < 0 then
    let (rp, cy) := mpnSub b.d a.d
    let rn := mpnNormalizedSize rp b.size.natAbs
    if cy = 0 then some (-rn, rp.take rn) else none
  else some (0, [])

/-- `mpz_add`. -/
def mpzAdd (a b : Mpz w) : Option (Mpz w) :=
  let r := if sameSign a.size b.size then some (mpzAbsAdd a b) else mpzAbsSub a b
  r.map fun (rn, d) => { size := if a.size ≥ 0 then rn else -rn, d }

/-- `mpz_sub`. -/
def mpzSub (a b : Mpz w) : Option (Mpz w) :=
  let r := if sameSign a.size b.size then mpzAbsSub a b else some (mpzAbsAdd a b)
  r.map fun (rn, d) => { size := if a.size ≥ 0 then rn else -rn, d }

/-- `mpz_mul`. -/
def mpzMul (u v : Mpz w) : Mpz w :=
  if u.size = 0 ∨ v.size = 0 then { size := 0, d := [] }
  else
    let un := u.size.natAbs
    let vn := v.size.natAbs
    let tp := if un ≥ vn then mpnMul u.d v.d else mpnMul v.d u.d
    let rn := un + vn
    let rn := if tp.getD (rn - 1) 0 = 0 then rn - 1 else rn
    { size := if sameSign u.size v.size then rn else -rn, d := tp.take rn }

/-! ### Division -/

/-- `enum mpz_div_round_mode`. -/
inductive MpzDivRoundMode where
  | floor
  | ceil
  | trunc
  deriving DecidableEq

/-- The remainder of `mpz_div_qr`, as `mpz_mod` calls it: without a place for the quotient. -/
def mpzDivR (n d : Mpz w) (mode : MpzDivRoundMode) : Option (Mpz w) :=
  if d.size = 0 then none
  else if n.size = 0 then some { size := 0, d := [] }
  else
    let dn := d.size.natAbs
    if n.size.natAbs < dn then
      if mode = .ceil ∧ sameSign d.size n.size then mpzSub n d
      else if mode = .floor ∧ ¬ sameSign d.size n.size then mpzAdd n d
      else some n
    else do
      let (_, np) ← mpnDivQr n.d d.d
      let rn := mpnNormalizedSize np dn
      let tr := { size := if n.size < 0 then -rn else rn, d := np.take rn }
      if mode = .floor ∧ ¬ sameSign d.size n.size ∧ rn ≠ 0 then mpzAdd tr d
      else if mode = .ceil ∧ sameSign d.size n.size ∧ rn ≠ 0 then mpzSub tr d
      else some tr

/-- `mpz_mod`. -/
def mpzMod (n d : Mpz w) : Option (Mpz w) :=
  mpzDivR n d (if d.size ≥ 0 then .floor else .ceil)

/-- `mpz_cmp`. -/
def mpzCmp (a b : Mpz w) : ℤ :=
  if a.size ≠ b.size then (if a.size < b.size then -1 else 1)
  else if a.size ≥ 0 then mpnCmp a.d b.d
  else mpnCmp b.d a.d

/-! ### The number of an `mpz_t` -/

/-- `x` stands for `n`: its limbs are as many as its size says, without leading zeros. -/
structure Mpz.Holds (x : Mpz w) (n : ℤ) : Prop where
  length : x.d.length = x.size.natAbs
  normal : Normal x.d
  eq : n = x.size.sign * value x.d

theorem sameSign_iff (x y : ℤ) : sameSign x y ↔ (0 ≤ x ↔ 0 ≤ y) := by
  cases x <;> cases y <;> simp [sameSign, Int.xor]

section Holds

variable {x : Mpz w} {n : ℤ} (hx : x.Holds n)

include hx

theorem Mpz.Holds.natAbs_eq : n.natAbs = value x.d := by
  rcases Int.lt_trichotomy x.size 0 with h | h | h
  · simp [hx.eq, Int.sign_eq_neg_one_of_neg h]
  · have hnil : x.d = [] := List.eq_nil_of_length_eq_zero (by simp [hx.length, h])
    simp [hx.eq, h, hnil]
  · simp [hx.eq, Int.sign_eq_one_of_pos h]

theorem Mpz.Holds.ne_nil (h : x.size ≠ 0) : x.d ≠ [] := by
  refine List.ne_nil_of_length_pos ?_
  rw [hx.length]
  exact Int.natAbs_pos.mpr h

theorem Mpz.Holds.sign_eq : n.sign = x.size.sign := by
  by_cases h : x.size = 0
  · simp [hx.eq, h]
  · have hpos : (0 : ℤ) < value x.d := by exact_mod_cast hx.normal.value_pos (hx.ne_nil h)
    rw [hx.eq, Int.sign_mul, Int.sign_sign, Int.sign_eq_one_of_pos hpos, mul_one]

theorem Mpz.Holds.nonneg_iff : 0 ≤ x.size ↔ 0 ≤ n := by
  rw [← Int.sign_nonneg_iff, ← hx.sign_eq, Int.sign_nonneg_iff]

theorem Mpz.Holds.eq_zero_iff : x.size = 0 ↔ n = 0 := by
  rw [← Int.sign_eq_zero_iff_zero, ← hx.sign_eq, Int.sign_eq_zero_iff_zero]

end Holds

/- A number has one `mpz_t`. -/
theorem Mpz.Holds.unique {x y : Mpz w} {n : ℤ} (hx : x.Holds n) (hy : y.Holds n) : x = y := by
  have hd : x.d = y.d :=
    hx.normal.eq_of_value_eq hy.normal (hx.natAbs_eq.symm.trans hy.natAbs_eq)
  have hsize : x.size = y.size := by
    rw [← Int.sign_mul_natAbs x.size, ← Int.sign_mul_natAbs y.size, ← hx.sign_eq, ← hy.sign_eq,
      ← hx.length, ← hy.length, hd]
  cases x
  cases y
  simp only at hd hsize
  rw [hd, hsize]

theorem Mpz.Holds.sameSign_iff {x y : Mpz w} {m n : ℤ} (hx : x.Holds m) (hy : y.Holds n) :
    sameSign x.size y.size ↔ (0 ≤ m ↔ 0 ≤ n) := by
  rw [MiniGmp.sameSign_iff, hx.nonneg_iff, hy.nonneg_iff]

/- An absolute value and a sign. -/
theorem holds_of_limbs {l : List (BitVec w)} (hl : Normal l) (p : Prop) [Decidable p] :
    Mpz.Holds { size := if p then (l.length : ℤ) else -l.length, d := l }
      (if p then (value l : ℤ) else -value l) := by
  constructor
  case length => split <;> simp
  case normal => exact hl
  case eq =>
    by_cases hnil : l = []
    · simp [hnil]
    · have hpos : (0 : ℤ) < l.length := by exact_mod_cast List.length_pos_of_ne_nil hnil
      split
      · rw [Int.sign_eq_one_of_pos hpos, one_mul]
      · rw [Int.sign_neg, Int.sign_eq_one_of_pos hpos, neg_one_mul]

/-- The `mpz_t` of an integer. -/
def Mpz.ofInt (w : ℕ) (n : ℤ) : Mpz w :=
  let d := (Nat.digits (base w) n.natAbs).map (BitVec.ofNat w)
  { size := n.sign * d.length, d }

theorem ofInt_holds (hw : 0 < w) (n : ℤ) : (Mpz.ofInt w n).Holds n := by
  obtain ⟨l, hl⟩ : ∃ l, l = (Nat.digits (base w) n.natAbs).map (BitVec.ofNat w) := ⟨_, rfl⟩
  have hone := one_lt_base hw
  have hlen : l.length = (Nat.digits (base w) n.natAbs).length := by rw [hl, List.length_map]
  have hval : value l = n.natAbs := by
    have hdigits : l.map BitVec.toNat = Nat.digits (base w) n.natAbs := by
      rw [hl, List.map_map]
      refine (List.map_congr_left fun d hd => ?_).trans (List.map_id _)
      have hlt : d < base w := Nat.digits_lt_base hone hd
      exact (BitVec.toNat_ofNat d w).trans (Nat.mod_eq_of_lt hlt)
    rw [value, hdigits, Nat.ofDigits_digits]
  have hnormal : Normal l := by
    by_cases hzero : n.natAbs = 0
    · have hnil : l = [] := by simp [hl, hzero]
      rw [hnil]
      exact normal_nil
    · refine normal_of_le ?_
      rw [hval, hlen, Nat.length_digits _ _ hone hzero, Nat.add_sub_cancel]
      exact Nat.pow_log_le_self _ hzero
  have hsign := holds_of_limbs hnormal (0 ≤ n)
  have hn : (if 0 ≤ n then (value l : ℤ) else -value l) = n := by
    rw [hval]
    split <;> omega
  have hsize : (if 0 ≤ n then (l.length : ℤ) else -l.length) = n.sign * l.length := by
    rcases lt_trichotomy n 0 with h | h | h
    · rw [if_neg (not_le.mpr h), Int.sign_eq_neg_one_of_neg h, neg_one_mul]
    · have hnil : l = [] := by simp [hl, h]
      simp [h, hnil]
    · rw [if_pos h.le, Int.sign_eq_one_of_pos h, one_mul]
  rw [hn, hsize, hl] at hsign
  exact hsign

theorem Mpz.Holds.withSign {s n : ℤ} {l : List (BitVec w)}
    (h : Mpz.Holds { size := s, d := l } n) (p : Prop) [Decidable p] :
    Mpz.Holds { size := if p then s else -s, d := l } (if p then n else -n) := by
  by_cases hp : p
  · simpa [hp] using h
  · constructor
    case length => simpa [hp] using h.length
    case normal => exact h.normal
    case eq => simp [hp, h.eq]

/-! ### Addition and subtraction -/

section AddLimbs

variable (hw : 0 < w) {ap bp : List (BitVec w)} (ha : Normal ap) (hlen : bp.length ≤ ap.length)

include hw ha hlen

theorem absAdd_limbs :
    let rn := ap.length + (mpnAdd ap bp).2.toNat
    let l := ((mpnAdd ap bp).1 ++ [(mpnAdd ap bp).2]).take rn
    l.length = rn ∧ Normal l ∧ value l = value ap + value bp := by
  have hval := add_value hw ap bp hlen
  have hlength := length_mpnAdd ap bp hlen
  have halt := value_lt ap
  have hblt : value bp < base w ^ ap.length :=
    (value_lt bp).trans_le (Nat.pow_le_pow_right (base_pos w) hlen)
  obtain ⟨r, hr⟩ : ∃ r, r = mpnAdd ap bp := ⟨_, rfl⟩
  rw [← hr] at hval hlength ⊢
  have hcy : r.2.toNat < 2 := by
    refine lt_of_mul_lt_mul_left (a := base w ^ ap.length) ?_ (Nat.zero_le _)
    omega
  intro rn l
  rcases Nat.lt_succ_iff_lt_or_eq.mp hcy with h0 | h1
  · have hzero : r.2.toNat = 0 := by omega
    have hl : l = r.1 := by
      simp [l, rn, hzero, ← hlength]
    rw [hzero, Nat.mul_zero, Nat.add_zero] at hval
    rw [hl]
    refine ⟨by omega, ?_, hval⟩
    by_cases hnil : ap = []
    · have hr1 : r.1 = [] := List.eq_nil_of_length_eq_zero (by simp [hlength, hnil])
      rw [hr1]
      exact normal_nil
    · refine normal_of_le ?_
      rw [hlength, hval]
      exact (ha.le_value hnil).trans (Nat.le_add_right _ _)
  · have hl : l = r.1 ++ [r.2] := by
      refine List.take_of_length_le ?_
      simp [rn, h1, hlength]
    have hne : r.2 ≠ 0 := fun hzero => by simp [hzero] at h1
    rw [hl]
    refine ⟨by simp [rn, h1, hlength], (normal_concat _ _).mpr hne, ?_⟩
    rw [value_concat, hlength, hval]

end AddLimbs

section AddSub

variable (hw : 0 < w) {a b : Mpz w} {m n : ℤ} (ha : a.Holds m) (hb : b.Holds n)

include hw ha hb

theorem mpzAbsAdd_holds :
    Mpz.Holds { size := (mpzAbsAdd a b).1, d := (mpzAbsAdd a b).2 } (m.natAbs + n.natAbs) := by
  have hma := ha.natAbs_eq
  have hnb := hb.natAbs_eq
  unfold mpzAbsAdd
  by_cases hlt : a.size.natAbs < b.size.natAbs
  · obtain ⟨hlen, hnormal, hval⟩ := absAdd_limbs hw hb.normal
      (by rw [ha.length, hb.length]; omega : a.d.length ≤ b.d.length)
    have h := holds_of_limbs hnormal True
    rw [hlen, hval, hb.length] at h
    rw [hma, hnb]
    simpa [hlt, add_comm] using h
  · obtain ⟨hlen, hnormal, hval⟩ := absAdd_limbs hw ha.normal
      (by rw [ha.length, hb.length]; omega : b.d.length ≤ a.d.length)
    have h := holds_of_limbs hnormal True
    rw [hlen, hval, ha.length] at h
    rw [hma, hnb]
    simpa [hlt] using h

end AddSub

/- The smaller number from the greater one: no borrow, and the leading zeros cut off. -/
theorem absSub_limbs (hw : 0 < w) {ap bp : List (BitVec w)}
    (hlt : value bp < value ap) (hlen : bp.length ≤ ap.length) :
    let rn := mpnNormalizedSize (mpnSub ap bp).1 ap.length
    let l := (mpnSub ap bp).1.take rn
    (mpnSub ap bp).2 = 0 ∧ l.length = rn ∧ Normal l ∧ value l = value ap - value bp := by
  have hval := sub_value hw ap bp hlen
  have hlength := length_mpnSub ap bp hlen
  have hrange := value_lt (mpnSub ap bp).1
  obtain ⟨hle, hnormal, hsame⟩ := mpnNormalizedSize_spec (mpnSub ap bp).1 ap.length hlength.ge
  rw [hlength] at hrange
  have hzero : (mpnSub ap bp).2.toNat = 0 := by
    by_contra hne
    have hmul := Nat.mul_le_mul_left (base w ^ ap.length) (Nat.one_le_iff_ne_zero.mpr hne)
    omega
  rw [hzero, Nat.mul_zero, Nat.add_zero] at hval
  refine ⟨BitVec.eq_of_toNat_eq hzero, List.length_take_of_le (by omega), hnormal, ?_⟩
  rw [hsame, List.take_of_length_le hlength.le]
  omega

section AddSub

variable (hw : 0 < w) {a b : Mpz w} {m n : ℤ} (ha : a.Holds m) (hb : b.Holds n)

include hw ha hb

theorem mpzAbsSub_holds :
    ∃ rn d, mpzAbsSub a b = some (rn, d) ∧
      Mpz.Holds { size := rn, d } (m.natAbs - n.natAbs) := by
  have hcmp := mpnCmp4_eq a.d b.d ha.normal hb.normal
  rw [ha.natAbs_eq, hb.natAbs_eq]
  unfold mpzAbsSub
  rcases Nat.lt_trichotomy (value b.d) (value a.d) with hlt | heq | hgt
  · rw [Int.sign_eq_one_of_pos (by omega)] at hcmp
    obtain ⟨hcy, hlen, hnormal, hval⟩ := absSub_limbs hw hlt
      (hb.normal.length_le hlt.le)
    have h := holds_of_limbs hnormal True
    rw [hlen, hval, ha.length, Nat.cast_sub hlt.le] at h
    refine ⟨mpnNormalizedSize (mpnSub a.d b.d).1 a.size.natAbs, _, ?_, by simpa using h⟩
    simp [hcmp, hcy]
  · have hzero : mpnCmp4 a.d b.d = 0 := by simp [hcmp, heq]
    refine ⟨0, [], by simp [hzero], ?_⟩
    simpa [heq] using holds_of_limbs (w := w) normal_nil True
  · rw [Int.sign_eq_neg_one_of_neg (by omega)] at hcmp
    obtain ⟨hcy, hlen, hnormal, hval⟩ := absSub_limbs hw hgt
      (ha.normal.length_le hgt.le)
    have h := holds_of_limbs hnormal False
    rw [hlen, hval, hb.length, Nat.cast_sub hgt.le] at h
    refine ⟨-mpnNormalizedSize (mpnSub b.d a.d).1 b.size.natAbs, _, ?_, by simpa using h⟩
    simp [hcmp, hcy]

/-- `mpz_add` adds. -/
theorem mpzAdd_holds : ∃ r, mpzAdd a b = some r ∧ r.Holds (m + n) := by
  unfold mpzAdd
  by_cases hs : sameSign a.size b.size
  · have h := (mpzAbsAdd_holds hw ha hb).withSign (a.size ≥ 0)
    have hsign := (ha.sameSign_iff hb).mp hs
    have hsum : (if a.size ≥ 0 then (m.natAbs + n.natAbs : ℤ) else -(m.natAbs + n.natAbs)) =
        m + n := by
      simp only [ge_iff_le, ha.nonneg_iff]
      split <;> omega
    rw [hsum] at h
    exact ⟨_, by rw [if_pos hs]; rfl, h⟩
  · obtain ⟨rn, d, hr, hd⟩ := mpzAbsSub_holds hw ha hb
    have h := hd.withSign (a.size ≥ 0)
    have hsign := mt (ha.sameSign_iff hb).mpr hs
    have hsum : (if a.size ≥ 0 then (m.natAbs - n.natAbs : ℤ) else -(m.natAbs - n.natAbs)) =
        m + n := by
      simp only [ge_iff_le, ha.nonneg_iff]
      split <;> omega
    rw [hsum] at h
    exact ⟨_, by rw [if_neg hs, hr]; rfl, h⟩

/-- `mpz_sub` subtracts. -/
theorem mpzSub_holds : ∃ r, mpzSub a b = some r ∧ r.Holds (m - n) := by
  unfold mpzSub
  by_cases hs : sameSign a.size b.size
  · obtain ⟨rn, d, hr, hd⟩ := mpzAbsSub_holds hw ha hb
    have h := hd.withSign (a.size ≥ 0)
    have hsign := (ha.sameSign_iff hb).mp hs
    have hdiff : (if a.size ≥ 0 then (m.natAbs - n.natAbs : ℤ) else -(m.natAbs - n.natAbs)) =
        m - n := by
      simp only [ge_iff_le, ha.nonneg_iff]
      split <;> omega
    rw [hdiff] at h
    exact ⟨_, by rw [if_pos hs, hr]; rfl, h⟩
  · have h := (mpzAbsAdd_holds hw ha hb).withSign (a.size ≥ 0)
    have hsign := mt (ha.sameSign_iff hb).mpr hs
    have hdiff : (if a.size ≥ 0 then (m.natAbs + n.natAbs : ℤ) else -(m.natAbs + n.natAbs)) =
        m - n := by
      simp only [ge_iff_le, ha.nonneg_iff]
      split <;> omega
    rw [hdiff] at h
    exact ⟨_, by rw [if_neg hs]; rfl, h⟩

end AddSub

/-! ### Multiplication -/

/- A number with at most one leading zero loses it. -/
theorem trim_limbs (tp : List (BitVec w)) (hpos : 1 ≤ tp.length)
    (hle : base w ^ (tp.length - 2) ≤ value tp) :
    let rn := if tp.getD (tp.length - 1) 0 = 0 then tp.length - 1 else tp.length
    (tp.take rn).length = rn ∧ Normal (tp.take rn) ∧ value (tp.take rn) = value tp := by
  have htop := value_top tp hpos
  intro rn
  by_cases hzero : tp.getD (tp.length - 1) 0 = 0
  · have hrn : rn = tp.length - 1 := if_pos hzero
    have htake : value (tp.take (tp.length - 1)) = value tp := by
      rw [hzero] at htop
      simpa using htop.symm
    have hlength : (tp.take (tp.length - 1)).length = tp.length - 1 :=
      List.length_take_of_le (Nat.sub_le _ _)
    rw [hrn]
    refine ⟨hlength, normal_of_le ?_, htake⟩
    rw [hlength, htake, Nat.sub_sub]
    exact hle
  · have hrn : rn = tp.length := if_neg hzero
    have hone : 0 < (tp.getD (tp.length - 1) 0).toNat :=
      Nat.pos_of_ne_zero fun h => hzero (BitVec.eq_of_toNat_eq h)
    have hmul := Nat.mul_le_mul_left (base w ^ (tp.length - 1)) (Nat.succ_le_of_lt hone)
    rw [hrn, List.take_length]
    refine ⟨rfl, normal_of_le ?_, rfl⟩
    omega

/- At most one limb of a product is a leading zero. -/
theorem mul_limbs (hw : LimbBits w) {up vp : List (BitVec w)} (hu : Normal up) (hv : Normal vp)
    (hup : up ≠ []) (hvp : vp ≠ []) :
    let tp := mpnMul up vp
    let rn := up.length + vp.length
    let rn := if tp.getD (rn - 1) 0 = 0 then rn - 1 else rn
    (tp.take rn).length = rn ∧ Normal (tp.take rn) ∧ value (tp.take rn) = value up * value vp := by
  have hun := List.length_pos_of_ne_nil hup
  have hvn := List.length_pos_of_ne_nil hvp
  obtain ⟨hval, hlen⟩ := mul_value hw up vp hun hvn
  have hle : base w ^ (up.length + vp.length - 2) ≤ value (mpnMul up vp) := by
    rw [hval]
    refine le_trans (le_of_eq ?_) (Nat.mul_le_mul (hu.le_value hup) (hv.le_value hvp))
    rw [← Nat.pow_add]
    congr 1
    omega
  have h := trim_limbs (mpnMul up vp) (by omega) (by rwa [hlen])
  rwa [hlen, hval] at h

/-- `mpz_mul` multiplies. -/
theorem mpzMul_holds (hw : LimbBits w) {u v : Mpz w} {m n : ℤ} (hu : u.Holds m) (hv : v.Holds n) :
    (mpzMul u v).Holds (m * n) := by
  unfold mpzMul
  by_cases hz : u.size = 0 ∨ v.size = 0
  · have hmn : m * n = 0 := mul_eq_zero.mpr (hz.imp hu.eq_zero_iff.mp hv.eq_zero_iff.mp)
    rw [if_pos hz, hmn]
    simpa using holds_of_limbs (w := w) normal_nil True
  · obtain ⟨hus, hvs⟩ := not_or.mp hz
    have hun := hu.ne_nil hus
    have hvn := hv.ne_nil hvs
    have hm0 := mt hu.eq_zero_iff.mpr hus
    have hn0 := mt hv.eq_zero_iff.mpr hvs
    have hsign := hu.sameSign_iff hv
    have hprod : (if sameSign u.size v.size then ((value u.d * value v.d : ℕ) : ℤ)
        else -(value u.d * value v.d : ℕ)) = m * n := by
      rw [← hu.natAbs_eq, ← hv.natAbs_eq, ← Int.natAbs_mul]
      rcases lt_or_gt_of_ne hm0 with hm | hm
      · rcases lt_or_gt_of_ne hn0 with hn | hn
        · have hs := hsign.mpr (by omega)
          rw [if_pos hs, Int.natAbs_of_nonneg (mul_pos_of_neg_of_neg hm hn).le]
        · have hs := mt hsign.mp (by omega)
          rw [if_neg hs, Int.ofNat_natAbs_of_nonpos (mul_neg_of_neg_of_pos hm hn).le, neg_neg]
      · rcases lt_or_gt_of_ne hn0 with hn | hn
        · have hs := mt hsign.mp (by omega)
          rw [if_neg hs, Int.ofNat_natAbs_of_nonpos (mul_neg_of_pos_of_neg hm hn).le, neg_neg]
        · have hs := hsign.mpr (by omega)
          rw [if_pos hs, Int.natAbs_of_nonneg (mul_pos hm hn).le]
    rw [if_neg hz, ← hprod]
    by_cases hge : u.size.natAbs ≥ v.size.natAbs
    · obtain ⟨hlen, hnormal, hval⟩ := mul_limbs hw hu.normal hv.normal hun hvn
      have h := holds_of_limbs hnormal (sameSign u.size v.size)
      rw [hlen, hval, hu.length, hv.length] at h
      simpa [hge] using h
    · obtain ⟨hlen, hnormal, hval⟩ := mul_limbs hw hv.normal hu.normal hvn hun
      have h := holds_of_limbs hnormal (sameSign u.size v.size)
      rw [hlen, hval, hu.length, hv.length, Nat.add_comm, Nat.mul_comm] at h
      simpa [hge] using h

/-! ### Division -/

/- The remainder of the absolute values, with the sign of `n` and moved into the range of `%`. -/
theorem emod_of_natAbs {n d : ℤ} {q r : ℕ} (hd : d ≠ 0) (hq : n.natAbs = q * d.natAbs + r)
    (hr : r < d.natAbs) :
    n % d = if n < 0 ∧ r ≠ 0 then -r + (d.natAbs : ℤ) else if n < 0 then -r else r := by
  have hq' : (n.natAbs : ℤ) = q * d.natAbs + r := by exact_mod_cast hq
  refine (Int.emod_eq_iff hd).mpr ?_
  by_cases hneg : n < 0
  · have hn : (n.natAbs : ℤ) = -n := Int.ofNat_natAbs_of_nonpos hneg.le
    by_cases h0 : r = 0
    · rw [if_neg (by simp [h0]), if_pos hneg]
      refine ⟨by omega, by omega, Int.natAbs_dvd.mp ⟨q, ?_⟩⟩
      linarith
    · rw [if_pos ⟨hneg, h0⟩]
      refine ⟨by omega, by omega, Int.natAbs_dvd.mp ⟨q + 1, ?_⟩⟩
      linarith
  · have hn : (n.natAbs : ℤ) = n := Int.natAbs_of_nonneg (not_lt.mp hneg)
    rw [if_neg fun h => hneg h.1, if_neg hneg]
    refine ⟨by omega, by omega, Int.natAbs_dvd.mp ⟨-q, ?_⟩⟩
    linarith

/-- `tr` is the remainder `r` of the absolute values of `x` and `y`, with the sign of `x`. -/
structure Truncated (x y : ℤ) (tr : Mpz w) (r : ℕ) : Prop where
  holds : tr.Holds (if x < 0 then -r else r)
  quotient : ∃ q, x.natAbs = q * y.natAbs + r
  lt : r < y.natAbs

section Truncated

variable (hw : LimbBits w) {n d tr : Mpz w} {x y : ℤ} {r : ℕ} (hn : n.Holds x) (hd : d.Holds y)

include hn hd in
/- Fewer limbs than the divisor has. -/
theorem truncated_short (hlt : n.size.natAbs < d.size.natAbs) : Truncated x y n x.natAbs := by
  constructor
  case holds =>
    have hx : (if x < 0 then -(x.natAbs : ℤ) else x.natAbs) = x := by
      split <;> omega
    rwa [hx]
  case quotient => exact ⟨0, by simp⟩
  case lt =>
    rw [hn.natAbs_eq, hd.natAbs_eq]
    refine hd.normal.value_lt_of_length ?_
    rwa [hn.length, hd.length]

include hw hn hd in
theorem truncated_long (hy : d.size ≠ 0) (hlen : d.size.natAbs ≤ n.size.natAbs) :
    ∃ qp np, mpnDivQr n.d d.d = some (qp, np) ∧
      Truncated x y { size := if n.size < 0 then -(mpnNormalizedSize np d.size.natAbs : ℤ)
                              else mpnNormalizedSize np d.size.natAbs,
                      d := np.take (mpnNormalizedSize np d.size.natAbs) } (value np) ∧
      (mpnNormalizedSize np d.size.natAbs = 0 ↔ value np = 0) := by
  obtain ⟨qp, np, hx, hnum, hrem, -, hrlen⟩ := hw.mpnDivQr_spec (hd.ne_nil hy) hd.normal
    (by rwa [hn.length, hd.length])
  obtain ⟨hle, hnormal, hval⟩ := mpnNormalizedSize_spec np d.size.natAbs
    (by rw [hrlen, hd.length])
  have hlength : (np.take (mpnNormalizedSize np d.size.natAbs)).length =
      mpnNormalizedSize np d.size.natAbs := by
    refine List.length_take_of_le (hle.trans ?_)
    rw [hrlen, hd.length]
  rw [← hd.length, ← hrlen, List.take_length, hrlen, hd.length] at hval
  refine ⟨qp, np, hx, ?_, ?_⟩
  · constructor
    case holds =>
      have h := holds_of_limbs hnormal (¬ n.size < 0)
      have hneg : n.size < 0 ↔ x < 0 := by
        rw [← not_le, hn.nonneg_iff, not_le]
      rw [hlength, hval] at h
      simpa only [ite_not, hneg] using h
    case quotient =>
      rw [hn.natAbs_eq, hd.natAbs_eq]
      exact ⟨value qp, hnum⟩
    case lt => rwa [hd.natAbs_eq]
  · rw [← hval, hnormal.value_eq_zero_iff, ← List.length_eq_zero_iff, hlength]

variable (ht : Truncated x y tr r) (hy : y ≠ 0)

include hw hd ht hy

/- With the rounding of `mpz_mod`, the divisor is added or subtracted when the remainder is
negative. -/
theorem Truncated.adjusted :
    ∃ z, (if x < 0 ∧ r ≠ 0 then (if y < 0 then mpzSub tr d else mpzAdd tr d) else some tr) =
      some z ∧ z.Holds (x % y) := by
  obtain ⟨q, hq⟩ := ht.quotient
  have hholds := ht.holds
  rw [emod_of_natAbs hy hq ht.lt]
  by_cases h : x < 0 ∧ r ≠ 0
  · rw [if_pos h, if_pos h]
    rw [if_pos h.1] at hholds
    by_cases hneg : y < 0
    · rw [if_pos hneg, Int.ofNat_natAbs_of_nonpos hneg.le]
      exact mpzSub_holds hw.pos hholds hd
    · rw [if_neg hneg, Int.natAbs_of_nonneg (not_lt.mp hneg)]
      exact mpzAdd_holds hw.pos hholds hd
  · rw [if_neg h, if_neg h]
    exact ⟨tr, rfl, hholds⟩

end Truncated

/-- `mpz_mod` is `%` of `ℤ`, for every divisor but 0. -/
theorem mpzMod_holds (hw : LimbBits w) {n d : Mpz w} {x y : ℤ} (hn : n.Holds x) (hd : d.Holds y)
    (hy : y ≠ 0) : ∃ r, mpzMod n d = some r ∧ r.Holds (x % y) := by
  have hds := mt hd.eq_zero_iff.mp hy
  have hmode : d.size ≥ 0 ↔ ¬ y < 0 := hd.nonneg_iff.trans not_lt.symm
  have hsign : sameSign d.size n.size ↔ (y < 0 ↔ x < 0) := by
    rw [hd.sameSign_iff hn, ← not_lt, ← not_lt, not_iff_not]
  by_cases hns : n.size = 0
  · have hx := hn.eq_zero_iff.mp hns
    refine ⟨{ size := 0, d := [] }, by simp [mpzMod, mpzDivR, hds, hns], ?_⟩
    simpa [hx] using holds_of_limbs (w := w) normal_nil True
  have hx : x.natAbs ≠ 0 := Int.natAbs_ne_zero.mpr (mt hn.eq_zero_iff.mpr hns)
  by_cases hlt : n.size.natAbs < d.size.natAbs
  · obtain ⟨z, hz, hholds⟩ := (truncated_short hn hd hlt).adjusted hw hd hy
    refine ⟨z, hz.symm ▸ ?_, hholds⟩
    by_cases hyneg : y < 0 <;> by_cases hneg : x < 0 <;>
      simp [mpzMod, mpzDivR, hds, hns, hlt, hmode, hsign, hyneg, hneg, hx]
  · obtain ⟨qp, np, hdiv, ht, hzero⟩ := truncated_long hw hn hd hds (not_lt.mp hlt)
    obtain ⟨z, hz, hholds⟩ := ht.adjusted hw hd hy
    refine ⟨z, hz.symm ▸ ?_, hholds⟩
    by_cases hyneg : y < 0 <;> by_cases hneg : x < 0 <;>
      simp [mpzMod, mpzDivR, hds, hns, hlt, hdiv, hmode, hsign, hyneg, hneg, hzero]

/-! ### Comparison -/

/- The sizes decide first. -/
theorem Mpz.Holds.lt_of_size_lt {a b : Mpz w} {m n : ℤ} (ha : a.Holds m) (hb : b.Holds n)
    (h : a.size < b.size) : m < n := by
  have hm := ha.nonneg_iff
  have hn := hb.nonneg_iff
  have hma := ha.natAbs_eq
  have hnb := hb.natAbs_eq
  by_cases hpos : 0 ≤ a.size
  · have hlt := hb.normal.value_lt_of_length (l := a.d) (by rw [ha.length, hb.length]; omega)
    omega
  · by_cases hneg : 0 ≤ b.size
    · omega
    · have hlt := ha.normal.value_lt_of_length (l := b.d) (by rw [ha.length, hb.length]; omega)
      omega

/-- `mpz_cmp` compares. -/
theorem mpzCmp_holds {a b : Mpz w} {m n : ℤ} (ha : a.Holds m) (hb : b.Holds n) :
    mpzCmp a b = (m - n).sign := by
  have hm := ha.nonneg_iff
  have hn := hb.nonneg_iff
  have hma := ha.natAbs_eq
  have hnb := hb.natAbs_eq
  unfold mpzCmp
  rcases lt_trichotomy a.size b.size with hlt | heq | hgt
  · have h := ha.lt_of_size_lt hb hlt
    rw [if_pos hlt.ne, if_pos hlt, Int.sign_eq_neg_one_of_neg (by omega)]
  · have hlen : a.d.length = b.d.length := by rw [ha.length, hb.length, heq]
    rw [if_neg (not_not.mpr heq)]
    by_cases hpos : a.size ≥ 0
    · rw [if_pos hpos, mpnCmp_eq _ _ hlen]
      congr 1
      omega
    · rw [if_neg hpos, mpnCmp_eq _ _ hlen.symm]
      congr 1
      omega
  · have h := hb.lt_of_size_lt ha hgt
    rw [if_pos hgt.ne', if_neg (not_lt.mpr hgt.le), Int.sign_eq_one_of_pos (by omega)]

end Pobc.MiniGmp
