import Pobc.MiniGmp.Mpz
import Pobc.Lib.Loop

/-!
# Byte strings of mini-gmp (`mimc-gmp/mini-gmp.c:4402-4573`)

`mpz_import` and `mpz_export` as `gmp_utils.c` calls them: words of one byte, the least significant
first, in which the order of the bytes of a word does not matter. A byte string is a number in
limbs of 8 bits.

The assertions on `order`, `endian` and `size` hold for these calls, and `k == count` where a
counted loop ends. The others are modelled: a failed one is `none`.
-/

namespace Pobc.MiniGmp
open Pobc.Limbs Pobc.Loop

variable {w : ℕ}

/-! ### Import -/

/-- A byte of `mpz_import`: the partial limb, the number of bytes in it, and the limbs written. -/
def importStep (s : BitVec w × ℕ × List (BitVec w)) (p : BitVec 8) :
    BitVec w × ℕ × List (BitVec w) :=
  let (limb, bytes, rp) := s
  let limb := limb ||| (p.setWidth w <<< (bytes * 8))
  let bytes := bytes + 1
  if bytes = w / 8 then (0, 0, rp ++ [limb]) else (limb, bytes, rp)

/-- `mpz_import`. -/
def mpzImport (src : List (BitVec 8)) : Option (Mpz w) :=
  let rn := (src.length + w / 8 - 1) / (w / 8)
  let (limb, bytes, rp) := src.foldl importStep (0, 0, [])
  if rp.length + (if bytes > 0 then 1 else 0) = rn then
    if limb ≠ 0 then some { size := rp.length + 1, d := rp ++ [limb] }
    else
      let i := mpnNormalizedSize rp rp.length
      some { size := i, d := rp.take i }
  else none

/-- What the loop of `mpz_import` has read. -/
structure Imported (src : List (BitVec 8)) (s : BitVec w × ℕ × List (BitVec w)) : Prop where
  bytes_lt : s.2.1 < w / 8
  limb_lt : s.1.toNat < 2 ^ (8 * s.2.1)
  length : src.length = w / 8 * s.2.2.length + s.2.1
  value : value s.2.2 + base w ^ s.2.2.length * s.1.toNat = value src

section Import

variable (hw : LimbBits w)

include hw

theorem LimbBits.eq_bytes : w = 8 * (w / 8) := (Nat.mul_div_cancel' hw.bytes).symm

theorem LimbBits.bytes_pos : 0 < w / 8 := by
  have h := hw.eq_bytes
  have hpos := hw.pos
  omega

theorem LimbBits.base_eq_bytes : base w = base 8 ^ (w / 8) := by
  have h : base 8 ^ (w / 8) = 2 ^ (8 * (w / 8)) := (Nat.pow_mul 2 8 (w / 8)).symm
  rw [h, ← hw.eq_bytes]
  rfl

theorem Imported.step {src : List (BitVec 8)} {s : BitVec w × ℕ × List (BitVec w)}
    (h : Imported src s) (p : BitVec 8) : Imported (src ++ [p]) (importStep s p) := by
  obtain ⟨limb, bytes, rp⟩ := s
  obtain ⟨hbytes, hlimb, hlen, hval⟩ := h
  simp only at hbytes hlimb hlen hval
  have heq := hw.eq_bytes
  have hk : bytes * 8 ≤ w := by omega
  have hp := toNat_lt_base p
  have hfits : p.toNat < 2 ^ (w - bytes * 8) :=
    hp.trans_le (Nat.pow_le_pow_right (by decide) (by omega))
  have hshift : (p.setWidth w <<< (bytes * 8)).toNat = 2 ^ (bytes * 8) * p.toNat := by
    have hwidth : (p.setWidth w).toNat = p.toNat := BitVec.toNat_setWidth_of_le (by omega)
    rw [toNat_shiftLeft hk, hwidth, Nat.mod_eq_of_lt hfits]
  have hor : (limb ||| (p.setWidth w <<< (bytes * 8))).toNat =
      limb.toNat + 2 ^ (8 * bytes) * p.toNat := by
    rw [BitVec.or_comm, toNat_shiftLeft_or hk _ (by rwa [Nat.mul_comm bytes]), hshift,
      Nat.add_comm, Nat.mul_comm bytes]
  have hsum : Limbs.value rp + base w ^ rp.length * (limb.toNat + 2 ^ (8 * bytes) * p.toNat) =
      Limbs.value (src ++ [p]) := by
    have hpow : base 8 ^ src.length = base w ^ rp.length * 2 ^ (8 * bytes) := by
      rw [hlen, Nat.pow_add, Nat.pow_mul, ← hw.base_eq_bytes, Nat.pow_mul]
      rfl
    rw [value_concat, ← hval, hpow]
    ring
  have hlt : limb.toNat + 2 ^ (8 * bytes) * p.toNat < 2 ^ (8 * (bytes + 1)) := by
    have hmul := Nat.mul_le_mul_left (2 ^ (8 * bytes)) (Nat.succ_le_of_lt hp)
    have hpow : 2 ^ (8 * (bytes + 1)) = 2 ^ (8 * bytes) * base 8 := Nat.pow_add 2 _ 8
    rw [Nat.mul_succ] at hmul
    omega
  simp only [importStep]
  by_cases hfull : bytes + 1 = w / 8
  · rw [if_pos hfull]
    constructor
    case bytes_lt => exact hw.bytes_pos
    case limb_lt => simp
    case length =>
      simp only [List.length_append, List.length_singleton, Nat.mul_succ]
      omega
    case value =>
      rw [value_concat, hor, hsum]
      simp
  · rw [if_neg hfull]
    constructor
    case bytes_lt => simp only; omega
    case limb_lt => rwa [hor]
    case length =>
      simp only [List.length_append, List.length_singleton]
      omega
    case value => rw [hor, hsum]

theorem imported_foldl (src : List (BitVec 8)) :
    Imported src (src.foldl (importStep (w := w)) (0, 0, [])) := by
  induction src using List.reverseRecOn with
  | nil =>
    constructor
    case bytes_lt => exact hw.bytes_pos
    case limb_lt => simp
    case length => rfl
    case value => simp
  | append_singleton src p ih =>
    rw [List.foldl_concat]
    exact ih.step hw p

/-- `mpz_import` reads the number of the bytes. -/
theorem mpzImport_holds (src : List (BitVec 8)) :
    ∃ r : Mpz w, mpzImport src = some r ∧ r.Holds (value src) := by
  obtain ⟨hbytes, hlimb, hlen, hval⟩ := imported_foldl hw src
  obtain ⟨s, hs⟩ : ∃ s, s = src.foldl (importStep (w := w)) (0, 0, []) := ⟨_, rfl⟩
  rw [← hs] at hbytes hlimb hlen hval
  have hcount : s.2.2.length + (if s.2.1 > 0 then 1 else 0) =
      (src.length + w / 8 - 1) / (w / 8) := by
    symm
    by_cases hpos : s.2.1 > 0
    · rw [if_pos hpos, hlen]
      refine Nat.div_eq_of_lt_le ?_ ?_
      · rw [Nat.add_mul, Nat.mul_comm]
        omega
      · rw [Nat.add_mul, Nat.add_mul, Nat.mul_comm]
        omega
    · rw [if_neg hpos, hlen]
      refine Nat.div_eq_of_lt_le ?_ ?_
      · rw [Nat.add_zero, Nat.mul_comm]
        omega
      · rw [Nat.add_zero, Nat.add_mul, Nat.mul_comm]
        omega
  simp only [mpzImport]
  rw [← hs, if_pos hcount]
  by_cases hzero : s.1 = 0
  · obtain ⟨hle, hnormal, hsame⟩ := mpnNormalizedSize_spec s.2.2 s.2.2.length le_rfl
    have hlength : (s.2.2.take (mpnNormalizedSize s.2.2 s.2.2.length)).length =
        mpnNormalizedSize s.2.2 s.2.2.length := List.length_take_of_le hle
    have h := holds_of_limbs hnormal True
    rw [hzero] at hval
    rw [hlength, hsame, List.take_length] at h
    refine ⟨_, by rw [if_neg (not_not.mpr hzero)], ?_⟩
    simpa [← hval] using h
  · have hnormal : Normal (s.2.2 ++ [s.1]) := (normal_concat _ _).mpr hzero
    have h := holds_of_limbs hnormal True
    rw [value_concat, hval] at h
    refine ⟨_, by rw [if_pos hzero], ?_⟩
    simpa using h

end Import

/-! ### Export -/

/-- The bytes of the highest limb: `do { k++; limb >>= 8; } while (limb != 0);`. -/
def topBytes (limb : BitVec w) : ℕ :=
  if w ≤ 8 then 1
  else
    let body := fun (limb, k) => (limb >>> 8, k + 1)
    (whileLoop (w / 8) (fun (limb, _) => limb != 0) body (body (limb, 0))).2

/-- `if (bytes == 0)`: the next limb, if there is one. -/
def exportLoad (d : List (BitVec w)) (s : BitVec w × ℕ × ℕ) : BitVec w × ℕ × ℕ :=
  let (limb, bytes, i) := s
  if bytes = 0 then
    if i < d.length then (d.getD i 0, w / 8, i + 1) else (limb, w / 8, i)
  else (limb, bytes, i)

/-- A byte of `mpz_export`. The state is the partial limb, the number of bytes left in it, and the
index of the next limb. -/
def exportStep (d : List (BitVec w)) (s : BitVec w × ℕ × ℕ) : BitVec 8 × BitVec w × ℕ × ℕ :=
  if w / 8 = 1 then
    let (limb, bytes, i) := s
    if i < d.length then ((d.getD i 0).setWidth 8, limb, bytes, i + 1) else (0, limb, bytes, i)
  else
    let (limb, bytes, i) := exportLoad d s
    (limb.setWidth 8, limb >>> 8, bytes - 1, i)

def exportLoop (d : List (BitVec w)) : ℕ → BitVec w × ℕ × ℕ → List (BitVec 8) × BitVec w × ℕ × ℕ
  | 0, s => ([], s)
  | count + 1, s =>
    let (p, s) := exportStep d s
    let (ps, s) := exportLoop d count s
    (p :: ps, s)

/-- `mpz_export`: the `count` bytes that it writes. -/
def mpzExport (u : Mpz w) : Option (List (BitVec 8)) :=
  if u.size = 0 then some []
  else
    let un := u.size.natAbs
    let limb := u.d.getD (un - 1) 0
    if limb ≠ 0 then
      -- the loop that counts the bytes of the limb leaves 0 in it
      let (p, _, _, i) := exportLoop u.d (topBytes limb + (un - 1) * (w / 8)) (0, 0, 0)
      if i = un then some p else none
    else none

theorem topBytes_spec (hw : LimbBits w) {limb : BitVec w} (hlimb : limb ≠ 0) :
    0 < topBytes limb ∧ base 8 ^ (topBytes limb - 1) ≤ limb.toNat ∧
      limb.toNat < base 8 ^ topBytes limb := by
  have hpos : 0 < limb.toNat := Nat.pos_of_ne_zero fun h => hlimb (BitVec.eq_of_toNat_eq h)
  have hlt := toNat_lt_base limb
  have hbase := hw.base_eq_bytes
  unfold topBytes
  by_cases hone : w ≤ 8
  · have hbytes : w / 8 = 1 := by
      have h := hw.bytes_pos
      omega
    rw [hbase, hbytes] at hlt
    simp only [if_pos hone]
    exact ⟨Nat.one_pos, hpos, hlt⟩
  · have hstep (s : BitVec w × ℕ)
        (hs : s.1.toNat = limb.toNat / base 8 ^ s.2 ∧ 0 < s.2 ∧ base 8 ^ (s.2 - 1) ≤ limb.toNat)
        (hc : (s.1 != 0) = true) :
        ((s.1 >>> 8).toNat = limb.toNat / base 8 ^ (s.2 + 1) ∧ 0 < s.2 + 1 ∧
          base 8 ^ (s.2 + 1 - 1) ≤ limb.toNat) ∧ w / 8 - (s.2 + 1) < w / 8 - s.2 := by
      obtain ⟨hx, -, -⟩ := hs
      have hne : s.1.toNat ≠ 0 := fun h => by
        have hzero : s.1 = 0 := BitVec.eq_of_toNat_eq h
        simp [hzero] at hc
      have hle : base 8 ^ s.2 ≤ limb.toNat := by
        by_contra hgt
        exact hne (by rw [hx, Nat.div_eq_of_lt (not_le.mp hgt)])
      have hcount : s.2 < w / 8 := by
        refine (Nat.pow_lt_pow_iff_right (one_lt_base (by decide : 0 < 8))).mp (hle.trans_lt ?_)
        rwa [← hbase]
      refine ⟨⟨?_, Nat.succ_pos _, hle⟩, by omega⟩
      rw [BitVec.toNat_ushiftRight, Nat.shiftRight_eq_div_pow, hx, Nat.pow_succ,
        Nat.div_div_eq_div_mul]
      rfl
    have hstart : (limb >>> 8).toNat = limb.toNat / base 8 ^ 1 := by
      rw [BitVec.toNat_ushiftRight, Nat.shiftRight_eq_div_pow, Nat.pow_one]
      rfl
    obtain ⟨⟨hx, hk, hle⟩, hexit⟩ := whileLoop_inv
      (fun s : BitVec w × ℕ =>
        s.1.toNat = limb.toNat / base 8 ^ s.2 ∧ 0 < s.2 ∧ base 8 ^ (s.2 - 1) ≤ limb.toNat)
      (fun s => w / 8 - s.2) (fun s => s.1 != 0) (fun s => (s.1 >>> 8, s.2 + 1)) hstep (w / 8)
      (limb >>> 8, 1) ⟨hstart, Nat.one_pos, hpos⟩ (Nat.sub_le _ _)
    simp only [if_neg hone]
    refine ⟨hk, hle, ?_⟩
    have hzero := congrArg BitVec.toNat (bne_eq_false_iff_eq.mp hexit)
    exact (Nat.div_eq_zero_iff_lt (pow_base_pos 8 _)).mp
      (hx.symm.trans (hzero.trans BitVec.toNat_zero))

/-- What is left to write. -/
def remaining (d : List (BitVec w)) (s : BitVec w × ℕ × ℕ) : ℕ :=
  s.1.toNat + 2 ^ (8 * s.2.1) * value (d.drop s.2.2)

theorem value_drop (d : List (BitVec w)) (i : ℕ) (hi : i < d.length) :
    value (d.drop i) = (d.getD i 0).toNat + base w * value (d.drop (i + 1)) := by
  rw [List.drop_eq_getElem_cons hi, value_cons, List.getD_eq_getElem _ _ hi]

structure Exporting (d : List (BitVec w)) (s : BitVec w × ℕ × ℕ) : Prop where
  limb_lt : s.1.toNat < 2 ^ (8 * s.2.1)
  index_le : s.2.2 ≤ d.length
  one_byte : w / 8 = 1 → s.2.1 = 0

section Export

variable (hw : LimbBits w) {d : List (BitVec w)}

include hw

theorem exportLoad_spec (hmany : w / 8 ≠ 1) {s : BitVec w × ℕ × ℕ} (h : Exporting d s) :
    Exporting d (exportLoad d s) ∧ 0 < (exportLoad d s).2.1 ∧
      remaining d (exportLoad d s) = remaining d s := by
  obtain ⟨limb, bytes, i⟩ := s
  obtain ⟨hlimb, hi, hone⟩ := h
  simp only at hlimb hi
  have hpow : base w = 2 ^ (8 * (w / 8)) := by
    rw [← hw.eq_bytes]
    rfl
  unfold exportLoad
  by_cases hzero : bytes = 0
  · subst hzero
    have hlimb0 : limb.toNat = 0 := by simpa using hlimb
    by_cases hlt : i < d.length
    · simp only [if_true, if_pos hlt]
      refine ⟨⟨?_, hlt, fun h => absurd h hmany⟩, hw.bytes_pos, ?_⟩
      · rw [← hpow]
        exact toNat_lt_base _
      · simp only [remaining]
        rw [value_drop d i hlt, hpow, hlimb0]
        simp
    · have hend : i = d.length := by omega
      simp only [if_true, if_neg hlt]
      refine ⟨⟨?_, hi, fun h => absurd h hmany⟩, hw.bytes_pos, ?_⟩
      · simp only [hlimb0]
        exact Nat.two_pow_pos _
      · simp [remaining, hlimb0, hend]
  · simp only [if_neg hzero]
    exact ⟨⟨hlimb, hi, hone⟩, Nat.pos_of_ne_zero hzero, trivial⟩

theorem exportStep_spec {s : BitVec w × ℕ × ℕ} (h : Exporting d s) :
    Exporting d (exportStep d s).2 ∧
      (exportStep d s).1.toNat + base 8 * remaining d (exportStep d s).2 = remaining d s := by
  unfold exportStep
  by_cases hone : w / 8 = 1
  · -- limbs of one byte are written as they are
    obtain ⟨limb, bytes, i⟩ := s
    have hbytes : bytes = 0 := h.one_byte hone
    subst hbytes
    have hlimb0 : limb.toNat = 0 := by simpa using h.limb_lt
    have hw8 : w = 8 := by
      have heq := hw.eq_bytes
      omega
    subst hw8
    by_cases hlt : i < d.length
    · simp only [if_pos hlt]
      refine ⟨⟨h.limb_lt, hlt, h.one_byte⟩, ?_⟩
      simp only [remaining, value_drop d i hlt]
      simp [hlimb0]
    · have hend : i = d.length := le_antisymm h.index_le (not_lt.mp hlt)
      simp only [if_neg hlt]
      refine ⟨h, ?_⟩
      simp [remaining, hlimb0, hend]
  · obtain ⟨hload, hpos, hsame⟩ := exportLoad_spec hw hone h
    obtain ⟨s', hs'⟩ : ∃ s', s' = exportLoad d s := ⟨_, rfl⟩
    rw [← hs'] at hload hpos hsame
    obtain ⟨limb, bytes, i⟩ := s'
    obtain ⟨k, hk⟩ : ∃ k, bytes = k + 1 := ⟨bytes - 1, by simp only at hpos; omega⟩
    subst hk
    have hlimb := hload.limb_lt
    have hpow : 2 ^ (8 * (k + 1)) = base 8 * 2 ^ (8 * k) := by
      rw [Nat.mul_succ, Nat.pow_add, Nat.mul_comm]
      rfl
    have hlow : (limb.setWidth 8).toNat = limb.toNat % base 8 := BitVec.toNat_setWidth ..
    have hhigh : (limb >>> 8).toNat = limb.toNat / base 8 := by
      rw [BitVec.toNat_ushiftRight, Nat.shiftRight_eq_div_pow]
      rfl
    simp only [if_neg hone, ← hs', Nat.add_sub_cancel]
    refine ⟨⟨?_, hload.index_le, fun h => absurd h hone⟩, ?_⟩
    · simp only [hhigh]
      rw [hpow] at hlimb
      exact Nat.div_lt_of_lt_mul hlimb
    · have hdiv := Nat.mod_add_div limb.toNat (base 8)
      rw [← hsame]
      simp only [remaining, hhigh, hlow, hpow]
      rw [Nat.mul_add, ← Nat.add_assoc, hdiv]
      ring

theorem exportLoop_spec (count : ℕ) {s : BitVec w × ℕ × ℕ} (h : Exporting d s) :
    Exporting d (exportLoop d count s).2 ∧ (exportLoop d count s).1.length = count ∧
      value (exportLoop d count s).1 + base 8 ^ count * remaining d (exportLoop d count s).2 =
        remaining d s := by
  induction count generalizing s with
  | zero => exact ⟨h, rfl, by simp [exportLoop]⟩
  | succ count ih =>
    obtain ⟨hstep, hval⟩ := exportStep_spec hw h
    obtain ⟨hloop, hlen, hrest⟩ := ih hstep
    refine ⟨hloop, by simp [exportLoop, hlen], ?_⟩
    simp only [exportLoop, value_cons, Nat.pow_succ]
    rw [← hval, ← hrest]
    ring

/- As many bytes as the number has digits. -/
theorem export_count (hd : d ≠ []) (hnormal : Normal d) :
    let count := topBytes (d.getD (d.length - 1) 0) + (d.length - 1) * (w / 8)
    base 8 ^ (count - 1) ≤ value d ∧ value d < base 8 ^ count := by
  intro count
  have hlen := List.length_pos_of_ne_nil hd
  have htop := value_top d hlen
  have hlow := value_lt (d.take (d.length - 1))
  rw [List.length_take_of_le (Nat.sub_le _ _)] at hlow
  obtain ⟨hk, hkle, hklt⟩ := topBytes_spec hw (hnormal.high_ne_zero hd)
  have hpow : base w ^ (d.length - 1) = base 8 ^ ((d.length - 1) * (w / 8)) := by
    rw [hw.base_eq_bytes, ← Nat.pow_mul, Nat.mul_comm]
  constructor
  · have hmul := Nat.mul_le_mul_left (base w ^ (d.length - 1)) hkle
    have hsub : count - 1 =
        topBytes (d.getD (d.length - 1) 0) - 1 + (d.length - 1) * (w / 8) := by omega
    rw [hsub, Nat.pow_add, Nat.mul_comm, ← hpow]
    omega
  · have hmul := Nat.mul_le_mul_left (base w ^ (d.length - 1)) (Nat.succ_le_of_lt hklt)
    simp only [count]
    rw [Nat.pow_add, Nat.mul_comm, ← hpow]
    rw [Nat.mul_succ] at hmul
    omega

/- Enough bytes hold the whole number, and every limb is read. -/
theorem exportLoop_all (hnormal : Normal d) {count : ℕ} (hlt : value d < base 8 ^ count) :
    let x := exportLoop d count (0, 0, 0)
    value x.1 = value d ∧ x.1.length = count ∧ x.2.2.2 = d.length := by
  intro x
  have hstart : Exporting d ((0, 0, 0) : BitVec w × ℕ × ℕ) := ⟨by simp, Nat.zero_le _, by simp⟩
  obtain ⟨hend, hlen, hval⟩ : Exporting d x.2 ∧ x.1.length = count ∧
      value x.1 + base 8 ^ count * remaining d x.2 = remaining d (0, 0, 0) :=
    exportLoop_spec hw count hstart
  have hall : remaining d ((0, 0, 0) : BitVec w × ℕ × ℕ) = value d := by simp [remaining]
  rw [hall] at hval
  have hrest : remaining d x.2 = 0 := by
    by_contra hrest
    have hmul := Nat.mul_le_mul_left (base 8 ^ count) (Nat.one_le_iff_ne_zero.mpr hrest)
    omega
  refine ⟨?_, hlen, ?_⟩
  · rwa [hrest, Nat.mul_zero, Nat.add_zero] at hval
  · by_contra hi
    have hilt : x.2.2.2 < d.length := lt_of_le_of_ne hend.index_le hi
    have hdrop : Normal (d.drop x.2.2.2) := by
      rw [Limbs.Normal, List.getLast?_drop, if_neg (not_le.mpr hilt)]
      exact hnormal
    have hpos := hdrop.value_pos (List.ne_nil_of_length_pos (by rw [List.length_drop]; omega))
    have hmul := Nat.mul_pos (Nat.two_pow_pos (8 * x.2.2.1)) hpos
    simp only [remaining] at hrest
    omega

/-- `mpz_export` writes the digits to the base 256. -/
theorem mpzExport_digits {u : Mpz w} {n : ℤ} (hu : u.Holds n) :
    ∃ p, mpzExport u = some p ∧ p.map BitVec.toNat = Nat.digits 256 n.natAbs := by
  unfold mpzExport
  by_cases hsize : u.size = 0
  · have hn := hu.eq_zero_iff.mp hsize
    exact ⟨[], by rw [if_pos hsize], by simp [hn]⟩
  rw [if_neg hsize, hu.natAbs_eq]
  have hne := hu.ne_nil hsize
  have ht := hu.normal.high_ne_zero hne
  obtain ⟨hle, hlt⟩ := export_count hw hne hu.normal
  obtain ⟨hval, hlen, hindex⟩ := exportLoop_all hw hu.normal hlt
  rw [hu.length] at ht hle hval hlen hindex
  obtain ⟨x, hx⟩ : ∃ x, x = exportLoop u.d (topBytes (u.d.getD (u.size.natAbs - 1) 0) +
    (u.size.natAbs - 1) * (w / 8)) (0, 0, 0) := ⟨_, rfl⟩
  rw [← hx] at hval hlen hindex
  have hnormal : Normal x.1 := by
    refine normal_of_le ?_
    rw [hlen, hval]
    exact hle
  refine ⟨x.1, ?_, ?_⟩
  · simp only [if_pos ht, ← hx, hindex, if_true]
  · rw [← hval]
    exact hnormal.map_toNat_eq_digits (by decide)

end Export

/-- `mpz_import` reads back what `mpz_export` has written, limb by limb. -/
theorem mpzImport_mpzExport (hw : LimbBits w) (u : Mpz w) (n : ℕ) (hu : u.Holds n) :
    ∃ p, mpzExport u = some p ∧ mpzImport p = some u := by
  obtain ⟨p, hp, hdigits⟩ := mpzExport_digits hw hu
  obtain ⟨r, hr, hholds⟩ := mpzImport_holds hw p
  have hval : value p = n := by
    have h : Nat.ofDigits (base 8) (Nat.digits 256 n) = n := Nat.ofDigits_digits 256 n
    rwa [← Int.natAbs_natCast n, ← hdigits] at h
  rw [hval] at hholds
  exact ⟨p, hp, hr.trans (congrArg some (hholds.unique hu))⟩

theorem mpzImport_mpzExport_ten :
    ∃ p, mpzExport (Mpz.ofInt 32 (10 ^ 10 : ℕ)) = some p ∧
      mpzImport p = some (Mpz.ofInt 32 (10 ^ 10 : ℕ)) :=
  mpzImport_mpzExport ⟨by decide, by decide⟩ _ (10 ^ 10) (ofInt_holds (by decide) _)

end Pobc.MiniGmp
