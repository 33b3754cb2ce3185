import Pobc.Iot.Pmac
import Pobc.Gcm
import Pobc.Lib.GfPeriod
import Mathlib.Tactic.NormNum.Prime

/-!
# The masks of PMAC (`aes-modes/aes_modes.c`)

`gf128_double` multiplies by `y` in `GF(2)[y] / (y^128 + y^7 + y^2 + y + 1)`, a block
being the big-endian word of its coefficients. The period of a nonzero block is a
multiple of four of the primes in `2^128 - 1`, which are enough to exceed every number
of blocks.
-/

namespace Pobc.Iot
open Pobc.Loop Function
open Pobc.Mode (xorSum)
open Pobc.Gcm (bitString getLsbD_bitString blockOf_bitString)

/-! ### Doubling -/

abbrev MaskField := Gf 128 0x87#128

/-- A block as a polynomial, with byte 0 on top. -/
def maskField (L : Block) : MaskField := ⟨bitString L⟩

theorem maskField_injective : Injective maskField := by
  intro L L' h
  have hbits : bitString L = bitString L' := congrArg Gf.bits h
  rw [← blockOf_bitString L, hbits, blockOf_bitString]

theorem maskField_zeroBlock : maskField zeroBlock = 0 := by decide +kernel

/- A loop from the last cell to the first that hands `msb` of each cell to the next one. -/
theorem byteAt_carryLoop {α : Type} (L start : Fin 16 → α) (carry₀ : α) (f : α → α → α)
    (msb : α → α) :
    let s := forRange 16 (fun n (s : (Fin 16 → α) × α) =>
      (setByte s.1 (15 - n) (f (byteAt L (15 - n)) s.2), msb (byteAt L (15 - n)))) (start, carry₀)
    s.2 = msb (byteAt L 0) ∧ ∀ i < 16, byteAt s.1 i =
      f (byteAt L i) (if i < 15 then msb (byteAt L (i + 1)) else carry₀) := by
  let carry (n : ℕ) : α := if n = 0 then carry₀ else msb (byteAt L (16 - n))
  have hrun := forRange_inv
    (fun n (s : (Fin 16 → α) × α) => s.2 = carry n ∧
      ∀ i < 16, 16 - n ≤ i → byteAt s.1 i = f (byteAt L i) (carry (15 - i)))
    16 (fun n s => (setByte s.1 (15 - n) (f (byteAt L (15 - n)) s.2), msb (byteAt L (15 - n))))
    (start, carry₀) ⟨rfl, fun i hi hge => by omega⟩ fun n hn s hs => by
      obtain ⟨hcarry, hbytes⟩ := hs
      refine ⟨?_, fun i hi hge => ?_⟩
      · have hpos : 15 - n = 16 - (n + 1) := by omega
        simp only [carry, if_neg (Nat.succ_ne_zero n), hpos]
      · by_cases hnew : i = 15 - n
        · have hround : 15 - (15 - n) = n := by omega
          rw [hnew, hround, ← hcarry]
          exact byteAt_setByte_self s.1 (15 - n) _ (by omega)
        · rw [← hbytes i hi (by omega)]
          exact byteAt_setByte_of_ne s.1 (15 - n) i _ hi hnew
  refine ⟨hrun.1, fun i hi => ?_⟩
  rw [hrun.2 i hi (by omega)]
  by_cases h15 : i < 15
  · have hnext : 16 - (15 - i) = i + 1 := by omega
    have hpos : ¬ 15 - i = 0 := by omega
    simp only [carry, if_neg hpos, hnext, if_pos h15]
  · have hlast : 15 - i = 0 := by omega
    simp only [carry, if_pos hlast, if_neg h15]

theorem byteAt_gf128Double (L : Block) (i : ℕ) (hi : i < 16) : byteAt (gf128Double L) i =
    if i < 15 then byteAt L i <<< 1 ||| byteAt L (i + 1) >>> 7
    else byteAt L 15 <<< 1 ^^^ (0x87 : Byte) * (byteAt L 0 >>> 7) := by
  obtain ⟨hcarry, hbytes⟩ :=
    byteAt_carryLoop L zeroBlock 0 (fun b carry => (b <<< 1) ||| carry) fun b => b >>> 7
  rw [gf128Double]
  by_cases h15 : i < 15
  · rw [if_pos h15, byteAt_setByte_of_ne _ _ _ _ hi (Nat.ne_of_lt h15), hbytes i hi, if_pos h15]
  · have hlast : i = 15 := by omega
    have hzero : byteAt L 15 <<< 1 ||| (0 : Byte) = byteAt L 15 <<< 1 := BitVec.or_zero
    rw [if_neg h15, hlast, byteAt_setByte_self _ _ _ (by omega), hbytes 15 (by omega), hcarry,
      if_neg (Nat.lt_irrefl 15), hzero]

/- What is added to byte 15 is the modulus, when the top bit falls off. -/
theorem getLsbD_reduction (b : Byte) (k : ℕ) (hk : k < 8) :
    ((0x87 : Byte) * (b >>> 7)).getLsbD k = (b.getLsbD 7 && (0x87#128).getLsbD k) := by
  have htable : ∀ b : Byte, ∀ k < 8,
      ((0x87 : Byte) * (b >>> 7)).getLsbD k = (b.getLsbD 7 && (0x87#128).getLsbD k) := by
    decide +kernel
  exact htable b k hk

theorem maskField_gf128Double (L : Block) :
    maskField (gf128Double L) = Gf.mulY (maskField L) := by
  have hmsb : (bitString L).msb = (byteAt L 0).getLsbD 7 := by
    rw [BitVec.msb_eq_getLsbD_last]
    exact getLsbD_bitString L 127 (by omega)
  apply Gf.ext
  apply BitVec.eq_of_getLsbD_eq
  intro i hi
  have hbyte := byteAt_gf128Double L (15 - i / 8) (by omega)
  have hshift : (Gf.mulY (maskField L)).bits.getLsbD i =
      ((!decide (i < 1) && (bitString L).getLsbD (i - 1)) ^^
        ((byteAt L 0).getLsbD 7 && (0x87#128).getLsbD i)) := by
    simp only [Gf.mulY, maskField, BitVec.getLsbD_xor, BitVec.getLsbD_shiftLeft, hi, decide_true,
      Bool.true_and, hmsb]
    cases (byteAt L 0).getLsbD 7 <;> simp
  have hmod : i % 8 < 8 := Nat.mod_lt i (by omega)
  rw [hshift, maskField, getLsbD_bitString _ _ hi, hbyte]
  by_cases hlow : i < 8
  · have hpos : 15 - i / 8 = 15 := by omega
    have hk : i % 8 = i := Nat.mod_eq_of_lt hlow
    rw [hpos, if_neg (by omega), BitVec.getLsbD_xor, hk, getLsbD_reduction _ i hlow,
      BitVec.getLsbD_shiftLeft, getLsbD_bitString _ _ (by omega)]
    have hdiv : 15 - (i - 1) / 8 = 15 := by omega
    have hmod' : (i - 1) % 8 = i - 1 := by omega
    rw [hdiv, hmod', decide_eq_true hlow, Bool.true_and]
  · have hlt : 15 - i / 8 < 15 := by omega
    have hred : (0x87#128).getLsbD i = false := by
      have htable : ∀ i < 128, ¬ i < 8 → (0x87#128).getLsbD i = false := by decide
      exact htable i hi hlow
    have hone : decide (i < 1) = false := decide_eq_false (by omega)
    rw [if_pos hlt, hred, Bool.and_false, Bool.xor_false, hone, Bool.not_false, Bool.true_and,
      BitVec.getLsbD_or, BitVec.getLsbD_shiftLeft, BitVec.getLsbD_ushiftRight,
      getLsbD_bitString _ _ (by omega), decide_eq_true hmod, Bool.true_and]
    by_cases hzero : i % 8 = 0
    · -- the carry out of the byte behind
      have hdiv : 15 - (i - 1) / 8 = 15 - i / 8 + 1 := by omega
      have hmod' : (i - 1) % 8 = 7 := by omega
      rw [hdiv, hmod', hzero]
      rfl
    · have hdiv : 15 - (i - 1) / 8 = 15 - i / 8 := by omega
      have hmod' : (i - 1) % 8 = i % 8 - 1 := by omega
      have hin : decide (i % 8 < 1) = false := decide_eq_false (by omega)
      have hout : (byteAt L (15 - i / 8 + 1)).getLsbD (7 + i % 8) = false :=
        BitVec.getLsbD_of_ge _ _ (by omega)
      rw [hdiv, hmod', hin, hout, Bool.not_false, Bool.true_and, Bool.or_false]

theorem maskField_iterate (L : Block) (k : ℕ) :
    maskField (gf128Double^[k] L) = Gf.mulY^[k] (maskField L) := by
  induction k with
  | zero => rfl
  | succ k ih => rw [iterate_succ_apply', maskField_gf128Double, ih, iterate_succ_apply']

/-! ### The period -/

theorem y_round : Gf.power 128 0x87#128 1 ^ (2^128 - 1) = 1 := by
  have hround : Gf.powNat 128 0x87 128 (2^128 - 1) = 1 := by decide +kernel
  apply Gf.ext
  apply BitVec.eq_of_toNat_eq
  rw [Gf.toNat_pow (by decide) 128 _ (by decide)]
  exact hround

/-- Primes in `2^128 - 1`, each with an inverse of `y^((2^128 - 1) / q) + 1`. -/
def maskPrimes : List (ℕ × BitVec 128) :=
  [(641, 0xeac48ea483f4bb66dfd4ebf49c5eeea3#128), (65537, 0xca270b3ec93bb01087424ff269bb218c#128),
    (274177, 0x25690e2a74a8d35d41b4ccbdec90e864#128),
    (6700417, 0xfb9043b5b964d0d44ce89147bf2b6a67#128)]

theorem maskPrimes_inverse (x : ℕ × BitVec 128) (hx : x ∈ maskPrimes) :
    (Gf.power 128 0x87#128 1 ^ ((2^128 - 1) / x.1) + 1) * ⟨x.2⟩ = 1 := by
  have hproduct : ∀ x ∈ maskPrimes, Gf.mulNat 128 0x87 128 x.2.toNat
      (Gf.powNat 128 0x87 128 ((2^128 - 1) / x.1) ^^^ 1) = 1 := by decide +kernel
  have hlt : (2^128 - 1) / x.1 < 2^128 := lt_of_le_of_lt (Nat.div_le_self _ _) (by decide)
  apply Gf.ext
  apply BitVec.eq_of_toNat_eq
  rw [Gf.toNat_mul (by decide), Gf.bits_add, BitVec.toNat_xor,
    Gf.toNat_pow (by decide) 128 _ hlt]
  exact hproduct x hx

theorem maskPrimes_prime : ∀ x ∈ maskPrimes, x.1.Prime := by
  intro x hx
  simp only [maskPrimes, List.mem_cons, List.not_mem_nil, or_false] at hx
  rcases hx with rfl | rfl | rfl | rfl <;> norm_num

theorem dvd_period (a : MaskField) (ha : a ≠ 0) (x : ℕ × BitVec 128) (hx : x ∈ maskPrimes) :
    x.1 ∣ minimalPeriod Gf.mulY a := by
  have hw : 1 < 128 := by decide
  have hdvd : ∀ x ∈ maskPrimes, x.1 ∣ 2^128 - 1 := by decide
  exact dvd_minimalPeriod Gf.mulY a (2^128 - 1) x.1 (maskPrimes_prime x hx) (hdvd x hx)
    (Gf.isPeriodicPt_of_pow hw _ y_round a)
    (Gf.not_isPeriodicPt hw _ ⟨x.2⟩ a (maskPrimes_inverse x hx) ha)

/- The product of the four primes is below the period. -/
theorem period_gt (a : MaskField) (ha : a ≠ 0) : 2^64 < minimalPeriod Gf.mulY a := by
  have hw : 1 < 128 := by decide
  have hpos : 0 < minimalPeriod Gf.mulY a :=
    (Gf.isPeriodicPt_of_pow hw _ y_round a).minimalPeriod_pos (by decide)
  have hmem : ∀ n < 4, maskPrimes.getD n 0 ∈ maskPrimes := by decide
  have h1 : 641 ∣ minimalPeriod Gf.mulY a := dvd_period a ha _ (hmem 0 (by decide))
  have h2 : 65537 ∣ minimalPeriod Gf.mulY a := dvd_period a ha _ (hmem 1 (by decide))
  have h3 : 274177 ∣ minimalPeriod Gf.mulY a := dvd_period a ha _ (hmem 2 (by decide))
  have h4 : 6700417 ∣ minimalPeriod Gf.mulY a := dvd_period a ha _ (hmem 3 (by decide))
  have h12 := Nat.Coprime.mul_dvd_of_dvd_of_dvd (by decide) h1 h2
  have h34 := Nat.Coprime.mul_dvd_of_dvd_of_dvd (by decide) h3 h4
  have hall := Nat.Coprime.mul_dvd_of_dvd_of_dvd (by decide) h12 h34
  exact lt_of_lt_of_le (by norm_num) (Nat.le_of_dvd hpos hall)

/-! ### The masks of a message -/

theorem pmacMask_exponent (n i : ℕ) (hi : i < n) : (if i = n - 1 then i + 1 else i) ≤ n := by
  split_ifs <;> omega

/-- Of fewer than `2^64` blocks no two have the same mask, and none has the mask zero, as
long as the cipher does not send the zero block to itself. -/
theorem pmac_masks_distinct (E : Block → Block) (mem : Memory) (f : ℕ → Byte) (n : ℕ)
    (hL : E zeroBlock ≠ zeroBlock) (hn : n < 2^64) (hin : ∀ p < n * 16, mem p = some (f p)) :
    pmac E mem n = some (E (xorSum n fun i => E (xorBlocks (blockAt f i) (pmacMask E n i)))) ∧
    (∀ i < n, pmacMask E n i ≠ zeroBlock) ∧
    ∀ i < n, ∀ j < n, pmacMask E n i = pmacMask E n j → i = j := by
  have hfield : maskField (E zeroBlock) ≠ 0 := by
    rw [← maskField_zeroBlock]
    exact fun h => hL (maskField_injective h)
  have hperiod := period_gt _ hfield
  have hmask : ∀ i, maskField (pmacMask E n i) =
      Gf.mulY^[if i = n - 1 then i + 1 else i] (maskField (E zeroBlock)) :=
    fun i => maskField_iterate _ _
  refine ⟨pmac_eq E mem f n hin, fun i hi hzero => ?_, fun i hi j hj heq => ?_⟩
  · have hle := pmacMask_exponent n i hi
    have hne := Gf.iterate_mulY_ne_zero _ (if i = n - 1 then i + 1 else i)
      (lt_of_le_of_lt (by omega) hperiod)
    rw [← hmask, hzero] at hne
    exact hne maskField_zeroBlock
  · have hfields := congrArg maskField heq
    rw [hmask, hmask] at hfields
    have hlei := pmacMask_exponent n i hi
    have hlej := pmacMask_exponent n j hj
    have hexp := (iterate_eq_iterate_iff_of_lt_minimalPeriod (by omega) (by omega)).mp hfields
    split_ifs at hexp <;> omega

theorem pmac_masks_distinct_example :
    let E : Block → Block := fun _ _ => 1
    pmac E (fun _ => some 0) 3 =
        some (E (xorSum 3 fun i => E (xorBlocks (blockAt (fun _ => 0) i) (pmacMask E 3 i)))) ∧
    (∀ i < 3, pmacMask E 3 i ≠ zeroBlock) ∧
    ∀ i < 3, ∀ j < 3, pmacMask E 3 i = pmacMask E 3 j → i = j :=
  pmac_masks_distinct (fun _ _ => 1) (fun _ => some 0) (fun _ => 0) 3 (by decide) (by decide)
    fun _ _ => rfl

end Pobc.Iot
