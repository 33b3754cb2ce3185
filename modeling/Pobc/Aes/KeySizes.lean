import Pobc.Aes.Inverse

/-!
# AES with keys of 128, 192 and 256 bits

Key expansion and cipher of FIPS-197 with the number `nk` of key words as a
parameter; `nr` is the number of rounds, `nk + 6`.
-/

namespace Pobc.Aes
open Pobc.Loop

theorem sbox_invSbox (b : Byte) : sbox (invSbox b) = b := by
  have haffine : ∀ c : Byte, affineLinear (invAffineLinear c) = c := by decide +kernel
  have hlane : ∀ x : AesField, lane x.bits = x := fun x => rfl
  rw [invSbox, sbox, hlane, gfInv_gfInv]
  show affineLinear (invAffineLinear (b ^^^ 0x63)) ^^^ 0x63 = b
  rw [haffine, BitVec.xor_assoc, BitVec.xor_self, BitVec.xor_zero]

/-! ### Key expansion and cipher -/

def scheduleWordOf (nk : ℕ) (w : ℕ → Byte) (i : ℕ) : Fin 4 → Byte :=
  let temp := word w (i - 1)
  if i % nk = 0 then fun j => subWord (rotWord temp) j ^^^ rcon (i / nk) j
  else if 6 < nk ∧ i % nk = 4 then subWord temp
  else temp

def expandStepOf (nk n : ℕ) (w : ℕ → Byte) : ℕ → Byte :=
  setWord w (n + nk) fun j => word w n j ^^^ scheduleWordOf nk w (n + nk) j

/-- `KeyExpansion` for `4 * nk` bytes of key and `nr` rounds. -/
def keyExpansionOf (nk nr : ℕ) (key : ℕ → Byte) : ℕ → Byte :=
  forRange (4 * (nr + 1) - nk) (expandStepOf nk) fun p => if p < 4 * nk then key p else 0

def finalRoundOf (nr : ℕ) (w : ℕ → Byte) (s : Block) : Block :=
  xorBlocks (shiftRows (subBytes s)) (roundKey w nr)

def cipherOf (nr : ℕ) (w : ℕ → Byte) (input : Block) : Block :=
  finalRoundOf nr w (forRange (nr - 1) (cipherRound w) (xorBlocks input (roundKey w 0)))

theorem cipherOf_ten (w : ℕ → Byte) : cipherOf 10 w = cipher w := rfl

/-! ### The recurrence -/

theorem word_congr (w w' : ℕ → Byte) (i : ℕ) (h : ∀ p, p / 4 = i → w p = w' p) :
    word w i = word w' i := by
  funext j
  have hj := j.isLt
  exact h _ (by omega)

theorem word_expandStepOf_of_ne (nk n : ℕ) (w : ℕ → Byte) (i : ℕ) (hi : i ≠ n + nk) :
    word (expandStepOf nk n w) i = word w i := word_setWord_of_ne w (n + nk) i _ hi

/- Round `n` writes word `n + nk`; the words below keep their values. -/
theorem word_forRange_expandStepOf (nk : ℕ) (w : ℕ → Byte) (n d i : ℕ) (hi : i < n + nk) :
    word (forRange (n + d) (expandStepOf nk) w) i = word (forRange n (expandStepOf nk) w) i := by
  induction d with
  | zero => rfl
  | succ d ih =>
    rw [← Nat.add_assoc, forRange_succ, word_expandStepOf_of_ne nk _ _ _ (by omega), ih]

/-- The equations of a finished schedule. -/
structure IsSchedule (nk nr : ℕ) (key w : ℕ → Byte) : Prop where
  key : ∀ p < 4 * nk, w p = key p
  step : ∀ i, nk ≤ i → i < 4 * (nr + 1) →
    word w i = fun j => word w (i - nk) j ^^^ scheduleWordOf nk w i j

theorem scheduleWordOf_congr (nk : ℕ) (w w' : ℕ → Byte) (i : ℕ)
    (h : word w (i - 1) = word w' (i - 1)) : scheduleWordOf nk w i = scheduleWordOf nk w' i := by
  simp only [scheduleWordOf, h]

theorem isSchedule_keyExpansionOf (nk nr : ℕ) (hnk : 0 < nk) (key : ℕ → Byte) :
    IsSchedule nk nr key (keyExpansionOf nk nr key) where
  key p hp := by
    have hkeep := word_forRange_expandStepOf nk (fun p => if p < 4 * nk then key p else 0) 0
      (4 * (nr + 1) - nk) (p / 4) (by omega)
    have hpos : 4 * (p / 4) + p % 4 = p := by omega
    have hbyte := congrFun hkeep ⟨p % 4, Nat.mod_lt _ (by decide)⟩
    rw [Nat.zero_add] at hbyte
    simp only [word, hpos, forRange_zero, if_pos hp] at hbyte
    exact hbyte
  step i hlow hhigh := by
    let w := fun p => if p < 4 * nk then key p else 0
    obtain ⟨n, rfl⟩ : ∃ n, i = n + nk := ⟨i - nk, by omega⟩
    obtain ⟨d, hd⟩ : ∃ d, 4 * (nr + 1) - nk = n + 1 + d := ⟨4 * (nr + 1) - nk - (n + 1), by omega⟩
    have hfinal : ∀ k < n + nk, word (keyExpansionOf nk nr key) k =
        word (forRange n (expandStepOf nk) w) k := by
      intro k hk
      have hsum : n + 1 + d = n + (1 + d) := Nat.add_assoc n 1 d
      rw [keyExpansionOf, hd, hsum]
      exact word_forRange_expandStepOf nk w n (1 + d) k hk
    have hwritten : word (keyExpansionOf nk nr key) (n + nk) =
        word (forRange (n + 1) (expandStepOf nk) w) (n + nk) := by
      rw [keyExpansionOf, hd]
      exact word_forRange_expandStepOf nk w (n + 1) d (n + nk) (by omega)
    have hprev : n + nk - nk = n := Nat.add_sub_cancel n nk
    rw [hwritten, forRange_succ, expandStepOf, word_setWord_self, hprev, hfinal n (by omega),
      scheduleWordOf_congr nk _ _ (n + nk) (hfinal (n + nk - 1) (by omega))]

/- The equations have one solution. -/
theorem word_isSchedule_unique (nk nr : ℕ) (hnk : 0 < nk) (key w w' : ℕ → Byte)
    (hw : IsSchedule nk nr key w) (hw' : IsSchedule nk nr key w') (i : ℕ)
    (hi : i < 4 * (nr + 1)) : word w i = word w' i := by
  induction i using Nat.strong_induction_on with
  | h i ih =>
    rcases Nat.lt_or_ge i nk with hlow | hge
    · refine word_congr w w' i fun p hp => ?_
      rw [hw.key p (by omega), hw'.key p (by omega)]
    · rw [hw.step i hge hi, hw'.step i hge hi, ih (i - nk) (by omega) (by omega),
        scheduleWordOf_congr nk w w' i (ih (i - 1) (by omega) (by omega))]

theorem roundKey_of_words (w w' : ℕ → Byte) (nr : ℕ)
    (h : ∀ i < 4 * (nr + 1), word w i = word w' i) (r : ℕ) (hr : r ≤ nr) :
    roundKey w r = roundKey w' r := by
  funext i
  have hi := i.isLt
  have hpos : 4 * (4 * r + i.val / 4) + i.val % 4 = 16 * r + i.val := by omega
  have hbyte := congrFun (h (4 * r + i.val / 4) (by omega)) ⟨i.val % 4, Nat.mod_lt _ (by decide)⟩
  simp only [word, hpos] at hbyte
  exact hbyte

theorem cipherOf_congr (nr : ℕ) (w w' : ℕ → Byte) (h : ∀ r ≤ nr, roundKey w r = roundKey w' r) :
    cipherOf nr w = cipherOf nr w' := by
  funext input
  have hrounds : forRange (nr - 1) (cipherRound w) (xorBlocks input (roundKey w 0)) =
      forRange (nr - 1) (cipherRound w') (xorBlocks input (roundKey w' 0)) := by
    rw [h 0 (by omega)]
    refine forRange_congr _ _ _ _ fun n hn s => ?_
    rw [cipherRound, cipherRound, h (n + 1) (by omega)]
  rw [cipherOf, cipherOf, hrounds, finalRoundOf, finalRoundOf, h nr (le_refl nr)]

/- With four key words the schedule is that of AES-128. -/
theorem keyExpansionOf_four (key : Block) (i : ℕ) (hi : i < 44) :
    word (keyExpansionOf 4 10 (keyBytes key 0)) i = word (keyExpansion key) i := by
  have hschedule := isSchedule_keyExpansionOf 4 10 (by decide) (keyBytes key 0)
  refine (word_keyExpansion_unique key _ (fun k hk => ?_) (fun n hn => ?_) i hi).symm
  · funext j
    have hj := j.isLt
    have hbyte := hschedule.key (4 * k + j) (by omega)
    rw [word, hbyte, keyBytes, if_pos (by omega), column]
  · have hsub : n + 4 - 4 = n := Nat.add_sub_cancel n 4
    rw [hschedule.step (n + 4) (by omega) (by omega), hsub]
    rfl

theorem cipherOf_four (key input : Block) :
    cipherOf 10 (keyExpansionOf 4 10 (keyBytes key 0)) input = aes128 key input := by
  rw [cipherOf_congr 10 _ (keyExpansion key) (roundKey_of_words _ _ 10 (keyExpansionOf_four key)),
    cipherOf_ten, aes128]

end Pobc.Aes
