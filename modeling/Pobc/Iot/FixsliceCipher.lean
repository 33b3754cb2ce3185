import Pobc.Iot.FixsliceLanes
import Mathlib.Tactic.Ring

/-!
# Fixsliced encryption is AES-128

After round `n` the state carries the FIPS-197 state with ShiftRows still to be done
`n` times. The invariant says so, each round keeps it under round keys that are
moved back by as many rows, and the last round settles the remainder.
-/

namespace Pobc.Fixslice
open Pobc.Loop Pobc.Bitslice

/-! ### ShiftRows -/

/-- ShiftRows done `a` times. -/
def rowsBy (a : ℕ) (x : Block) : Block :=
  fun j => byteAt x (4 * ((j.val / 4 + a * (j.val % 4)) % 4) + j.val % 4)

theorem byteAt_rowsBy (a : ℕ) (x : Block) (r c : ℕ) (hr : r < 4) :
    byteAt (rowsBy a x) (4 * (c % 4) + r) = byteAt x (4 * ((c + a * r) % 4) + r) := by
  have hlt : 4 * (c % 4) + r < 16 := by omega
  have hrow : (4 * (c % 4) + r) % 4 = r := by omega
  have hcol : (4 * (c % 4) + r) / 4 = c % 4 := by omega
  have hbyte := byteAt_fun (fun j => byteAt x (4 * ((j / 4 + a * (j % 4)) % 4) + j % 4)) _ hlt
  rwa [hrow, hcol, Nat.mod_add_mod] at hbyte

theorem rowsBy_zero (x : Block) : rowsBy 0 x = x := by
  funext j
  have hj := j.isLt
  have hpos : 4 * ((j.val / 4 + 0 * (j.val % 4)) % 4) + j.val % 4 = j.val := by omega
  rw [rowsBy, hpos, byteAt_val]

theorem rowsBy_add (a b : ℕ) (x : Block) : rowsBy a (rowsBy b x) = rowsBy (b + a) x := by
  funext j
  rw [rowsBy, byteAt_rowsBy b x _ _ (Nat.mod_lt _ (by decide)), rowsBy, Nat.add_mul]
  congr 3
  omega

theorem rowsBy_four (a n : ℕ) (x : Block) : rowsBy (a + 4 * n) x = rowsBy a x := by
  funext j
  have hsplit : (a + 4 * n) * (j.val % 4) = a * (j.val % 4) + 4 * (n * (j.val % 4)) := by ring
  have hcol : (j.val / 4 + (a + 4 * n) * (j.val % 4)) % 4 = (j.val / 4 + a * (j.val % 4)) % 4 := by
    rw [hsplit]
    omega
  rw [rowsBy, rowsBy, hcol]

theorem shiftRows_rowsBy (a : ℕ) (x : Block) : Aes.shiftRows (rowsBy a x) = rowsBy (a + 1) x := by
  funext j
  have hrow : j.val % 4 < 4 := Nat.mod_lt _ (by decide)
  rw [Aes.shiftRows, byteAt_rowsBy a x _ _ hrow, rowsBy, Nat.add_mul, Nat.one_mul]
  congr 3
  omega

theorem rowsBy_xorBlocks (a : ℕ) (x y : Block) :
    rowsBy a (xorBlocks x y) = xorBlocks (rowsBy a x) (rowsBy a y) := rfl

theorem rowsBy_subBytesLinear (a : ℕ) (x : Block) :
    rowsBy a (subBytesLinear x) = subBytesLinear (rowsBy a x) := rfl

theorem holds_rows (l a : ℕ) (f : Word → Word) (σ : ℕ → ℕ) (hf : WordWires f σ)
    (hσ : ∀ j < 16, σ (lanePos l j) = lanePos l (4 * ((j / 4 + a * (j % 4)) % 4) + j % 4))
    (s : Words) (x : Block) (h : Holds l s x) : Holds l (fun i => f (s i)) (rowsBy a x) :=
  holds_map l f σ (fun j => 4 * ((j / 4 + a * (j % 4)) % 4) + j % 4) hf hσ (fun j _ => by omega)
    s x h

theorem doubleShiftrows_eq (s : Words) :
    ∀ i < 8, doubleShiftrows s i = swapWord 0x0f000f00#32 4 (s i) := by
  intro i hi
  simp only [doubleShiftrows, swapMove_self]
  rw [forRange_update 8 (fun _ => swapWord 0x0f000f00#32 4), if_pos hi]

theorem wordWires_doubleShiftrows : WordWires (swapWord 0x0f000f00#32 4)
    fun p => (swapWire 0 0 0x0f000f00#32 4 (0, p)).2 :=
  wordWires_swapWord _ 4 (by decide) (by decide)

theorem holds_doubleShiftrows (l : ℕ) (hl : l < 2) (s : Words) (x : Block) (h : Holds l s x) :
    Holds l (doubleShiftrows s) (rowsBy 2 x) := by
  refine (holds_rows l 2 _ _ wordWires_doubleShiftrows ?_ s x h).congr (doubleShiftrows_eq s)
  interval_cases l <;> decide +kernel

/-! ### MixColumns under ShiftRows -/

theorem byteAt_turned (a k : ℕ) (x : Block) (r c : ℕ) (hr : r < 4) :
    byteAt (turned a k x) (4 * (c % 4) + r) = byteAt x (4 * ((c + k * a) % 4) + (r + k) % 4) := by
  have hlt : 4 * (c % 4) + r < 16 := by omega
  have hrow : (4 * (c % 4) + r) % 4 = r := by omega
  have hcol : (4 * (c % 4) + r) / 4 = c % 4 := by omega
  have hbyte := byteAt_fun (fun j => byteAt x (turn a k j)) _ hlt
  rwa [turn, hrow, hcol, Nat.mod_add_mod] at hbyte

/- Row `r + k` of a column, seen from the moved rows. -/
theorem column_rowsBy (a : ℕ) (x : Block) (c : ℕ) (r : Fin 4) (k : ℕ) :
    Aes.column (rowsBy a x) (c % 4) (r + Fin.ofNat 4 k) =
      byteAt x (4 * ((c + a * r + k * a) % 4) + (r + k) % 4) := by
  have hr := r.isLt
  have hval : (r + Fin.ofNat 4 k).val = (r.val + k) % 4 := by
    simp only [Fin.val_add, Fin.ofNat]
    omega
  have hcol : (c + a * ((r.val + k) % 4)) % 4 = (c + a * r.val + k * a) % 4 := by
    have hdiv : r.val + k = 4 * ((r.val + k) / 4) + (r.val + k) % 4 := (Nat.div_add_mod _ 4).symm
    have hsum : a * r.val + k * a = 4 * (a * ((r.val + k) / 4)) + a * ((r.val + k) % 4) := by
      calc a * r.val + k * a = a * (r.val + k) := by ring
        _ = a * (4 * ((r.val + k) / 4) + (r.val + k) % 4) := by rw [← hdiv]
        _ = _ := by ring
    omega
  rw [Aes.column, hval, byteAt_rowsBy a x _ c (Nat.mod_lt _ (by decide)), hcol]

/- MixColumns is two rows of sums: the doubled sum of a byte and the next, and the rest. -/
theorem mixColumn_eq (a : Fin 4 → Byte) (r : Fin 4) : Aes.mixColumn a r =
    Aes.xtime (a r ^^^ a (r + 1)) ^^^ a (r + 1) ^^^ (a (r + 2) ^^^ a (r + 3)) := by
  have hx : ∀ b : Byte, lane (Aes.xtime b) = Gf.power 8 0x1b#8 1 * lane b := fun b =>
    Gf.mulY_eq (by decide) (lane b)
  apply lane_inj
  rw [Aes.lane_mixColumn, lane_xor, lane_xor, lane_xor, hx, lane_xor]
  ring

theorem rowsBy_mixTurned (a : ℕ) (x : Block) :
    rowsBy a (mixTurned a x) = Aes.mixColumns (rowsBy a x) := by
  funext j
  have hj := j.isLt
  have hr : j.val % 4 < 4 := Nat.mod_lt _ (by decide)
  have hc : j.val / 4 % 4 = j.val / 4 := Nat.mod_eq_of_lt (by omega)
  have hcol := fun k => column_rowsBy a x (j.val / 4) (Fin.ofNat 4 j.val) k
  have hrow : (Fin.ofNat 4 j.val).val = j.val % 4 := rfl
  rw [hc, hrow] at hcol
  generalize hm : j.val / 4 + a * (j.val % 4) = m at hcol
  have hnext : (m + 2 * a + 1 * a) % 4 = (m + 3 * a) % 4 := by congr 1; ring
  have hlast : ((j.val % 4 + 2) % 4 + 1) % 4 = (j.val % 4 + 3) % 4 := by omega
  have hleft : rowsBy a (mixTurned a x) j = byteAt (mixTurned a x) (4 * (m % 4) + j.val % 4) := by
    rw [rowsBy, hm]
  have hturned2 : byteAt (turned a 2 (xorBlocks x (turned a 1 x))) (4 * (m % 4) + j.val % 4) =
      byteAt x (4 * ((m + 2 * a) % 4) + (j.val % 4 + 2) % 4) ^^^
        byteAt x (4 * ((m + 3 * a) % 4) + (j.val % 4 + 3) % 4) := by
    have hsecond := byteAt_turned a 1 x ((j.val % 4 + 2) % 4) (m + 2 * a) (by omega)
    rw [hnext, hlast] at hsecond
    rw [byteAt_turned a 2 _ _ _ hr, ← hsecond]
    rfl
  have hfirst := byteAt_turned a 1 x (j.val % 4) m hr
  calc rowsBy a (mixTurned a x) j
      = Aes.xtime (byteAt x (4 * (m % 4) + j.val % 4) ^^^
            byteAt (turned a 1 x) (4 * (m % 4) + j.val % 4)) ^^^
          byteAt (turned a 1 x) (4 * (m % 4) + j.val % 4) ^^^
          byteAt (turned a 2 (xorBlocks x (turned a 1 x))) (4 * (m % 4) + j.val % 4) := hleft
    _ = Aes.mixColumn (Aes.column (rowsBy a x) (j.val / 4)) (Fin.ofNat 4 j.val) := by
        have h0 := hcol 0
        rw [Nat.zero_mul, Nat.add_zero, Nat.add_zero, Nat.mod_mod] at h0
        have hself : Fin.ofNat 4 j.val + Fin.ofNat 4 0 = Fin.ofNat 4 j.val := add_zero _
        rw [hself] at h0
        rw [mixColumn_eq, hfirst, hturned2, h0]
        exact congrArg₂ _ (congrArg₂ _ (congrArg _ (congrArg _ (hcol 1).symm)) (hcol 1).symm)
          (congrArg₂ _ (hcol 2).symm (hcol 3).symm)

/-! ### The omitted constant -/

/-- The bytes that the NOTs left out of `sbox` would have changed. -/
def sboxConst : Block := fun _ => 0x63

theorem mixColumns_xorBlocks (x y : Block) :
    Aes.mixColumns (xorBlocks x y) = xorBlocks (Aes.mixColumns x) (Aes.mixColumns y) := by
  funext j
  have hcol := congrFun (Aes.mixColumn_xor (Aes.column x (j.val / 4)) (Aes.column y (j.val / 4)))
    (Fin.ofNat 4 j.val)
  exact hcol

theorem mixColumns_sboxConst : Aes.mixColumns sboxConst = sboxConst := by decide

theorem subBytes_eq (x : Block) : Aes.subBytes x = xorBlocks (subBytesLinear x) sboxConst := by
  funext j
  simp only [Aes.subBytes, xorBlocks, subBytesLinear, sboxConst]
  rw [BitVec.xor_assoc, BitVec.xor_self, BitVec.xor_zero]

/- ShiftRows and MixColumns pass the constant on, so a round key can carry it. -/
theorem mixColumns_subBytes (x : Block) : Aes.mixColumns (Aes.shiftRows (Aes.subBytes x)) =
    xorBlocks (Aes.mixColumns (Aes.shiftRows (subBytesLinear x))) sboxConst := by
  have hconst : Aes.shiftRows (xorBlocks (subBytesLinear x) sboxConst) =
      xorBlocks (Aes.shiftRows (subBytesLinear x)) sboxConst := rfl
  rw [subBytes_eq, hconst, mixColumns_xorBlocks, mixColumns_sboxConst]

/-! ### Encryption -/

/-- Round key `r` as the fixsliced rounds need it: `r` rows of ShiftRows undone and the
constant of the S-box added. -/
def slicedKey (w : ℕ → Byte) (r : ℕ) : Block :=
  if r = 0 then Aes.roundKey w 0
  else if r = 10 then xorBlocks (Aes.roundKey w 10) sboxConst
  else xorBlocks (rowsBy (3 * r) (Aes.roundKey w r)) sboxConst

/-- The packed round keys of `w` in both lanes. -/
def HoldsKeys (rkeys : Words) (w : ℕ → Byte) : Prop :=
  ∀ l < 2, ∀ r < 11, Holds l (advance rkeys (8 * r)) (slicedKey w r)

def mixcolumns (n : ℕ) : Words → Words :=
  match n % 4 with
  | 0 => mixcolumns0
  | 1 => mixcolumns1
  | 2 => mixcolumns2
  | _ => mixcolumns3

/-- Round `n + 1` of `aes128_encrypt_ffs`. -/
def fixRound (rkeys : Words) (n : ℕ) (state : Words) : Words :=
  ark (mixcolumns n (sbox state)) (advance rkeys (8 * (n + 1)))

theorem aes128EncryptFfs_eq (ptext0 ptext1 : Block) (rkeys : Words) :
    aes128EncryptFfs ptext0 (some ptext1) rkeys =
      unpacking (ark (doubleShiftrows (sbox (forRange 9 (fixRound rkeys)
        (ark (packing ptext0 ptext1) rkeys)))) (advance rkeys 80)) := rfl

theorem mixTurned_four (a n : ℕ) (x : Block) : mixTurned (a + 4 * n) x = mixTurned a x := by
  have hturn : ∀ k, turned (a + 4 * n) k = turned a k := by
    intro k
    funext y j
    have hcol : (j.val / 4 + k * (a + 4 * n)) % 4 = (j.val / 4 + k * a) % 4 := by
      have hsplit : k * (a + 4 * n) = k * a + 4 * (k * n) := by ring
      rw [hsplit]
      omega
    rw [turned, turned, turn, turn, hcol]
  rw [mixTurned, mixTurned, hturn, hturn]

theorem holds_mixcolumns (l n : ℕ) (hl : l < 2) (s : Words) (x : Block) (h : Holds l s x) :
    Holds l (mixcolumns n s) (mixTurned (n + 1) x) := by
  have hn : n + 1 = n % 4 + 1 + 4 * (n / 4) := by omega
  rw [hn, mixTurned_four, mixcolumns]
  match n % 4, Nat.mod_lt n (by decide : 0 < 4) with
  | 0, _ => exact holds_mixcolumns0 l hl s x h
  | 1, _ => exact holds_mixcolumns1 l hl s x h
  | 2, _ => exact holds_mixcolumns2 l hl s x h
  | 3, _ => exact holds_mixcolumns3 l hl s x h

/-- The lane carries the block `x` with ShiftRows left to be done `n` times. -/
def Lags (l n : ℕ) (s : Words) (x : Block) : Prop := ∃ y, Holds l s y ∧ rowsBy n y = x

theorem lags_fixRound (l : ℕ) (hl : l < 2) (rkeys : Words) (w : ℕ → Byte)
    (hkeys : HoldsKeys rkeys w) (n : ℕ) (hn : n < 9) (s : Words) (x : Block) (h : Lags l n s x) :
    Lags l (n + 1) (fixRound rkeys n s) (Aes.cipherRound w n x) := by
  obtain ⟨y, hy, hx⟩ := h
  have hkey := hkeys l hl (n + 1) (by omega)
  refine ⟨_, holds_ark l _ _ _ _ (holds_mixcolumns l n hl _ _ (holds_sbox l s y hy)) hkey, ?_⟩
  have hslice : slicedKey w (n + 1) =
      xorBlocks (rowsBy (3 * (n + 1)) (Aes.roundKey w (n + 1))) sboxConst := by
    rw [slicedKey, if_neg (by omega), if_neg (by omega)]
  have hback : rowsBy (n + 1) (rowsBy (3 * (n + 1)) (Aes.roundKey w (n + 1))) =
      Aes.roundKey w (n + 1) := by
    have hsum : 3 * (n + 1) + (n + 1) = 0 + 4 * (n + 1) := by ring
    rw [rowsBy_add, hsum, rowsBy_four, rowsBy_zero]
  have hconst : rowsBy (n + 1) sboxConst = sboxConst := rfl
  rw [rowsBy_xorBlocks, rowsBy_mixTurned, ← shiftRows_rowsBy, rowsBy_subBytesLinear, hx, hslice,
    rowsBy_xorBlocks, hback, hconst, Aes.cipherRound, mixColumns_subBytes]
  funext j
  simp only [xorBlocks]
  ac_rfl

theorem lags_rounds (l : ℕ) (hl : l < 2) (rkeys : Words) (w : ℕ → Byte)
    (hkeys : HoldsKeys rkeys w) (s : Words) (x : Block) (h : Holds l s x) :
    Lags l 9 (forRange 9 (fixRound rkeys) s) (forRange 9 (Aes.cipherRound w) x) := by
  refine forRange_inv (fun n t => Lags l n t (forRange n (Aes.cipherRound w) x)) 9 _ s
    ⟨x, h, rowsBy_zero x⟩ fun n hn t ht => ?_
  exact lags_fixRound l hl rkeys w hkeys n hn t _ ht

theorem holds_finalRound (l : ℕ) (hl : l < 2) (rkeys : Words) (w : ℕ → Byte)
    (hkeys : HoldsKeys rkeys w) (s : Words) (x : Block) (h : Lags l 9 s x) :
    Holds l (ark (doubleShiftrows (sbox s)) (advance rkeys 80)) (Aes.finalRound w x) := by
  obtain ⟨y, hy, hx⟩ := h
  have hkey := hkeys l hl 10 (by omega)
  have hlayer := holds_doubleShiftrows l hl _ _ (holds_sbox l s y hy)
  have hfinal : xorBlocks (rowsBy 2 (subBytesLinear y)) (slicedKey w 10) = Aes.finalRound w x := by
    have hrows : Aes.shiftRows (subBytesLinear x) = rowsBy 2 (subBytesLinear y) := by
      rw [← hx, ← rowsBy_subBytesLinear, shiftRows_rowsBy]
      exact rowsBy_four 2 2 _
    have hslice : slicedKey w 10 = xorBlocks (Aes.roundKey w 10) sboxConst := rfl
    have hconst : Aes.shiftRows (xorBlocks (subBytesLinear x) sboxConst) =
        xorBlocks (Aes.shiftRows (subBytesLinear x)) sboxConst := rfl
    rw [← hrows, hslice, Aes.finalRound, subBytes_eq, hconst]
    funext j
    simp only [xorBlocks]
    ac_rfl
  rw [← hfinal]
  exact holds_ark l _ _ _ _ hlayer hkey

/-- With packed round keys, both lanes are encrypted. -/
theorem aes128EncryptFfs_of_holdsKeys (rkeys : Words) (w : ℕ → Byte) (hkeys : HoldsKeys rkeys w)
    (ptext0 ptext1 : Block) : aes128EncryptFfs ptext0 (some ptext1) rkeys =
      (Aes.cipher w ptext0, Aes.cipher w ptext1) := by
  have hlane : ∀ l < 2, Holds l (ark (doubleShiftrows (sbox (forRange 9 (fixRound rkeys)
      (ark (packing ptext0 ptext1) rkeys)))) (advance rkeys 80))
      (Aes.cipher w (if l = 0 then ptext0 else ptext1)) := by
    intro l hl
    have hkey := (hkeys l hl 0 (by omega)).congr (t := rkeys) fun i _ => by
      rw [advance, Nat.mul_zero, Nat.zero_add]
    exact holds_finalRound l hl rkeys w hkeys _ _ (lags_rounds l hl rkeys w hkeys _ _
      (holds_ark l _ _ _ _ (holds_packing ptext0 ptext1 l hl) hkey))
  rw [aes128EncryptFfs_eq]
  exact unpacking_of_holds _ _ _ (hlane 0 (by decide)) (hlane 1 (by decide))

end Pobc.Fixslice
