import Pobc.Iot.FixsliceCipher
import Pobc.Iot.AesModes

/-!
# The fixsliced key schedule

The words at `rkeys + 8 r` carry round key `r` of FIPS-197 in both lanes; a key is
moved back by ShiftRows once the next one has been computed from it.
-/

namespace Pobc.Fixslice
open Pobc.Loop Pobc.Bitslice

/-! ### Words of the schedule -/

theorem advance_onWords_self (rkeys : Words) (off : ℕ) (f : Words → Words) :
    ∀ i < 8, advance (onWords rkeys off f) off i = f (advance rkeys off) i := by
  intro i hi
  have hin : off ≤ off + i ∧ off + i < off + 8 := by omega
  have hpos : off + i - off = i := by omega
  rw [advance, onWords, if_pos hin, hpos]

theorem advance_onWords_of_ne (rkeys : Words) (r k : ℕ) (f : Words → Words) (hk : k ≠ r) :
    ∀ i < 8, advance (onWords rkeys (8 * r) f) (8 * k) i = advance rkeys (8 * k) i := by
  intro i hi
  have hout : ¬ (8 * r ≤ 8 * k + i ∧ 8 * k + i < 8 * r + 8) := by omega
  rw [advance, onWords, if_neg hout, advance]

/-! ### The NOTs -/

theorem notWords_apply (rkeys : Words) (off i : ℕ) : notWords rkeys off i =
    if i = off + 1 ∨ i = off + 2 ∨ i = off + 6 ∨ i = off + 7 then rkeys i ^^^ 0xffffffff#32
    else rkeys i := by
  simp only [notWords, Function.update_apply]
  grind

theorem holds_notWords (l : ℕ) (rkeys : Words) (off : ℕ) (x : Block)
    (h : Holds l (advance rkeys off) x) :
    Holds l (advance (notWords rkeys off) off) (xorBlocks x sboxConst) := by
  intro i hi j hj
  have hbits : ∀ i < 8, (0x63#8).getLsbD (7 - i) = decide (i = 1 ∨ i = 2 ∨ i = 6 ∨ i = 7) := by
    decide
  have hones : ∀ p < 32, (0xffffffff#32).getLsbD p = true := by decide
  have hiff : (off + i = off + 1 ∨ off + i = off + 2 ∨ off + i = off + 6 ∨ off + i = off + 7) ↔
      (i = 1 ∨ i = 2 ∨ i = 6 ∨ i = 7) := by omega
  have hx := h i hi j hj
  rw [advance] at hx
  show _ = (byteAt x j ^^^ 0x63#8).getLsbD (7 - i)
  rw [advance, notWords_apply, if_congr hiff rfl rfl, BitVec.getLsbD_xor, hbits i hi, ← hx]
  split
  case isTrue hnot => rw [BitVec.getLsbD_xor, hones _ (lanePos_lt l j hj), decide_eq_true hnot]
  case isFalse hnot => rw [decide_eq_false hnot, Bool.xor_false]

/-! ### Round constants -/

/-- The block that is zero but for byte 13, the row that RotWord moves to the front. -/
def rconBlock (rc : Byte) : Block := fun j => if j.val = 13 then rc else 0

theorem foldl_rconst (rconst : List ℕ) (hnodup : rconst.Nodup) (rkeys : Words) (i : ℕ) :
    rconst.foldl (fun rkeys i => Function.update rkeys i (rkeys i ^^^ 0x00000300#32)) rkeys i =
      if i ∈ rconst then rkeys i ^^^ 0x00000300#32 else rkeys i := by
  induction rconst generalizing rkeys with
  | nil => rfl
  | cons m rest ih =>
    obtain ⟨hm, hrest⟩ := List.nodup_cons.mp hnodup
    rw [List.foldl_cons, ih hrest]
    rcases eq_or_ne i m with rfl | hne
    · rw [if_neg hm, Function.update_self, if_pos List.mem_cons_self]
    · rw [Function.update_of_ne hne]
      refine if_congr ?_ rfl rfl
      rw [List.mem_cons]
      exact (or_iff_right hne).symm

theorem holds_rconst (l : ℕ) (hl : l < 2) (rconst : List ℕ) (hnodup : rconst.Nodup) (off : ℕ)
    (rc : Byte) (hrc : ∀ i < 8, rc.getLsbD (7 - i) = decide (off + i ∈ rconst)) (rkeys : Words)
    (x : Block) (h : Holds l (advance rkeys off) x) :
    Holds l (advance (rconst.foldl
      (fun rkeys i => Function.update rkeys i (rkeys i ^^^ 0x00000300#32)) rkeys) off)
      (xorBlocks x (rconBlock rc)) := by
  intro i hi j hj
  have hbits : ∀ l < 2, ∀ j < 16, (0x00000300#32).getLsbD (lanePos l j) = decide (j = 13) := by
    decide
  have hconst : byteAt (rconBlock rc) j = if j = 13 then rc else 0 :=
    byteAt_fun (fun j => if j = 13 then rc else 0) j hj
  have hx := h i hi j hj
  rw [advance] at hx
  show _ = (byteAt x j ^^^ byteAt (rconBlock rc) j).getLsbD (7 - i)
  rw [advance, foldl_rconst rconst hnodup, hconst, BitVec.getLsbD_xor, ← hx]
  have hbyte : (if j = 13 then rc else 0).getLsbD (7 - i) =
      (decide (j = 13) && decide (off + i ∈ rconst)) := by
    split
    case isTrue h13 => rw [hrc i hi, decide_eq_true h13, Bool.true_and]
    case isFalse h13 =>
      rw [decide_eq_false h13, Bool.false_and]
      exact BitVec.getLsbD_zero
  rw [hbyte]
  split
  case isTrue hin => rw [BitVec.getLsbD_xor, hbits l hl j hj, decide_eq_true hin, Bool.and_true]
  case isFalse hin => rw [decide_eq_false hin, Bool.and_false, Bool.xor_false]

/-! ### The columns of a round key -/

/- The top column of each byte comes from the S-box, the others from the one above. -/
theorem getLsbD_xorColumnsWord (prev cur : Word) (p : ℕ) (hp : p < 32) :
    (xorColumnsWord prev cur 2).getLsbD p = (prev.getLsbD p ^^
      if 6 ≤ p % 8 then cur.getLsbD ((p + 2) % 32)
      else (xorColumnsWord prev cur 2).getLsbD (p + 2)) := by
  have hror := (wordWires_ror 2 (by decide)).bit cur p hp
  simp only [xorColumnsWord, BitVec.getLsbD_or, BitVec.getLsbD_and, BitVec.getLsbD_xor,
    BitVec.getLsbD_ushiftRight, hror]
  interval_cases p <;> simp

theorem lanePos_columns : ∀ l < 2, ∀ j < 16, (6 ≤ lanePos l j % 8 ↔ j < 4) ∧
    (j < 4 → (lanePos l j + 2) % 32 = lanePos l (12 + (j + 1) % 4)) ∧
    (4 ≤ j → lanePos l j + 2 = lanePos l (j - 4)) := by
  decide

/- The recurrence of the key expansion on the bytes of one round key. -/
theorem holds_xorColumnsWord (l : ℕ) (hl : l < 2) (prev cur new : Words) (p y n : Block)
    (hnew : ∀ i < 8, new i = xorColumnsWord (prev i) (cur i) 2) (hp : Holds l prev p)
    (hy : Holds l cur y)
    (hn : ∀ j < 16, byteAt n j =
      byteAt p j ^^^ if j < 4 then byteAt y (12 + (j + 1) % 4) else byteAt n (j - 4)) :
    Holds l new n := by
  intro i hi j
  induction j using Nat.strong_induction_on with
  | h j ih =>
    intro hj
    obtain ⟨htop, hfirst, hnext⟩ := lanePos_columns l hl j hj
    rw [hnew i hi, getLsbD_xorColumnsWord _ _ _ (lanePos_lt l j hj), hp i hi j hj, hn j hj,
      BitVec.getLsbD_xor]
    by_cases h4 : j < 4
    · rw [if_pos (htop.mpr h4), if_pos h4, hfirst h4, hy i hi _ (by omega)]
    · have hprev := ih (j - 4) (by omega) (by omega)
      rw [hnew i hi] at hprev
      rw [if_neg (fun h => h4 (htop.mp h)), if_neg h4, hnext (by omega), hprev]

theorem xorColumns_apply (rkeys : Words) (off k : ℕ) (hoff : 8 ≤ off) :
    xorColumns rkeys off 8 2 k =
      if off ≤ k ∧ k < off + 8 then
        xorColumnsWord (notWords rkeys off (k - 8)) (notWords rkeys off k) 2
      else notWords rkeys off k := by
  generalize hbase : notWords rkeys off = base
  have hloop : ∀ m ≤ 8, ∀ k, forRange m (fun i rkeys => Function.update rkeys (off + i)
      (xorColumnsWord (rkeys (off + i - 8)) (rkeys (off + i)) 2)) base k =
      if off ≤ k ∧ k < off + m then xorColumnsWord (base (k - 8)) (base k) 2 else base k := by
    intro m
    induction m with
    | zero =>
      intro _ k
      rw [forRange_zero, if_neg (by omega)]
    | succ m ih =>
      intro hm k
      have hprev := ih (by omega)
      rw [forRange_succ]
      rcases eq_or_ne k (off + m) with rfl | hne
      · rw [Function.update_self, hprev, hprev, if_neg (by omega), if_neg (by omega),
          if_pos (by omega)]
      · have hiff : off ≤ k ∧ k < off + m ↔ off ≤ k ∧ k < off + (m + 1) := by omega
        rw [Function.update_of_ne hne, hprev, if_congr hiff rfl rfl]
  rw [xorColumns, hbase]
  exact hloop 8 (le_refl 8) k

/-! ### One round -/

/-- The words before the columns of one round are added up. -/
def scheduleInput (off : ℕ) (rconst : List ℕ) (rkeys : Words) : Words :=
  rconst.foldl (fun rkeys i => Function.update rkeys i (rkeys i ^^^ 0x00000300#32))
    (onWords (onWords rkeys off fun _ => advance rkeys (off - 8)) off sbox)

theorem scheduleRound_eq (off : ℕ) (rconst : List ℕ) (rkeys : Words) :
    scheduleRound off rconst rkeys = xorColumns (scheduleInput off rconst rkeys) off 8 2 := rfl

section Round

variable (rkeys : Words) (n : ℕ) (rconst : List ℕ) (hnodup : rconst.Nodup)
  (hin : ∀ i ∈ rconst, 8 * (n + 1) ≤ i ∧ i < 8 * (n + 1) + 8)

include hnodup hin

theorem notWords_scheduleInput_of_ne (r : ℕ) (hr : r ≠ n + 1) (i : ℕ) (hi : i < 8) :
    notWords (scheduleInput (8 * (n + 1)) rconst rkeys) (8 * (n + 1)) (8 * r + i) =
      rkeys (8 * r + i) := by
  have hconst : 8 * r + i ∉ rconst := fun h => by
    have hrange := hin _ h
    omega
  rw [notWords_apply, if_neg (by omega), scheduleInput, foldl_rconst rconst hnodup, if_neg hconst]
  exact (advance_onWords_of_ne _ (n + 1) r sbox hr i hi).trans
    (advance_onWords_of_ne rkeys (n + 1) r _ hr i hi)

theorem scheduleRound_of_ne (r : ℕ) (hr : r ≠ n + 1) : ∀ i < 8,
    advance (scheduleRound (8 * (n + 1)) rconst rkeys) (8 * r) i = advance rkeys (8 * r) i := by
  intro i hi
  rw [advance, scheduleRound_eq, xorColumns_apply _ _ _ (by omega), if_neg (by omega),
    notWords_scheduleInput_of_ne rkeys n rconst hnodup hin r hr i hi, advance]

/- The new words are the next key, computed from the last one. -/
theorem holds_scheduleRound (l : ℕ) (hl : l < 2) (rc : Byte)
    (hrc : ∀ i < 8, rc.getLsbD (7 - i) = decide (8 * (n + 1) + i ∈ rconst)) (p new : Block)
    (hp : Holds l (advance rkeys (8 * n)) p)
    (hn : ∀ j < 16, byteAt new j = byteAt p j ^^^
      if j < 4 then byteAt (xorBlocks (Aes.subBytes p) (rconBlock rc)) (12 + (j + 1) % 4)
      else byteAt new (j - 4)) :
    Holds l (advance (scheduleRound (8 * (n + 1)) rconst rkeys) (8 * (n + 1))) new := by
  have hcopy : Holds l (advance (onWords rkeys (8 * (n + 1)) fun _ =>
      advance rkeys (8 * (n + 1) - 8)) (8 * (n + 1))) p :=
    hp.congr fun i hi => advance_onWords_self rkeys (8 * (n + 1)) _ i hi
  have hsub := (holds_sbox l _ p hcopy).congr (advance_onWords_self _ (8 * (n + 1)) sbox)
  have hnot := holds_notWords l _ _ _ (holds_rconst l hl rconst hnodup _ rc hrc _ _ hsub)
  have hcur : xorBlocks (xorBlocks (subBytesLinear p) (rconBlock rc)) sboxConst =
      xorBlocks (Aes.subBytes p) (rconBlock rc) := by
    rw [subBytes_eq]
    funext j
    simp only [xorBlocks]
    ac_rfl
  rw [hcur] at hnot
  refine holds_xorColumnsWord l hl (advance rkeys (8 * n)) _ _ p _ new (fun i hi => ?_) hp hnot hn
  have hprev : 8 * (n + 1) + i - 8 = 8 * n + i := by omega
  rw [advance, scheduleRound_eq, xorColumns_apply _ _ _ (by omega), if_pos (by omega), hprev,
    notWords_scheduleInput_of_ne rkeys n rconst hnodup hin n (by omega) i hi]
  rfl

end Round

/-! ### The key expansion by bytes -/

theorem rcon_eq (n : ℕ) (j : Fin 4) : Aes.rcon (n + 1) j = if j = 0 then Aes.xtime^[n] 1 else 0 :=
  rfl

theorem byteAt_roundKey (w : ℕ → Byte) (r j : ℕ) (hj : j < 16) :
    byteAt (Aes.roundKey w r) j = w (16 * r + j) :=
  byteAt_fun (fun j => w (16 * r + j)) j hj

theorem roundKey_succ (key : Block) (n : ℕ) (hn : n < 10) (j : ℕ) (hj : j < 16) :
    byteAt (Aes.roundKey (Aes.keyExpansion key) (n + 1)) j =
      byteAt (Aes.roundKey (Aes.keyExpansion key) n) j ^^^
        if j < 4 then byteAt (xorBlocks (Aes.subBytes (Aes.roundKey (Aes.keyExpansion key) n))
          (rconBlock (Aes.xtime^[n] 1))) (12 + (j + 1) % 4)
        else byteAt (Aes.roundKey (Aes.keyExpansion key) (n + 1)) (j - 4) := by
  have hrow : j % 4 < 4 := Nat.mod_lt _ (by decide)
  have hword := congrFun (Aes.word_keyExpansion key (4 * n + j / 4) (by omega)) ⟨j % 4, hrow⟩
  generalize Aes.keyExpansion key = w at *
  have hpos : 4 * (4 * n + j / 4 + 4) + j % 4 = 16 * (n + 1) + j := by omega
  have hpos' : 4 * (4 * n + j / 4) + j % 4 = 16 * n + j := by omega
  simp only [Aes.word, hpos, hpos'] at hword
  rw [byteAt_roundKey w _ j hj, byteAt_roundKey w _ j hj, hword]
  congr 1
  simp only [Aes.scheduleWord]
  by_cases h4 : j < 4
  · have hdiv : (4 * n + j / 4 + 4) % 4 = 0 := by omega
    have hround : (4 * n + j / 4 + 4) / 4 = n + 1 := by omega
    have hlast : 4 * (4 * n + j / 4 + 4 - 1) + (j + 1) % 4 = 16 * n + (12 + (j + 1) % 4) := by omega
    have hnext : ((⟨j % 4, hrow⟩ : Fin 4) + 1).val = (j + 1) % 4 := by
      show (j % 4 + 1) % 4 = (j + 1) % 4
      omega
    have htop : Aes.subWord (Aes.rotWord (Aes.word w (4 * n + j / 4 + 4 - 1))) ⟨j % 4, hrow⟩ =
        Aes.sbox (w (16 * n + (12 + (j + 1) % 4))) := by
      rw [← hlast, ← hnext]
      rfl
    have hsub : byteAt (Aes.subBytes (Aes.roundKey w n)) (12 + (j + 1) % 4) =
        Aes.sbox (w (16 * n + (12 + (j + 1) % 4))) :=
      congrArg Aes.sbox (byteAt_roundKey w n _ (by omega))
    have hrcon : byteAt (rconBlock (Aes.xtime^[n] 1)) (12 + (j + 1) % 4) =
        Aes.rcon (n + 1) ⟨j % 4, hrow⟩ := by
      have hfront : 12 + (j + 1) % 4 = 13 ↔ (⟨j % 4, hrow⟩ : Fin 4) = 0 := by
        rw [Fin.ext_iff]
        show _ ↔ j % 4 = 0
        omega
      rw [rcon_eq, ← if_congr hfront rfl rfl]
      exact byteAt_fun (fun j => if j = 13 then Aes.xtime^[n] 1 else 0) _ (by omega)
    rw [if_pos hdiv, if_pos h4, hround, ← hrcon, htop, ← hsub]
    rfl
  · have hdiv : ¬ (4 * n + j / 4 + 4) % 4 = 0 := by omega
    have hprev : 4 * (4 * n + j / 4 + 4 - 1) + j % 4 = 16 * (n + 1) + (j - 4) := by omega
    rw [if_neg hdiv, if_neg h4, byteAt_roundKey w _ _ (by omega), ← hprev]
    rfl

/-! ### The whole schedule -/

theorem holds_invShiftrows1 (l : ℕ) (hl : l < 2) (s : Words) (x : Block) (h : Holds l s x) :
    Holds l (invShiftrows1 s) (rowsBy 3 x) := by
  have hword : ∀ i < 8, invShiftrows1 s i =
      swapWord 0x33003300#32 2 (swapWord 0x0c0f0300#32 4 (s i)) := by
    intro i hi
    simp only [invShiftrows1, swapMove_self, Function.update_self, Function.update_idem]
    rw [forRange_update 8 (fun _ x => swapWord 0x33003300#32 2 (swapWord 0x0c0f0300#32 4 x)),
      if_pos hi]
  refine (holds_rows l 3 _ _ ((wordWires_swapWord _ 4 (by decide) (by decide)).comp
    (wordWires_swapWord _ 2 (by decide) (by decide))) ?_ s x h).congr hword
  interval_cases l <;> decide +kernel

theorem holds_invShiftrows2 (l : ℕ) (hl : l < 2) (s : Words) (x : Block) (h : Holds l s x) :
    Holds l (invShiftrows2 s) (rowsBy 2 x) :=
  holds_doubleShiftrows l hl s x h

theorem holds_invShiftrows3 (l : ℕ) (hl : l < 2) (s : Words) (x : Block) (h : Holds l s x) :
    Holds l (invShiftrows3 s) (rowsBy 1 x) := by
  have hword : ∀ i < 8, invShiftrows3 s i =
      swapWord 0x33003300#32 2 (swapWord 0x030f0c00#32 4 (s i)) := by
    intro i hi
    simp only [invShiftrows3, swapMove_self, Function.update_self, Function.update_idem]
    rw [forRange_update 8 (fun _ x => swapWord 0x33003300#32 2 (swapWord 0x030f0c00#32 4 x)),
      if_pos hi]
  refine (holds_rows l 1 _ _ ((wordWires_swapWord _ 4 (by decide) (by decide)).comp
    (wordWires_swapWord _ 2 (by decide) (by decide))) ?_ s x h).congr hword
  interval_cases l <;> decide +kernel

/-- `m` round keys of `w` have been computed, the first `s` of them moved back. -/
def Scheduled (l : ℕ) (rkeys : Words) (w : ℕ → Byte) (m s : ℕ) : Prop :=
  ∀ r < m, Holds l (advance rkeys (8 * r))
    (if r < s then rowsBy (3 * r) (Aes.roundKey w r) else Aes.roundKey w r)

section Schedule

variable {l : ℕ} (hl : l < 2) {rkeys : Words} {key : Block} {m s : ℕ}

/- The first round key, in the words that `packing` fills. -/
theorem scheduled_packing (rkeys : Words) (hl : l < 2) :
    Scheduled l (onWords rkeys 0 fun _ => packing key key) (Aes.keyExpansion key) 1 0 := by
  intro r hr
  have h0 : r = 0 := by omega
  have hkey : Aes.roundKey (Aes.keyExpansion key) 0 = if l = 0 then key else key := by
    rw [ite_self]
    refine Aes.column_ext _ _ fun c hc => ?_
    rw [← Aes.word_keyExpansion_key key c hc]
    funext i
    have hi := i.isLt
    show byteAt (Aes.roundKey _ 0) (4 * c + i.val) = _
    rw [byteAt_roundKey _ _ _ (by omega), Nat.mul_zero, Nat.zero_add]
    rfl
  rw [h0, if_neg (Nat.lt_irrefl 0), hkey]
  exact (holds_packing key key l hl).congr fun i hi => advance_onWords_self rkeys 0 _ i hi

include hl in
theorem Scheduled.round (h : Scheduled l rkeys (Aes.keyExpansion key) (m + 1) s) (hs : s ≤ m)
    (hm : m < 10) (rconst : List ℕ) (hnodup : rconst.Nodup)
    (hin : ∀ i ∈ rconst, 8 * (m + 1) ≤ i ∧ i < 8 * (m + 1) + 8)
    (hrc : ∀ i < 8, (Aes.xtime^[m] 1).getLsbD (7 - i) = decide (8 * (m + 1) + i ∈ rconst)) :
    Scheduled l (scheduleRound (8 * (m + 1)) rconst rkeys) (Aes.keyExpansion key) (m + 2) s := by
  intro r hr
  rcases eq_or_ne r (m + 1) with rfl | hne
  · have hlast := h m (by omega)
    rw [if_neg (by omega)] at hlast
    rw [if_neg (by omega)]
    exact holds_scheduleRound rkeys m rconst hnodup hin l hl _ hrc _ _ hlast
      (roundKey_succ key m hm)
  · exact (h r (by omega)).congr (scheduleRound_of_ne rkeys m rconst hnodup hin r hne)

theorem Scheduled.skip (h : Scheduled l rkeys (Aes.keyExpansion key) m s) (hs : s % 4 = 0) :
    Scheduled l rkeys (Aes.keyExpansion key) m (s + 1) := by
  intro r hr
  have hold := h r hr
  rcases eq_or_ne r s with rfl | hne
  · have hrows : 3 * r = 0 + 4 * (3 * (r / 4)) := by omega
    rw [if_neg (Nat.lt_irrefl r)] at hold
    rwa [if_pos (Nat.lt_succ_self r), hrows, rowsBy_four, rowsBy_zero]
  · have hiff : r < s ↔ r < s + 1 := by omega
    rwa [if_congr hiff rfl rfl] at hold

theorem Scheduled.move (h : Scheduled l rkeys (Aes.keyExpansion key) m s) (f : Words → Words)
    (a : ℕ) (hf : ∀ t x, Holds l t x → Holds l (f t) (rowsBy a x)) (ha : 3 * s % 4 = a) :
    Scheduled l (onWords rkeys (8 * s) f) (Aes.keyExpansion key) m (s + 1) := by
  intro r hr
  have hold := h r hr
  rcases eq_or_ne r s with rfl | hne
  · have hrows : 3 * r = a + 4 * (3 * r / 4) := by omega
    rw [if_neg (Nat.lt_irrefl r)] at hold
    rw [if_pos (Nat.lt_succ_self r), hrows, rowsBy_four]
    exact (hf _ _ hold).congr (advance_onWords_self rkeys (8 * r) f)
  · have hiff : r < s ↔ r < s + 1 := by omega
    rw [if_congr hiff rfl rfl] at hold
    exact hold.congr (advance_onWords_of_ne rkeys s r f hne)

end Schedule

theorem sliced_of_lt (w : ℕ → Byte) (r : ℕ) (hpos : 0 < r) (hr : r < 10) :
    slicedKey w r = xorBlocks (rowsBy (3 * r) (Aes.roundKey w r)) sboxConst := by
  rw [slicedKey, if_neg (by omega), if_neg (by omega)]

/- The last loop adds the NOTs to every round key but the first. -/
theorem holds_notLoop (l : ℕ) (rkeys : Words) (w : ℕ → Byte) (h : Scheduled l rkeys w 11 10)
    (r : ℕ) (hr : r < 11) :
    Holds l (advance (forRange 10 (fun n rkeys => notWords rkeys (8 * (n + 1))) rkeys) (8 * r))
      (slicedKey w r) := by
  have hloop := forRange_inv (fun m t => ∀ r < 11, Holds l (advance t (8 * r))
      (if 0 < r ∧ r ≤ m then slicedKey w r
        else if r < 10 then rowsBy (3 * r) (Aes.roundKey w r) else Aes.roundKey w r))
    10 (fun n rkeys => notWords rkeys (8 * (n + 1))) rkeys
    (fun r hr => by
      rw [if_neg (by omega)]
      exact h r hr)
    (fun n hn t ht r hr => by
      have hold := ht r hr
      rcases eq_or_ne r (n + 1) with rfl | hne
      · rw [if_neg (by omega)] at hold
        rw [if_pos (by omega)]
        have hnew := holds_notWords l t _ _ hold
        rcases Nat.lt_or_ge (n + 1) 10 with hlt | hge
        · rwa [if_pos hlt, ← sliced_of_lt w (n + 1) (by omega) hlt] at hnew
        · have h10 : n + 1 = 10 := by omega
          rw [if_neg (by omega)] at hnew
          rw [h10] at hnew ⊢
          exact hnew
      · have hiff : 0 < r ∧ r ≤ n ↔ 0 < r ∧ r ≤ n + 1 := by omega
        rw [if_congr hiff rfl rfl] at hold
        refine hold.congr fun i hi => ?_
        rw [advance, advance, notWords_apply, if_neg (by omega)])
  have hfinal := hloop r hr
  rcases Nat.eq_zero_or_pos r with rfl | hpos
  · rwa [if_neg (by omega), if_pos (by omega), Nat.mul_zero, rowsBy_zero] at hfinal
  · rwa [if_pos ⟨hpos, by omega⟩] at hfinal

/- The schedule step by step: each line is one of the four moves above. -/
theorem holdsKeys_aes128KeyscheduleFfs (rkeys : Words) (key : Block) :
    HoldsKeys (aes128KeyscheduleFfs rkeys key) (Aes.keyExpansion key) := by
  intro l hl r hr
  have h1 := holds_invShiftrows1 l hl
  have h2 := holds_invShiftrows2 l hl
  have h3 := holds_invShiftrows3 l hl
  refine holds_notLoop l _ _ ?_ r hr
  have k0 : Scheduled l (onWords rkeys 0 fun _ => packing key key) (Aes.keyExpansion key) 1 0 :=
    scheduled_packing rkeys hl
  have k1 := (k0.round hl (by decide) (by decide) [15] (by decide) (by decide) (by decide)).skip rfl
  have k2 := (k1.round hl (by decide) (by decide) [22] (by decide) (by decide) (by decide)).move _ 3
    h1 rfl
  have k3 := (k2.round hl (by decide) (by decide) [29] (by decide) (by decide) (by decide)).move _ 2
    h2 rfl
  have k4 := (k3.round hl (by decide) (by decide) [36] (by decide) (by decide) (by decide)).move _ 1
    h3 rfl
  have k5 := (k4.round hl (by decide) (by decide) [43] (by decide) (by decide) (by decide)).skip rfl
  have k6 := (k5.round hl (by decide) (by decide) [50] (by decide) (by decide) (by decide)).move _ 3
    h1 rfl
  have k7 := (k6.round hl (by decide) (by decide) [57] (by decide) (by decide) (by decide)).move _ 2
    h2 rfl
  have k8 := (k7.round hl (by decide) (by decide) [64] (by decide) (by decide) (by decide)).move _ 1
    h3 rfl
  have k9 := (k8.round hl (by decide) (by decide) [79, 78, 76, 75] (by decide) (by decide)
    (by decide)).skip rfl
  exact (k9.round hl (by decide) (by decide) [86, 85, 83, 82] (by decide) (by decide)
    (by decide)).move _ 3 h1 rfl

/-! ### The cipher -/

theorem aes128EncryptFfs_scheduled (rkeys : Words) (key ptext0 ptext1 : Block) :
    aes128EncryptFfs ptext0 (some ptext1) (aes128KeyscheduleFfs rkeys key) =
      Iot.aes128EncryptFfs (Aes.aes128 key) ptext0 ptext1 :=
  aes128EncryptFfs_of_holdsKeys _ _ (holdsKeys_aes128KeyscheduleFfs rkeys key) ptext0 ptext1

/-- The portable `aes128_encrypt_ffs` under the keys of `aes128_keyschedule_ffs` is AES-128
on both blocks, and on the first one twice when there is no second. -/
theorem aes128EncryptFfs_fips197 (rkeys : Words) (key ptext0 : Block) (ptext1 : Option Block) :
    aes128EncryptFfs ptext0 ptext1 (aes128KeyscheduleFfs rkeys key) =
      (Aes.aes128 key ptext0, Aes.aes128 key (ptext1.getD ptext0)) := by
  cases ptext1 with
  | none => exact aes128EncryptFfs_scheduled rkeys key ptext0 ptext0
  | some ptext1 => exact aes128EncryptFfs_scheduled rkeys key ptext0 ptext1

end Pobc.Fixslice
