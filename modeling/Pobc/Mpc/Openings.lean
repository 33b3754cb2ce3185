import Pobc.Mpc.AesCorrect
import Pobc.Aes.Layers
import Mathlib.Data.Fintype.Pi

/-!
# What the openings of the embedded AES reveal

Each of the 400 values opened by a run is masked in eight coordinates, but an
embedded byte has up to 128. The other coordinates determine the byte up to its
lowest bit, and this bit leaves the S-boxes in a place where the next openings
show it. So the openings have the same distribution for two keys and blocks only
if these are equal.
-/

namespace Pobc.Mpc
open Pobc.Loop Pobc.Aes

/-! ### Related lists -/

theorem forall₂_append_inv {α : Type*} {R : α → α → Prop} (xs xs' ys ys' : List α)
    (hlen : xs.length = ys.length) (h : List.Forall₂ R (xs ++ xs') (ys ++ ys')) :
    List.Forall₂ R xs ys ∧ List.Forall₂ R xs' ys' := by
  induction xs generalizing ys with
  | nil =>
    cases ys with
    | nil => exact ⟨List.Forall₂.nil, h⟩
    | cons y ys => cases hlen
  | cons x xs ih =>
    cases ys with
    | nil => cases hlen
    | cons y ys =>
      cases h with
      | cons hhead htail =>
        obtain ⟨hxs, hrest⟩ := ih ys (Nat.succ.inj hlen) htail
        exact ⟨List.Forall₂.cons hhead hxs, hrest⟩

theorem forall₂_flatMap_inv {ι α : Type*} {R : α → α → Prop} (f g : ι → List α) (l : List ι)
    (h : List.Forall₂ R (l.flatMap f) (l.flatMap g)) (hlen : ∀ i, (f i).length = (g i).length) :
    ∀ i ∈ l, List.Forall₂ R (f i) (g i) := by
  induction l with
  | nil => intro i hi; cases hi
  | cons a l ih =>
    rw [List.flatMap_cons, List.flatMap_cons] at h
    obtain ⟨hhead, htail⟩ := forall₂_append_inv _ _ _ _ (hlen a) h
    intro i hi
    rcases List.mem_cons.mp hi with rfl | hmem
    · exact hhead
    · exact ih htail i hmem

/-! ### One S-box -/

theorem zeroOne_xor (a b : Byte) (ha : ZeroOne a) (hb : ZeroOne b) : ZeroOne (a ^^^ b) := by
  rcases ha with rfl | rfl <;> rcases hb with rfl | rfl <;> simp [ZeroOne]

/- Off the masked coordinates an embedded byte determines all but bit 0. -/
theorem zeroOne_of_sameOutside (a b : Byte) (h : SameOutside wantedPositions (emb a) (emb b)) :
    ZeroOne (a ^^^ b) := by
  -- seven of these coordinates are enough
  have htable : ∀ d : Byte, (∀ k ∈ [2, 5, 6, 8, 11, 12, 14], (emb d).bits.getLsbD k = false) →
      d = 0 ∨ d = 1 := by decide +kernel
  have hout : ∀ k ∈ [2, 5, 6, 8, 11, 12, 14], k ∉ wantedPositions := by decide
  refine htable (a ^^^ b) fun k hk => ?_
  rw [emb_xor, Gf.bits_add, BitVec.getLsbD_xor, h k (hout k hk), Bool.xor_self]

theorem xor_xor_xor_self (a b c : Byte) : (a ^^^ c) ^^^ (b ^^^ c) = a ^^^ b := by
  rw [BitVec.xor_assoc, BitVec.xor_comm b c, ← BitVec.xor_assoc c, BitVec.xor_self,
    BitVec.zero_xor]

/- With input and inverse both known up to bit 0, the outputs differ by `0x1f` or
not at all. -/
theorem sbox_diff (a b : Byte)
    (h : List.Forall₂ (SameOutside wantedPositions) (sboxOpenings a) (sboxOpenings b)) :
    ZeroOne (a ^^^ b) ∧
      ∃ δ : Bool, (δ = false → a = b) ∧ sbox a ^^^ sbox b = if δ then 0x1f else 0 := by
  cases h with
  | cons hinput hrest =>
    cases hrest with
    | cons hinverse _ =>
      refine ⟨zeroOne_of_sameOutside a b hinput, ?_⟩
      have hout : sbox a ^^^ sbox b =
          affineLinear ((gfInv (lane a)).bits ^^^ (gfInv (lane b)).bits) := by
        rw [affineLinear_xor, sbox, sbox, xor_xor_xor_self]
      rcases zeroOne_of_sameOutside _ _ hinverse with hzero | hone
      · have hS : sbox a ^^^ sbox b = 0#8 := by
          rw [hout, hzero]
          decide
        exact ⟨false, fun _ => sbox_injective (BitVec.xor_eq_zero_iff.mp hS), hS⟩
      · refine ⟨true, fun hδ => Bool.noConfusion hδ, ?_⟩
        rw [hout, hone]
        decide

/- A difference of `0x1f` is neither zero nor one. -/
theorem eq_of_zeroOne_sbox (a b : Byte)
    (h : List.Forall₂ (SameOutside wantedPositions) (sboxOpenings a) (sboxOpenings b))
    (hzeroOne : ZeroOne (sbox a ^^^ sbox b)) : a = b := by
  obtain ⟨_, δ, heq, hdiff⟩ := sbox_diff a b h
  cases δ with
  | false => exact heq rfl
  | true =>
    rw [hdiff] at hzeroOne
    exact absurd hzeroOne (by unfold ZeroOne; decide)

/-! ### The key schedule -/

section KeySchedule

variable (key key' : Block)

def wordDiff (i : ℕ) (j : Fin 4) : Byte :=
  word (keyExpansion key) i j ^^^ word (keyExpansion key') i j

theorem wordDiff_eq_zero_iff (i : ℕ) : (∀ j, wordDiff key key' i j = 0) ↔
    word (keyExpansion key) i = word (keyExpansion key') i := by
  constructor
  · intro h
    funext j
    exact BitVec.xor_eq_zero_iff.mp (h j)
  · intro h j
    rw [wordDiff, h]
    exact BitVec.xor_self

theorem xor_xor_xor_comm (a b c d : Byte) : (a ^^^ b) ^^^ (c ^^^ d) = (a ^^^ c) ^^^ (b ^^^ d) :=
  lane_inj (add_add_add_comm (lane a) (lane b) (lane c) (lane d))

theorem wordDiff_linear (n : ℕ) (hn : n < 40) (hmod : n % 4 ≠ 0) (j : Fin 4) :
    wordDiff key key' (n + 4) j = wordDiff key key' n j ^^^ wordDiff key key' (n + 3) j := by
  have hrow : ¬ (n + 4) % 4 = 0 := by omega
  simp only [wordDiff, word_keyExpansion key n hn, word_keyExpansion key' n hn, scheduleWord,
    if_neg hrow]
  exact xor_xor_xor_comm _ _ _ _

theorem wordDiff_sbox (n : ℕ) (hn : n < 40) (hmod : n % 4 = 0) (j : Fin 4) :
    wordDiff key key' (n + 4) j = wordDiff key key' n j ^^^
      (sbox (word (keyExpansion key) (n + 3) (j + 1)) ^^^
        sbox (word (keyExpansion key') (n + 3) (j + 1))) := by
  have hrow : (n + 4) % 4 = 0 := by omega
  simp only [wordDiff, word_keyExpansion key n hn, word_keyExpansion key' n hn, scheduleWord,
    if_pos hrow]
  rw [xor_xor_xor_comm, xor_xor_xor_self]
  rfl

/- Inside a round, two of three words decide the third. -/
theorem zeroOne_between (n : ℕ) (hn : n < 40) (hmod : n % 4 ≠ 0)
    (hlo : ∀ j, ZeroOne (wordDiff key key' n j))
    (hhi : ∀ j, ZeroOne (wordDiff key key' (n + 4) j)) :
    ∀ j, ZeroOne (wordDiff key key' (n + 3) j) := by
  intro j
  have hlin := wordDiff_linear key key' n hn hmod j
  have hthird : wordDiff key key' (n + 3) j =
      wordDiff key key' n j ^^^ wordDiff key key' (n + 4) j := by
    rw [hlin, ← BitVec.xor_assoc, BitVec.xor_self, BitVec.zero_xor]
  rw [hthird]
  exact zeroOne_xor _ _ (hlo j) (hhi j)

theorem equal_between (n : ℕ) (hn : n < 40) (hmod : n % 4 ≠ 0)
    (hlo : ∀ j, wordDiff key key' n j = 0) (hhi : ∀ j, wordDiff key key' (n + 4) j = 0) :
    ∀ j, wordDiff key key' (n + 3) j = 0 := by
  intro j
  have hlin := wordDiff_linear key key' n hn hmod j
  rw [hlo j, hhi j] at hlin
  exact (BitVec.zero_xor.symm.trans hlin.symm)

/- Four equal words in a row reach back to the key. -/
theorem equal_back (m : ℕ) (hm : m ≤ 40)
    (h : ∀ i < 4, word (keyExpansion key) (m + i) = word (keyExpansion key') (m + i)) :
    key = key' := by
  induction m with
  | zero =>
    refine column_ext key key' fun c hc => ?_
    rw [← word_keyExpansion_key key c hc, ← word_keyExpansion_key key' c hc]
    have hc' := h c hc
    rwa [Nat.zero_add] at hc'
  | succ m ih =>
    refine ih (by omega) fun i hi => ?_
    rcases Nat.eq_zero_or_pos i with rfl | hpos
    · -- word `m` from words `m + 4` and `m + 3`
      have h4 : word (keyExpansion key) (m + 4) = word (keyExpansion key') (m + 4) := by
        have h3 := h 3 (by omega)
        rwa [Nat.add_assoc] at h3
      have htemp : scheduleWord (keyExpansion key) (m + 4) =
          scheduleWord (keyExpansion key') (m + 4) := by
        refine scheduleWord_congr _ _ _ ?_
        have h2 := h 2 (by omega)
        rwa [Nat.add_assoc] at h2
      rw [word_keyExpansion key m (by omega), word_keyExpansion key' m (by omega), htemp] at h4
      funext j
      exact (BitVec.xor_left_inj _).mp (congrFun h4 j)
    · have hi' := h (i - 1) (by omega)
      have hidx : m + 1 + (i - 1) = m + i := by omega
      rwa [hidx] at hi'

theorem key_sboxes (h : List.Forall₂ (SameOutside wantedPositions) (keyOpenings key)
    (keyOpenings key')) (r : ℕ) (hr : r < 10) (j : Fin 4) :
    List.Forall₂ (SameOutside wantedPositions)
      (sboxOpenings (word (keyExpansion key) (4 * r + 3) j))
      (sboxOpenings (word (keyExpansion key') (4 * r + 3) j)) := by
  have hlen : ∀ n, (wordOpenings (forRange n expandStep (keyBytes key 0)) (n + 4)).length =
      (wordOpenings (forRange n expandStep (keyBytes key' 0)) (n + 4)).length := by
    intro n
    rw [length_wordOpenings, length_wordOpenings]
  have hword := forall₂_flatMap_inv _ _ _ h hlen (4 * r) (List.mem_range.mpr (by omega))
  have hrow : (4 * r + 4) % 4 = 0 := by omega
  simp only [wordOpenings, if_pos hrow] at hword
  have hall : ∀ j : Fin 4, j ∈ [1, 2, 3, 0] := by decide
  have hbyte := forall₂_flatMap_inv _ _ _ hword (fun _ => by
    rw [length_sboxOpenings, length_sboxOpenings]) j (hall j)
  -- word `4r + 3` is final when round `4r` reads it
  have hfinal : ∀ key : Block, word (forRange (4 * r) expandStep (keyBytes key 0)) (4 * r + 4 - 1) =
      word (keyExpansion key) (4 * r + 3) := by
    intro key
    have hkeep := word_forRange_expandStep (keyBytes key 0) (4 * r) (40 - 4 * r) (4 * r + 3)
      (by omega)
    have hsum : 4 * r + (40 - 4 * r) = 40 := by omega
    rw [hsum] at hkeep
    exact hkeep.symm
  rwa [hfinal key, hfinal key'] at hbyte

theorem key_eq_of_openings (h : List.Forall₂ (SameOutside wantedPositions) (keyOpenings key)
    (keyOpenings key')) : key = key' := by
  have hsbox := key_sboxes key key' h
  have zeroOne3 : ∀ r < 10, ∀ j, ZeroOne (wordDiff key key' (4 * r + 3) j) :=
    fun r hr j => (sbox_diff _ _ (hsbox r hr j)).1
  have zeroOne2 : ∀ r < 9, ∀ j, ZeroOne (wordDiff key key' (4 * r + 6) j) := fun r hr =>
    zeroOne_between key key' (4 * r + 3) (by omega) (by omega) (zeroOne3 r (by omega))
      (zeroOne3 (r + 1) (by omega))
  have zeroOne1 : ∀ r < 8, ∀ j, ZeroOne (wordDiff key key' (4 * r + 9) j) := fun r hr =>
    zeroOne_between key key' (4 * r + 6) (by omega) (by omega) (zeroOne2 r (by omega))
      (zeroOne2 (r + 1) (by omega))
  have zeroOne0 : ∀ r < 7, ∀ j, ZeroOne (wordDiff key key' (4 * r + 12) j) := fun r hr =>
    zeroOne_between key key' (4 * r + 9) (by omega) (by omega) (zeroOne1 r (by omega))
      (zeroOne1 (r + 1) (by omega))
  -- an S-box output between two such words is one too, so its input is known
  have equal3 : ∀ r < 6, ∀ j, wordDiff key key' (4 * r + 15) j = 0 := by
    intro r hr
    rw [wordDiff_eq_zero_iff]
    funext j
    have hback : j - 1 + 1 = j := sub_add_cancel j 1
    have hstep := wordDiff_sbox key key' (4 * r + 12) (by omega) (by omega) (j - 1)
    rw [hback] at hstep
    have hout : ZeroOne (sbox (word (keyExpansion key) (4 * r + 12 + 3) j) ^^^
        sbox (word (keyExpansion key') (4 * r + 12 + 3) j)) := by
      have hdiff := zeroOne_xor _ _ (zeroOne0 r (by omega) (j - 1))
        (zeroOne0 (r + 1) (by omega) (j - 1))
      have hidx : 4 * (r + 1) + 12 = 4 * r + 12 + 4 := by omega
      rw [hidx, hstep, ← BitVec.xor_assoc, BitVec.xor_self, BitVec.zero_xor] at hdiff
      exact hdiff
    exact eq_of_zeroOne_sbox _ _ (hsbox (r + 3) (by omega) j) hout
  have equal2 : ∀ r < 5, ∀ j, wordDiff key key' (4 * r + 18) j = 0 := fun r hr =>
    equal_between key key' (4 * r + 15) (by omega) (by omega) (equal3 r (by omega))
      (equal3 (r + 1) (by omega))
  have equal1 : ∀ r < 4, ∀ j, wordDiff key key' (4 * r + 21) j = 0 := fun r hr =>
    equal_between key key' (4 * r + 18) (by omega) (by omega) (equal2 r (by omega))
      (equal2 (r + 1) (by omega))
  have equal0 : ∀ r < 3, ∀ j, wordDiff key key' (4 * r + 24) j = 0 := fun r hr =>
    equal_between key key' (4 * r + 21) (by omega) (by omega) (equal1 r (by omega))
      (equal1 (r + 1) (by omega))
  refine equal_back key key' 24 (by omega) fun i hi => ?_
  rw [← wordDiff_eq_zero_iff]
  have hcases : i = 0 ∨ i = 1 ∨ i = 2 ∨ i = 3 := by omega
  rcases hcases with rfl | rfl | rfl | rfl
  · exact equal0 0 (by omega)
  · exact equal1 1 (by omega)
  · exact equal2 2 (by omega)
  · exact equal3 3 (by omega)

end KeySchedule

/-! ### The block -/

/- The differences `0x1f` of one column spread by
`MixColumns` are never all zero or one. -/
theorem mixColumn_zeroOne : ∀ d : Fin 4 → Bool,
    (∀ r, Aes.mixColumn (fun j => if d j then 0x1f else 0) r = 0 ∨
      Aes.mixColumn (fun j => if d j then 0x1f else 0) r = 1) → ∀ j, d j = false := by
  decide +kernel

theorem block_sboxes (w : ℕ → Byte) (s s' : Block) (h : List.Forall₂ (SameOutside wantedPositions)
    (mainOpenings w s) (mainOpenings w s')) (n : ℕ) (hn : n < 10) (i : Fin 16) :
    List.Forall₂ (SameOutside wantedPositions) (sboxOpenings (roundState w s n i))
      (sboxOpenings (roundState w s' n i)) := by
  have hlen : ∀ n, ((List.range 16).flatMap fun i =>
      sboxOpenings (byteAt (roundState w s n) i)).length =
      ((List.range 16).flatMap fun i => sboxOpenings (byteAt (roundState w s' n) i)).length := by
    intro n
    simp only [List.length_flatMap, length_sboxOpenings]
  have hround := forall₂_flatMap_inv _ _ _ h hlen n (List.mem_range.mpr hn)
  have hbyte := forall₂_flatMap_inv _ _ _ hround (fun _ => by
    rw [length_sboxOpenings, length_sboxOpenings]) i.val (List.mem_range.mpr i.isLt)
  rwa [byteAt_val, byteAt_val] at hbyte

theorem column_roundState (w : ℕ → Byte) (s : Block) (n c : ℕ) (r : Fin 4) (hc : c < 4) :
    column (roundState w s (n + 1)) c r =
      Aes.mixColumn (column (Aes.shiftRows (Aes.subBytes (roundState w s n))) c) r ^^^
        column (roundKey w (n + 1)) c r := by
  rw [← column_ofColumns (fun c => Aes.mixColumn
    (column (Aes.shiftRows (Aes.subBytes (roundState w s n))) c)) c hc]
  rfl

theorem block_eq_of_openings (w : ℕ → Byte) (s s' : Block)
    (h : List.Forall₂ (SameOutside wantedPositions) (mainOpenings w s) (mainOpenings w s')) :
    s = s' := by
  let a := roundState w s 0
  let a' := roundState w s' 0
  have hfirst := fun i => sbox_diff _ _ (block_sboxes w s s' h 0 (by omega) i)
  choose _ δ _ hδ using hfirst
  have hsub : ∀ i, Aes.subBytes a i ^^^ Aes.subBytes a' i = if δ i then 0x1f else 0 := hδ
  have hshift : ∀ i, Aes.shiftRows (Aes.subBytes a) i ^^^ Aes.shiftRows (Aes.subBytes a') i =
      if Aes.shiftRows δ i then 0x1f else 0 := fun i => hsub _
  have hsecond : ∀ i, ZeroOne (roundState w s 1 i ^^^ roundState w s' 1 i) := fun i =>
    (sbox_diff _ _ (block_sboxes w s s' h 1 (by omega) i)).1
  have hcols : ∀ c < 4, column (Aes.shiftRows (Aes.subBytes a)) c =
      column (Aes.shiftRows (Aes.subBytes a')) c := by
    intro c hc
    have hdiff : ∀ j, column (Aes.shiftRows (Aes.subBytes a)) c j ^^^
        column (Aes.shiftRows (Aes.subBytes a')) c j =
        if column (Aes.shiftRows δ) c j then 0x1f else 0 := fun j => hshift _
    have hmix : ∀ r, ZeroOne (Aes.mixColumn
        (fun j => if column (Aes.shiftRows δ) c j then 0x1f else 0) r) := by
      intro r
      have hlin := congrFun (mixColumn_xor (column (Aes.shiftRows (Aes.subBytes a)) c)
        (column (Aes.shiftRows (Aes.subBytes a')) c)) r
      have hbyte : ZeroOne (column (roundState w s 1) c r ^^^ column (roundState w s' 1) c r) :=
        hsecond _
      rw [column_roundState w s 0 c r hc, column_roundState w s' 0 c r hc,
        xor_xor_xor_self] at hbyte
      simp only [hdiff] at hlin
      rw [hlin]
      exact hbyte
    funext j
    have hzero := mixColumn_zeroOne (column (Aes.shiftRows δ) c) hmix j
    have hj := hdiff j
    rw [hzero] at hj
    exact BitVec.xor_eq_zero_iff.mp hj
  have hshifted := column_ext _ _ hcols
  exact xorBlocks_injective _ (subBytes_injective (shiftRows_injective hshifted))

/-! ### Two runs -/

/-- A run before its first step, with the random bits it will draw. -/
def startRun (bits : Fin 3200 → Bool) : Run :=
  ⟨fun i => if h : i < 3200 then bits ⟨i, h⟩ else false, 0, []⟩

/-- The values opened while `expandAESKey` and `aesMain` run. -/
def openedBy (key block : Block) (bits : Fin 3200 → Bool) : List Gf2n :=
  (expandAndEncrypt (rawBlock key) (rawBlock block) (startRun bits)).2.opened

/- A run draws exactly the bits it starts with. -/
theorem used_eq (key block : Block) (bits : Fin 3200 → Bool) :
    (expandAndEncrypt (rawBlock key) (rawBlock block) (startRun bits)).2.used = 3200 := by
  have hkey : (keyOpenings key).length = 80 := by
    simp only [keyOpenings, List.length_flatMap, length_wordOpenings]
    rfl
  have hmain : (mainOpenings (keyExpansion key) block).length = 320 := by
    simp only [mainOpenings, List.length_flatMap, length_sboxOpenings]
    rfl
  rw [expandAndEncrypt_computes key block]
  simp only [Run.after, startRun, List.length_append, hkey, hmain]
  rfl

theorem openedBy_eq (key block : Block) (bits : Fin 3200 → Bool) : openedBy key block bits =
    openings wantedPositions (startRun bits).bits 0
      (keyOpenings key ++ mainOpenings (keyExpansion key) block) := by
  rw [openedBy, expandAndEncrypt_computes key block]
  exact List.nil_append _

/-- The openings of the two runs have the same distribution over uniform bits. -/
def OpenedAlike (key block key' block' : Block) : Prop :=
  ∃ σ : Equiv.Perm (Fin 3200 → Bool),
    ∀ bits, openedBy key block bits = openedBy key' block' (σ bits)

theorem equal_of_openedAlike (key block key' block' : Block)
    (h : OpenedAlike key block key' block') : key = key' ∧ block = block' := by
  obtain ⟨σ, hσ⟩ := h
  have hopen := hσ fun _ => false
  rw [openedBy_eq, openedBy_eq] at hopen
  have hseen := sameOutside_of_openings wantedPositions (by decide) _ _ 0 _ _ hopen
  have hlen : (keyOpenings key).length = (keyOpenings key').length := by
    simp only [keyOpenings, List.length_flatMap, length_wordOpenings]
  obtain ⟨hkeys, hmains⟩ := forall₂_append_inv _ _ _ _ hlen hseen
  have hkey := key_eq_of_openings key key' hkeys
  subst hkey
  exact ⟨rfl, block_eq_of_openings (keyExpansion key) block block' hmains⟩

/-- The openings hide nothing only between equal inputs. -/
theorem openedAlike_iff (key block key' block' : Block) :
    OpenedAlike key block key' block' ↔ key = key' ∧ block = block' := by
  constructor
  · exact equal_of_openedAlike key block key' block'
  · rintro ⟨rfl, rfl⟩
    exact ⟨Equiv.refl _, fun _ => rfl⟩

theorem two_blocks_told_apart : ¬ OpenedAlike zeroBlock zeroBlock zeroBlock (fun _ => 2) := by
  intro h
  have hblock := (equal_of_openedAlike zeroBlock zeroBlock zeroBlock (fun _ => 2) h).2
  exact absurd (congrFun hblock 0) (by decide)

end Pobc.Mpc
