import Pobc.Iot.Eevee
import Pobc.Lib.Keyed
import Mathlib.Data.List.GetD

/-!
# The associated data of the Eevee modes

Both modes cut the associated data into blocks, pad the last one, and give every
block to the forkcipher under a tweak with a counter of its own. The blocks are
those of the padded string, so what one call feeds to the forkcipher is a multiset
of keyed blocks.
-/

namespace Pobc.Iot
open Pobc.Loop Pobc.Pad Pobc.Keyed

/- A flag with two values tells the two cases apart. -/
theorem flag_eq_iff {α : Type*} {x y : α} (hne : x ≠ y) (p q : Prop) [Decidable p] [Decidable q] :
    ((if p then x else y) = if q then x else y) ↔ (p ↔ q) := by
  split_ifs with hp hq hq
  · exact iff_of_true rfl (iff_of_true hp hq)
  · exact iff_of_false hne fun hiff => hq (hiff.mp hp)
  · exact iff_of_false hne.symm fun hiff => hp (hiff.mpr hq)
  · exact iff_of_true rfl (iff_of_false hp hq)

/-- What the `_ad` functions of the two modes differ in: where the counter bytes
stand, the part of the tweakey that is the tweak, the counter, and the right leg of
the forkcipher under a tweakey. -/
structure AdParams (n : ℕ) (Tweak : Type) where
  hiPos : ℕ
  loPos : ℕ
  tweakOf : Buffer → Tweak
  counter : ℕ → Byte × Byte
  leg : Buffer → Blk n → Blk n

section Ad

variable {n : ℕ} {Tweak : Type} (P : AdParams n Tweak)

/-- One use of the forkcipher on associated data under the counter `ctr`. -/
def adCall (ctr : Byte × Byte) (adIn : Blk n) (s : EeveeState n Tweak) : EeveeState n Tweak :=
  let tweakey := setCounter P.hiPos P.loPos s.tweakey ctr
  let adOut := P.leg tweakey adIn
  { tweakey := tweakey
    tA := blockXor s.tA adOut
    calls := s.calls ++ [(P.tweakOf tweakey, adIn)] }

/-- The loop over the whole blocks and the last block (`jolteon_core.c:7-60`,
`espeon.c:40-103`, `418-480`). -/
def eeveeAd (lastCtr : Byte × Byte) (ad : Buffer) (adlen : ℕ) (s : EeveeState n Tweak) :
    EeveeState n Tweak :=
  let nAdBlocks := fullBlocks n adlen
  let s := forRange nAdBlocks (fun i => adCall P (P.counter i) (readBlk n ad (i * n))) s
  adCall P lastCtr (lastBlk n ad adlen) s

end Ad

/-! ### Blocks -/

section Blocks

variable {n : ℕ}

/-- Block `i` as the loop and the code behind it read it. -/
def adBlk (n : ℕ) (ad : Buffer) (adlen i : ℕ) : Blk n :=
  if i < fullBlocks n adlen then readBlk n ad (i * n) else lastBlk n ad adlen

def padded (n : ℕ) (ad : List Byte) : List Byte := pad n 0x80 0 ad

theorem bufferOf_padded (ad : List Byte) (p : ℕ) :
    bufferOf (padded n ad) p = if p < ad.length then bufferOf ad p
      else if ad.length % n ≠ 0 ∧ p = ad.length then 0x80 else 0 := by
  unfold padded pad bufferOf
  by_cases hw : ad.length % n = 0
  · rw [if_pos hw]
    split_ifs with hp h
    · rfl
    · exact absurd hw h.1
    · rw [List.getD_eq_default _ _ (by omega)]
  · rw [if_neg hw]
    split_ifs with hp h
    · rw [List.getD_append _ _ _ _ hp]
    · rw [List.getD_append_right _ _ _ _ (by omega), h.2, Nat.sub_self, List.getD_cons_zero]
    · rw [List.getD_append_right _ _ _ _ (by omega)]
      have hpos : p - ad.length = (p - ad.length - 1) + 1 := by
        have hne : p ≠ ad.length := fun hp => h ⟨hw, hp⟩
        omega
      rw [hpos, List.getD_cons_succ]
      simp only [List.getD_eq_getElem?_getD, List.getElem?_replicate]
      split_ifs <;> rfl

/- The blocks the code builds are those of the padded string. -/
theorem adBlk_eq (ad : List Byte) (hn : 0 < n) (hne : ad ≠ []) (i : ℕ)
    (hi : i < fullBlocks n ad.length + 1) :
    adBlk n (bufferOf ad) ad.length i = readBlk n (bufferOf (padded n ad)) (n * i) := by
  have hpos : 0 < ad.length := List.length_pos_iff.mpr hne
  have hsplit := fullBlocks_add_lastLength n ad.length hpos
  have hlast := lastLength_le n ad.length hn
  refine Blk.ext_byte _ _ fun j hj => ?_
  rw [byte_readBlk _ _ _ hj, bufferOf_padded]
  unfold adBlk
  rcases Nat.lt_succ_iff_lt_or_eq.mp hi with hlt | rfl
  · have hle : n * (i + 1) ≤ n * fullBlocks n ad.length := Nat.mul_le_mul_left n hlt
    rw [Nat.mul_succ] at hle
    rw [if_pos hlt, byte_readBlk _ _ _ hj, if_pos (by omega), Nat.mul_comm]
  · rw [if_neg (Nat.lt_irrefl _), byte_lastBlk _ _ _ hpos hj]
    by_cases hj' : j < lastLength n ad.length
    · rw [if_pos hj', if_pos (by omega)]
    · have hpast : ¬ n * fullBlocks n ad.length + j < ad.length := by omega
      rw [if_neg hj', if_neg hpast]
      -- past the text there is a mark only when the last block is not whole
      have htail : ad.length % n ≠ 0 := by
        intro hw
        rw [lastLength, if_pos hw] at hj'
        omega
      by_cases hmark : j = lastLength n ad.length
      · rw [if_pos hmark, if_pos ⟨htail, by omega⟩]
      · have hzero : ¬ (ad.length % n ≠ 0 ∧ n * fullBlocks n ad.length + j = ad.length) :=
          fun h => hmark (by omega)
        rw [if_neg hmark, if_neg hzero]

theorem fullBlocks_eq_of_padded (ad ad' : List Byte) (hn : 0 < n) (hne : ad ≠ []) (hne' : ad' ≠ [])
    (h : (padded n ad).length = (padded n ad').length) :
    fullBlocks n ad.length = fullBlocks n ad'.length := by
  rw [padded, padded, length_pad n _ _ ad hn hne, length_pad n _ _ ad' hn hne'] at h
  have hcount := Nat.eq_of_mul_eq_mul_left hn h
  omega

/- Two strings of as many blocks are equal when their blocks are. -/
theorem padded_eq_iff (ad ad' : List Byte) (hn : 0 < n) (hne : ad ≠ []) (hne' : ad' ≠ [])
    (hblocks : fullBlocks n ad.length = fullBlocks n ad'.length) :
    (∀ i < fullBlocks n ad.length + 1, adBlk n (bufferOf ad) ad.length i =
        adBlk n (bufferOf ad') ad'.length i) ↔ padded n ad = padded n ad' := by
  have hlen : (padded n ad).length = n * (fullBlocks n ad.length + 1) :=
    length_pad n _ _ ad hn hne
  have hlen' : (padded n ad').length = (padded n ad).length := by
    rw [hlen, hblocks]
    exact length_pad n _ _ ad' hn hne'
  constructor
  · intro h
    rw [← bytesOf_bufferOf (padded n ad), ← bytesOf_bufferOf (padded n ad'), hlen']
    refine bytesOf_congr _ _ _ fun p hp => ?_
    have hdiv := Nat.div_add_mod p n
    have hmod := Nat.mod_lt p hn
    have hi : p / n < fullBlocks n ad.length + 1 := by
      rw [hlen] at hp
      exact Nat.div_lt_of_lt_mul hp
    have hblock := h (p / n) hi
    rw [adBlk_eq ad hn hne _ hi, adBlk_eq ad' hn hne' _ (hblocks ▸ hi)] at hblock
    have hbyte := congrArg (fun b => Blk.byte b (p % n)) hblock
    simp only [byte_readBlk _ _ _ hmod] at hbyte
    rwa [hdiv] at hbyte
  · intro h i hi
    rw [adBlk_eq ad hn hne i hi, adBlk_eq ad' hn hne' i (hblocks ▸ hi), h]

/-- The padded strings are the same up to an exchange of block `j` with the last. -/
def Exchanged (n j : ℕ) (ad ad' : List Byte) : Prop :=
  (padded n ad).length = (padded n ad').length ∧
    ∀ i < fullBlocks n ad.length + 1,
      readBlk n (bufferOf (padded n ad)) (n * Equiv.swap j (fullBlocks n ad.length) i) =
        readBlk n (bufferOf (padded n ad')) (n * i)

theorem exchanged_iff (ad ad' : List Byte) (hn : 0 < n) (hne : ad ≠ []) (hne' : ad' ≠ [])
    (hblocks : fullBlocks n ad.length = fullBlocks n ad'.length) (j : ℕ)
    (hj : j < fullBlocks n ad.length) :
    Exchanged n j ad ad' ↔ ∀ i < fullBlocks n ad.length + 1,
      adBlk n (bufferOf ad) ad.length (Equiv.swap j (fullBlocks n ad.length) i) =
        adBlk n (bufferOf ad') ad'.length i := by
  have hlength : (padded n ad).length = (padded n ad').length := by
    rw [padded, padded, length_pad n _ _ ad hn hne, length_pad n _ _ ad' hn hne', hblocks]
  have hswap : ∀ i < fullBlocks n ad.length + 1,
      Equiv.swap j (fullBlocks n ad.length) i < fullBlocks n ad.length + 1 := by
    intro i hi
    rw [Equiv.swap_apply_def]
    split_ifs <;> omega
  unfold Exchanged
  rw [and_iff_right hlength]
  refine forall_congr' fun i => forall_congr' fun hi => ?_
  rw [adBlk_eq ad hn hne _ (hswap i hi), adBlk_eq ad' hn hne' i (hblocks ▸ hi)]

/-! ### Blocks as a group -/

/-- A block as a vector of field elements: XOR is the sum. -/
def lanes (b : Blk n) : Fin n → AesField := fun j => lane (b j)

theorem lanes_blockXor (x y : Blk n) : lanes (blockXor x y) = lanes x + lanes y := rfl

theorem lanes_injective : Function.Injective (lanes : Blk n → Fin n → AesField) := by
  intro x y h
  funext j
  exact lane_inj (congrFun h j)

theorem exists_third_block (hn : 0 < n) (x x' : Blk n) : ∃ y, y ≠ x ∧ y ≠ x' := by
  have hbyte : ∀ u v : Byte, ∃ b : Byte, b ≠ u ∧ b ≠ v := by
    intro u v
    have h01 : (0 : Byte) ≠ 1 := by decide
    have h02 : (0 : Byte) ≠ 2 := by decide
    have h12 : (1 : Byte) ≠ 2 := by decide
    by_cases h0 : (0 : Byte) ≠ u ∧ (0 : Byte) ≠ v
    · exact ⟨0, h0⟩
    · by_cases h1 : (1 : Byte) ≠ u ∧ (1 : Byte) ≠ v
      · exact ⟨1, h1⟩
      · refine ⟨2, fun h => ?_, fun h => ?_⟩
        · subst h
          grind
        · subst h
          grind
  obtain ⟨b, hb, hb'⟩ := hbyte (x ⟨0, hn⟩) (x' ⟨0, hn⟩)
  exact ⟨fun _ => b, fun h => hb (congrFun h _), fun h => hb' (congrFun h _)⟩

end Blocks

/-! ### The recorded calls -/

section Calls

variable {n : ℕ} {Tweak : Type} (P : AdParams n Tweak)

def callTweak (tweakey : Buffer) (ctr : Byte × Byte) : Tweak :=
  P.tweakOf (setCounter P.hiPos P.loPos tweakey ctr)

/-- The counter of block `i`, the last one included. -/
def adKey (lastCtr : Byte × Byte) (adlen i : ℕ) : Byte × Byte :=
  if i < fullBlocks n adlen then P.counter i else lastCtr

theorem adKey_last (lastCtr : Byte × Byte) (adlen : ℕ) :
    adKey P lastCtr adlen (fullBlocks n adlen) = lastCtr := if_neg (Nat.lt_irrefl _)

theorem eeveeAd_eq (lastCtr : Byte × Byte) (ad : Buffer) (adlen : ℕ) (s : EeveeState n Tweak) :
    eeveeAd P lastCtr ad adlen s = forRange (fullBlocks n adlen + 1)
      (fun i => adCall P (adKey P lastCtr adlen i) (adBlk n ad adlen i)) s := by
  have hloop : forRange (fullBlocks n adlen)
        (fun i => adCall P (adKey P lastCtr adlen i) (adBlk n ad adlen i)) s =
      forRange (fullBlocks n adlen)
        (fun i => adCall P (P.counter i) (readBlk n ad (i * n))) s := by
    refine forRange_congr _ _ _ _ fun i hi t => ?_
    rw [adKey, adBlk, if_pos hi, if_pos hi]
  rw [forRange_succ, hloop, adKey_last, adBlk, if_neg (Nat.lt_irrefl _)]
  rfl

/-- The state after a number of calls: they are recorded in order, and the tweakey
has changed in the counter bytes only. -/
structure CallsInv (s₀ : EeveeState n Tweak) (calls : List (Tweak × Blk n))
    (s : EeveeState n Tweak) : Prop where
  calls : s.calls = s₀.calls ++ calls
  tweakey : ∀ ctr, setCounter P.hiPos P.loPos s.tweakey ctr =
    setCounter P.hiPos P.loPos s₀.tweakey ctr

theorem eeveeAd_inv (lastCtr : Byte × Byte) (ad : Buffer) (adlen : ℕ) (s₀ : EeveeState n Tweak) :
    CallsInv P s₀ ((List.range (fullBlocks n adlen + 1)).map fun i =>
        (callTweak P s₀.tweakey (adKey P lastCtr adlen i), adBlk n ad adlen i))
      (eeveeAd P lastCtr ad adlen s₀) := by
  rw [eeveeAd_eq]
  refine forRange_inv (fun b s => CallsInv P s₀ ((List.range b).map fun i =>
    (callTweak P s₀.tweakey (adKey P lastCtr adlen i), adBlk n ad adlen i)) s) _ _ _
    ⟨(List.append_nil _).symm, fun _ => rfl⟩ fun i _ s hs => ⟨?_, fun ctr => ?_⟩
  · simp only [adCall, hs.calls, hs.tweakey, List.range_succ, List.map_append, List.map_cons,
      List.map_nil, List.append_assoc, callTweak]
  · rw [← hs.tweakey ctr]
    exact setCounter_setCounter _ _ _ _ ctr

/- The running sum is that of the outputs of the recorded calls. -/
theorem eeveeAd_sum (E : Tweak → Blk n → Blk n)
    (hE : ∀ tweakey, P.leg tweakey = E (P.tweakOf tweakey)) (lastCtr : Byte × Byte) (ad : Buffer)
    (adlen : ℕ) (s₀ : EeveeState n Tweak)
    (h₀ : lanes s₀.tA = (s₀.calls.map fun p => lanes (E p.1 p.2)).sum) :
    lanes (eeveeAd P lastCtr ad adlen s₀).tA =
      ((eeveeAd P lastCtr ad adlen s₀).calls.map fun p => lanes (E p.1 p.2)).sum := by
  rw [eeveeAd_eq]
  refine forRange_inv (fun _ (s : EeveeState n Tweak) =>
    lanes s.tA = (s.calls.map fun p => lanes (E p.1 p.2)).sum) _ _ _ h₀ fun i _ s hs => ?_
  simp only [adCall]
  rw [lanes_blockXor, hs, List.map_append, List.sum_append, List.map_singleton,
    List.sum_singleton, hE]

/-- The (tweak, padded block) pairs of one run, without their order. -/
def keyedPairs (tweakey : Buffer) (lastCtr : Byte × Byte) (ad : List Byte) :
    Multiset (Tweak × Blk n) :=
  keyed (fun i => callTweak P tweakey (adKey P lastCtr ad.length i))
    (adBlk n (bufferOf ad) ad.length) (fullBlocks n ad.length + 1)

theorem coe_calls_eq (lastCtr : Byte × Byte) (ad : List Byte) (s₀ : EeveeState n Tweak)
    (h₀ : s₀.calls = []) :
    ((eeveeAd P lastCtr (bufferOf ad) ad.length s₀).calls : Multiset (Tweak × Blk n)) =
      keyedPairs P s₀.tweakey lastCtr ad := by
  rw [(eeveeAd_inv P lastCtr (bufferOf ad) ad.length s₀).calls, h₀, List.nil_append, keyedPairs,
    keyed, ← Multiset.map_coe, Multiset.coe_range]

/- Strings of as many blocks are processed under the same counters. -/
theorem keyedPairs_of_fullBlocks (tweakey : Buffer) (lastCtr : Byte × Byte) (ad ad' : List Byte)
    (hcount : fullBlocks n ad.length = fullBlocks n ad'.length) :
    keyedPairs P tweakey lastCtr ad' =
      keyed (fun i => callTweak P tweakey (adKey P lastCtr ad.length i))
        (adBlk n (bufferOf ad') ad'.length) (fullBlocks n ad.length + 1) := by
  have hkeys : ∀ i, adKey P lastCtr ad'.length i = adKey P lastCtr ad.length i := by
    intro i
    rw [adKey, adKey, hcount]
  simp only [keyedPairs, hkeys, hcount]

variable (tweakey : Buffer) (hinj : Function.Injective (callTweak P tweakey))
  (lastCtr lastCtr' : Byte × Byte) (ad ad' : List Byte)
include hinj

/- Equal multisets have as many blocks and the same last counter. -/
theorem shape_eq_of_keyedPairs
    (h : keyedPairs P tweakey lastCtr ad = keyedPairs P tweakey lastCtr' ad') :
    fullBlocks n ad.length = fullBlocks n ad'.length ∧ lastCtr = lastCtr' := by
  have hcount : fullBlocks n ad.length = fullBlocks n ad'.length := by
    have hcard := congrArg Multiset.card h
    rw [keyedPairs, keyedPairs, card_keyed, card_keyed] at hcard
    omega
  refine ⟨hcount, ?_⟩
  have hbelow : ∀ i < fullBlocks n ad.length,
      callTweak P tweakey (adKey P lastCtr ad.length i) =
        callTweak P tweakey (adKey P lastCtr' ad'.length i) := by
    intro i hi
    rw [adKey, adKey, if_pos hi, if_pos (hcount ▸ hi)]
  rw [keyedPairs, keyedPairs, ← hcount] at h
  have hlast := hinj (last_key_eq _ _ _ _ _ hbelow h)
  rw [adKey_last] at hlast
  rw [hlast, hcount, adKey_last]

/- All counters distinct: the multiset determines the padded string. -/
theorem keyedPairs_eq_iff (hn : 0 < n) (hne : ad ≠ []) (hne' : ad' ≠ [])
    (hdistinct : ∀ i < fullBlocks n ad.length + 1, ∀ l < fullBlocks n ad.length + 1,
      adKey P lastCtr ad.length l = adKey P lastCtr ad.length i → l = i) :
    keyedPairs P tweakey lastCtr ad = keyedPairs P tweakey lastCtr' ad' ↔
      padded n ad = padded n ad' ∧ lastCtr = lastCtr' := by
  have hkeys : ∀ i < fullBlocks n ad.length + 1, ∀ l < fullBlocks n ad.length + 1,
      callTweak P tweakey (adKey P lastCtr ad.length l) =
        callTweak P tweakey (adKey P lastCtr ad.length i) → l = i :=
    fun i hi l hl h => hdistinct i hi l hl (hinj h)
  constructor
  · intro h
    obtain ⟨hcount, rfl⟩ := shape_eq_of_keyedPairs P tweakey hinj lastCtr lastCtr' ad ad' h
    refine ⟨?_, rfl⟩
    rw [← padded_eq_iff ad ad' hn hne hne' hcount]
    rw [keyedPairs_of_fullBlocks P tweakey lastCtr ad ad' hcount] at h
    exact (keyed_eq_iff_of_distinct _ _ _ _ hkeys).mp h
  · rintro ⟨hpad, rfl⟩
    have hcount := fullBlocks_eq_of_padded ad ad' hn hne hne' (congrArg List.length hpad)
    have hblocks := (padded_eq_iff ad ad' hn hne hne' hcount).mpr hpad
    rw [keyedPairs_of_fullBlocks P tweakey lastCtr ad ad' hcount]
    exact keyed_congr _ _ _ _ hblocks

/- The counter of the last block also used for block `j`: the multiset determines
the padded string up to an exchange of these two. -/
theorem keyedPairs_eq_iff_of_repeat (hn : 0 < n) (hne : ad ≠ []) (hne' : ad' ≠ []) (j : ℕ)
    (hj : j < fullBlocks n ad.length) (hrepeat : P.counter j = lastCtr)
    (hdistinct : ∀ i < fullBlocks n ad.length, ∀ l < fullBlocks n ad.length,
      P.counter l = P.counter i → l = i) :
    keyedPairs P tweakey lastCtr ad = keyedPairs P tweakey lastCtr' ad' ↔
      (padded n ad = padded n ad' ∨ Exchanged n j ad ad') ∧ lastCtr = lastCtr' := by
  have hbelow : ∀ i < fullBlocks n ad.length, adKey P lastCtr ad.length i = P.counter i :=
    fun i hi => if_pos hi
  have hkeys : ∀ i < fullBlocks n ad.length, ∀ l < fullBlocks n ad.length,
      callTweak P tweakey (adKey P lastCtr ad.length l) =
        callTweak P tweakey (adKey P lastCtr ad.length i) → l = i := by
    intro i hi l hl h
    rw [hbelow i hi, hbelow l hl] at h
    exact hdistinct i hi l hl (hinj h)
  have hsame : callTweak P tweakey (adKey P lastCtr ad.length j) =
      callTweak P tweakey (adKey P lastCtr ad.length (fullBlocks n ad.length)) := by
    rw [hbelow j hj, adKey_last, hrepeat]
  have hcases := fun hcount : fullBlocks n ad.length = fullBlocks n ad'.length => by
    have h := keyed_eq_iff_of_repeat _ (adBlk n (bufferOf ad) ad.length)
      (adBlk n (bufferOf ad') ad'.length) _ j hj hsame hkeys
    rwa [padded_eq_iff ad ad' hn hne hne' hcount,
      ← exchanged_iff ad ad' hn hne hne' hcount j hj] at h
  constructor
  · intro h
    obtain ⟨hcount, rfl⟩ := shape_eq_of_keyedPairs P tweakey hinj lastCtr lastCtr' ad ad' h
    rw [keyedPairs_of_fullBlocks P tweakey lastCtr ad ad' hcount] at h
    exact ⟨(hcases hcount).mp h, rfl⟩
  · rintro ⟨h, rfl⟩
    have hlength : (padded n ad).length = (padded n ad').length := by
      rcases h with hpad | hswap
      · rw [hpad]
      · exact hswap.1
    have hcount := fullBlocks_eq_of_padded ad ad' hn hne hne' hlength
    rw [keyedPairs_of_fullBlocks P tweakey lastCtr ad ad' hcount]
    exact (hcases hcount).mpr h

end Calls

end Pobc.Iot
