import Pobc.Lib.PermSum
import Pobc.Iot.AesPobcSiv
import Mathlib.Data.FinEnum
import Mathlib.Data.Fintype.BigOperators

/-!
# Collisions of the synthetic IV

For an unknown cipher the IV of a pair `(ad, m)` is known exactly up to the set
of blocks that the two mac loops encipher an odd number of times: both loops
start from the same nonce and add into one accumulator, so nothing else of the
pair survives.
-/

namespace Pobc.Iot
open Pobc.PermSum

/-- The IV of `aes_pobc_siv_encrypt` under the cipher `E`. -/
def sivOf (E : Block → Block) (ad m : List Byte) : Block :=
  (pobcMac (Mbedtls.ofCipher E) 0 zeroBlock (bufferOf ad) ad.length (bufferOf m) m.length
    zeroBlock).iv

/-- The blocks that occur an odd number of times among those chained out of `ad`
and `m`. -/
def oddBlocks (ad m : List Byte) : Finset Block := odds (chained ad ++ chained m)

theorem sivOf_eq (E : Block → Block) (ad m : List Byte) :
    sivOf E ad m = sivIv E ad m := by
  rw [sivOf, pobcMac_spec (Mbedtls.ofCipher E) 0 zeroBlock _ _ _ _ zeroBlock rfl]
  rfl

theorem laneSum_eq_odds (E : Block → Block) (j : Fin 16) (ad m : List Byte) :
    laneSum E j (chained ad ++ chained m) = ∑ x ∈ oddBlocks ad m, lane (E x j) :=
  sum_list_eq_odds Gf.add_self _ fun x => lane (E x j)

theorem card_odds_le {α : Type*} [DecidableEq α] (l : List α) : (odds l).card ≤ l.length :=
  (Finset.card_filter_le _ _).trans (List.toFinset_card_le l)

theorem length_chained (data : List Byte) : (chained data).length = data.length / 16 + 1 := by
  rw [chained, macInputs, List.length_map, List.length_range]

theorem card_block : Fintype.card Block = 2^128 := by
  rw [Fintype.card_fun, Fintype.card_fin, ← FinEnum.card_eq_fintypeCard, FinEnum.card_bitVec,
    ← pow_mul]

/- Four byte strings are too short to name every block. -/
theorem exists_block_notMem (ad m ad' m' : List Byte) (had : ad.length < 2^64)
    (hm : m.length < 2^64) (had' : ad'.length < 2^64) (hm' : m'.length < 2^64) :
    ∃ z, z ∉ symmDiff (oddBlocks ad m) (oddBlocks ad' m') := by
  by_contra hall
  have huniv : symmDiff (oddBlocks ad m) (oddBlocks ad' m') = Finset.univ := by
    ext z
    simpa using (not_exists_not.mp hall) z
  have hcard : (symmDiff (oddBlocks ad m) (oddBlocks ad' m')).card = 2^128 := by
    rw [huniv, Finset.card_univ, card_block]
  have hunion : (symmDiff (oddBlocks ad m) (oddBlocks ad' m')).card ≤
      (oddBlocks ad m).card + (oddBlocks ad' m').card :=
    (Finset.card_le_card symmDiff_le_sup).trans (Finset.card_union_le _ _)
  have h := card_odds_le (chained ad ++ chained m)
  have h' := card_odds_le (chained ad' ++ chained m')
  rw [List.length_append, length_chained, length_chained] at h h'
  unfold oddBlocks at *
  omega

def IvsSeparable (ad m ad' m' : List Byte) : Prop :=
  ∃ E : Equiv.Perm Block, sivOf E ad m ≠ sivOf E ad' m'

theorem macSum_eq_of_oddBlocks (E : Block → Block) (ad m ad' m' : List Byte)
    (h : oddBlocks ad m = oddBlocks ad' m') :
    macSum E (chained ad ++ chained m) = macSum E (chained ad' ++ chained m') := by
  funext j
  simp only [macSum, laneSum_eq_odds, h]

theorem ivs_collide (ad m ad' m' : List Byte) (h : oddBlocks ad m = oddBlocks ad' m') :
    ¬ IvsSeparable ad m ad' m' := by
  rintro ⟨E, hE⟩
  rw [sivOf_eq, sivOf_eq, sivIv, sivIv, macSum_eq_of_oddBlocks E ad m ad' m' h] at hE
  exact hE rfl

/- The first byte of the sum is dropped from the final block; byte 1 is enough to
tell two sums apart. -/
theorem ivs_differ (ad m ad' m' : List Byte) (had : ad.length < 2^64) (hm : m.length < 2^64)
    (had' : ad'.length < 2^64) (hm' : m'.length < 2^64) (h : oddBlocks ad m ≠ oddBlocks ad' m') :
    IvsSeparable ad m ad' m' := by
  obtain ⟨x, hx⟩ := Finset.symmDiff_nonempty.mpr h
  obtain ⟨z, hz⟩ := exists_block_notMem ad m ad' m' had hm had' hm'
  have hne : lane (zeroBlock 1) ≠ lane ((fun _ => 1 : Block) 1) := by decide
  obtain ⟨E, hE⟩ := exists_perm_sum_ne (symmDiff (oddBlocks ad m) (oddBlocks ad' m'))
    (fun y : Block => lane (y 1)) x z zeroBlock (fun _ => 1) hx hz hne 0
  refine ⟨E, fun heq => hE ?_⟩
  rw [sivOf_eq, sivOf_eq] at heq
  have hfinal := congrFun (E.injective heq) 1
  have hlane : laneSum E 1 (chained ad ++ chained m) = laneSum E 1 (chained ad' ++ chained m') :=
    Gf.ext hfinal
  rw [laneSum_eq_odds, laneSum_eq_odds] at hlane
  rw [← sum_add_sum_eq_symmDiff Gf.add_self, hlane, Gf.add_self]

/-- Exactly the pairs with different odd blocks have different IVs under some
cipher. -/
theorem ivsSeparable_iff (ad m ad' m' : List Byte) (had : ad.length < 2^64) (hm : m.length < 2^64)
    (had' : ad'.length < 2^64) (hm' : m'.length < 2^64) :
    IvsSeparable ad m ad' m' ↔ oddBlocks ad m ≠ oddBlocks ad' m' :=
  ⟨fun h heq => ivs_collide ad m ad' m' heq h, ivs_differ ad m ad' m' had hm had' hm'⟩

theorem ivsSeparable_iff_example :
    let ad : List Byte := (List.range 20).map (BitVec.ofNat 8)
    let m : List Byte := (List.range 45).map (BitVec.ofNat 8)
    let m' : List Byte := List.replicate 33 7
    IvsSeparable ad m ad m' ↔ oddBlocks ad m ≠ oddBlocks ad m' :=
  ivsSeparable_iff ((List.range 20).map (BitVec.ofNat 8)) ((List.range 45).map (BitVec.ofNat 8))
    ((List.range 20).map (BitVec.ofNat 8)) (List.replicate 33 7) (by decide) (by decide) (by decide)
    (by decide)

/- Exchanging the two strings moves no block. -/
theorem oddBlocks_comm (ad m : List Byte) : oddBlocks ad m = oddBlocks m ad := by
  ext x
  simp only [oddBlocks, mem_odds, List.count_append, Nat.add_comm]

/- With `m = ad` every block occurs twice and the accumulator stays zero. -/
theorem oddBlocks_self (ad : List Byte) : oddBlocks ad ad = ∅ := by
  ext x
  simp only [oddBlocks, mem_odds, List.count_append, Finset.notMem_empty, iff_false]
  omega

theorem swapped_strings_collide : ¬ IvsSeparable [] [1] [1] [] :=
  ivs_collide [] [1] [1] [] (oddBlocks_comm [] [1])

/-- Two different strings, each authenticated against itself. -/
theorem repeated_strings_collide (ad ad' : List Byte) : ¬ IvsSeparable ad ad ad' ad' :=
  ivs_collide ad ad ad' ad' ((oddBlocks_self ad).trans (oddBlocks_self ad').symm)

end Pobc.Iot
