import Pobc.Iot.Espeon

/-!
# Collisions in Espeon's associated data

The counter of the blocks runs over 16 bits from 4 on and shares its bytes with the
flag of the last block, which takes the values 0 and 12: block 8 has the counter 12,
and block 65532 the counter 0. A flag that says whether the last block is whole is
missing as in Jolteon.
-/

namespace Pobc.Iot
open Pobc.Loop Pobc.Pad Pobc.Keyed

namespace Espeon

variable (V : Espeon)

/-! ### Counters -/

theorem counterValue_adCounter (i : ℕ) : counterValue (adCounter i) = (i + 4) % 65536 := by
  simp only [counterValue, adCounter, BitVec.toNat_ofNat, and_FF, Nat.shiftRight_eq_div_pow]
  omega

/-- The last block has the flag 0: it is whole, or no message follows. -/
def LastFlagZero (ad : List Byte) (noM : Bool) : Prop := ad.length % 16 = 0 ∨ noM = true

instance (ad : List Byte) (noM : Bool) : Decidable (LastFlagZero ad noM) :=
  inferInstanceAs (Decidable (_ ∨ _))

def adLastCounter (ad : List Byte) (noM : Bool) : Byte × Byte :=
  (0, lastAdFlag noM (decide (ad.length % 16 = 0)))

theorem counterValue_adLast (ad : List Byte) (noM : Bool) :
    counterValue (adLastCounter ad noM) = if LastFlagZero ad noM then 0 else 12 := by
  cases noM <;> by_cases hw : ad.length % 16 = 0 <;>
    simp [hw, adLastCounter, lastAdFlag, counterValue, LastFlagZero]

theorem adLastCounter_eq_iff (ad ad' : List Byte) (noM noM' : Bool) :
    adLastCounter ad noM = adLastCounter ad' noM' ↔
      (LastFlagZero ad noM ↔ LastFlagZero ad' noM') := by
  rw [← counterValue_injective.eq_iff, counterValue_adLast, counterValue_adLast]
  exact flag_eq_iff (by decide) _ _

/-- The block whose counter is the flag of the last block. -/
def firstRepeat (ad : List Byte) (noM : Bool) : ℕ := if LastFlagZero ad noM then 65532 else 8

theorem adCounter_eq_last_iff (ad : List Byte) (noM : Bool) (i : ℕ) (hi : i < 65535) :
    adCounter i = adLastCounter ad noM ↔ i = firstRepeat ad noM := by
  rw [← counterValue_injective.eq_iff, counterValue_adCounter, counterValue_adLast, firstRepeat]
  split_ifs <;> omega

theorem adCounter_inj (i l : ℕ) (hi : i < 65535) (hl : l < 65535)
    (h : adCounter l = adCounter i) : l = i := by
  have hval := congrArg counterValue h
  rw [counterValue_adCounter, counterValue_adCounter] at hval
  exact wrap_inj 4 65536 65535 (by decide) i l hi hl hval

/-! ### The recorded calls -/

def adCalls (npub k : Buffer) (ad : List Byte) (noM : Bool) : List (List Byte × Blk 16) :=
  (V.start (bufferOf ad) ad.length noM npub k).calls

theorem adCalls_eq (npub k : Buffer) (ad : List Byte) (noM : Bool) (hne : ad ≠ []) :
    let tweakey := V.adStart npub (loadKey k)
    let P := V.adParams (V.initKeyTks (loadKey k)) tweakey
    V.adCalls npub k ad noM = (eeveeAd P (adLastCounter ad noM) (bufferOf ad) ad.length
      ⟨tweakey, zeroBlk 16, []⟩).calls := by
  intro tweakey P
  have hpos : 0 < ad.length := List.length_pos_iff.mpr hne
  rw [adCalls, start, if_pos hpos]
  rfl

/- The counter bytes are part of the tweak. -/
theorem callTweak_injective (tks : V.KeyTks) (start tweakey : Buffer) :
    Function.Injective (callTweak (V.adParams tks start) tweakey) := by
  intro ctr ctr' h
  have htk := V.le_tksize
  have hbytes := bytesOf_inj _ _ _ h
  have hat : ∀ p, 16 ≤ p → p < V.tksize →
      setCounter (V.tksize - 3) (V.tksize - 2) tweakey ctr p =
        setCounter (V.tksize - 3) (V.tksize - 2) tweakey ctr' p := by
    intro p hp hp'
    have hbyte : setCounter (V.tksize - 3) (V.tksize - 2) tweakey ctr (16 + (p - 16)) =
        setCounter (V.tksize - 3) (V.tksize - 2) tweakey ctr' (16 + (p - 16)) :=
      hbytes (p - 16) (by omega)
    have hoff : 16 + (p - 16) = p := by omega
    rwa [hoff] at hbyte
  have hne : V.tksize - 3 ≠ V.tksize - 2 := by omega
  rw [← setCounter_apply _ _ tweakey ctr hne, hat _ (by omega) (by omega),
    hat _ (by omega) (by omega)]
  exact setCounter_apply _ _ tweakey ctr' hne

variable (npub k : Buffer) (ad ad' : List Byte) (noM noM' : Bool)

/- At the accepted lengths a tweak is used twice exactly when the counter reaches
the flag of the last block. -/
theorem tweaks_nodup_iff (hne : ad ≠ []) (hlen : ad.length ≤ 1048576) :
    ((V.adCalls npub k ad noM).map Prod.fst).Nodup ↔
      ad.length ≤ (firstRepeat ad noM + 1) * 16 := by
  have hpos : 0 < ad.length := List.length_pos_iff.mpr hne
  have hN := (length_le_iff 16 65536 ad.length (by decide) hpos).mp hlen
  let tweakey := V.adStart npub (loadKey k)
  let P := V.adParams (V.initKeyTks (loadKey k)) tweakey
  have hinj : Function.Injective (callTweak P tweakey) := V.callTweak_injective _ _ _
  have htweaks : (V.adCalls npub k ad noM).map Prod.fst =
      ((List.range (fullBlocks 16 ad.length + 1)).map
        (adKey P (adLastCounter ad noM) ad.length)).map (callTweak P tweakey) := by
    rw [V.adCalls_eq npub k ad noM hne, (eeveeAd_inv P _ _ _ _).calls, List.nil_append,
      List.map_map, List.map_map]
    rfl
  have hkeys : (List.range (fullBlocks 16 ad.length)).map
      (adKey P (adLastCounter ad noM) ad.length) =
      (List.range (fullBlocks 16 ad.length)).map adCounter :=
    List.map_congr_left fun i hi => if_pos (List.mem_range.mp hi)
  have hvalues : ((List.range (fullBlocks 16 ad.length)).map adCounter).map counterValue =
      (List.range (fullBlocks 16 ad.length)).map fun i => (i + 4) % 65536 := by
    rw [List.map_map]
    exact List.map_congr_left fun i _ => counterValue_adCounter i
  rw [htweaks, List.nodup_map_iff hinj, List.range_succ, List.map_append, hkeys,
    List.map_singleton, adKey_last, ← List.nodup_map_iff counterValue_injective, List.map_append,
    hvalues, List.map_singleton, nodup_wrap_iff 4 65536 _ _ (by omega),
    length_le_iff 16 _ ad.length (by decide) hpos, counterValue_adLast, firstRepeat]
  split_ifs
  · constructor
    · intro h
      by_contra hlong
      exact h 65532 (by omega) (by decide)
    · intro h i hi
      omega
  · constructor
    · intro h
      by_contra hlong
      exact h 8 (by omega) (by decide)
    · intro h i hi
      omega

/-- The (tweak, padded block) pairs that `_ad` feeds to the forkcipher. -/
def adPairs : Multiset (List Byte × Blk 16) := V.adCalls npub k ad noM

theorem adPairs_eq (hne : ad ≠ []) : V.adPairs npub k ad noM =
    keyedPairs (V.adParams (V.initKeyTks (loadKey k)) (V.adStart npub (loadKey k)))
      (V.adStart npub (loadKey k)) (adLastCounter ad noM) ad := by
  rw [adPairs, V.adCalls_eq npub k ad noM hne]
  exact coe_calls_eq _ _ ad _ rfl

/- Two inputs are fed to the forkcipher alike. -/
theorem adPairs_eq_iff (hne : ad ≠ []) (hne' : ad' ≠ []) (hlen : ad.length ≤ 1048576) :
    V.adPairs npub k ad noM = V.adPairs npub k ad' noM' ↔
      (padded 16 ad = padded 16 ad' ∨
        ((firstRepeat ad noM + 1) * 16 < ad.length ∧ Exchanged 16 (firstRepeat ad noM) ad ad')) ∧
      (LastFlagZero ad noM ↔ LastFlagZero ad' noM') := by
  have hpos : 0 < ad.length := List.length_pos_iff.mpr hne
  have hN := (length_le_iff 16 65536 ad.length (by decide) hpos).mp hlen
  have hrange : (firstRepeat ad noM + 1) * 16 < ad.length ↔
      firstRepeat ad noM < fullBlocks 16 ad.length := by
    rw [← Nat.not_le, ← Nat.not_le, length_le_iff 16 _ ad.length (by decide) hpos, Nat.lt_succ_iff]
  have hinj := V.callTweak_injective (V.initKeyTks (loadKey k)) (V.adStart npub (loadKey k))
    (V.adStart npub (loadKey k))
  rw [V.adPairs_eq npub k ad noM hne, V.adPairs_eq npub k ad' noM' hne', hrange,
    ← adLastCounter_eq_iff ad ad' noM noM']
  by_cases hrepeat : firstRepeat ad noM < fullBlocks 16 ad.length
  · rw [and_iff_right hrepeat]
    exact keyedPairs_eq_iff_of_repeat _ _ hinj _ _ ad ad' (by decide) hne hne' _ hrepeat
      ((adCounter_eq_last_iff ad noM _ (by omega)).mpr rfl)
      fun i hi l hl => adCounter_inj i l (by omega) (by omega)
  · rw [or_iff_left fun h => hrepeat h.1]
    refine keyedPairs_eq_iff _ _ hinj _ _ ad ad' (by decide) hne hne' fun i hi l hl h => ?_
    have hbelow : ∀ i < fullBlocks 16 ad.length, adKey (V.adParams (V.initKeyTks (loadKey k))
        (V.adStart npub (loadKey k))) (adLastCounter ad noM) ad.length i = adCounter i :=
      fun i hi => if_pos hi
    rcases Nat.lt_succ_iff_lt_or_eq.mp hi with hi | rfl <;>
      rcases Nat.lt_succ_iff_lt_or_eq.mp hl with hl | rfl
    · rw [hbelow i hi, hbelow l hl] at h
      exact adCounter_inj i l (by omega) (by omega) h
    · rw [hbelow i hi, adKey_last] at h
      have hi' := (adCounter_eq_last_iff ad noM i (by omega)).mp h.symm
      omega
    · rw [hbelow l hl, adKey_last] at h
      have hl' := (adCounter_eq_last_iff ad noM l (by omega)).mp h
      omega
    · rfl

end Espeon

open Espeon

/-- For both instantiations, at the accepted lengths: the tweaks are distinct until
the counter reaches the flag of the last block, and two distinct inputs collide
exactly when their last blocks have the same flag and they look the same after
padding, possibly with the two blocks exchanged that share a tweak. -/
theorem espeon_ad_separated_iff (V : Espeon) (npub k : Buffer) (ad : List Byte) (noM : Bool)
    (hne : ad ≠ []) (hlen : ad.length ≤ 1048576) :
    (((V.adCalls npub k ad noM).map Prod.fst).Nodup ↔
      ad.length ≤ (firstRepeat ad noM + 1) * 16) ∧
    ∀ (ad' : List Byte) (noM' : Bool), ad' ≠ [] → ad'.length ≤ 1048576 →
      (ad, noM) ≠ (ad', noM') →
      (V.adPairs npub k ad noM ≠ V.adPairs npub k ad' noM' ↔
        ¬ ((padded 16 ad = padded 16 ad' ∨ ((firstRepeat ad noM + 1) * 16 < ad.length ∧
            Exchanged 16 (firstRepeat ad noM) ad ad')) ∧
          (LastFlagZero ad noM ↔ LastFlagZero ad' noM'))) :=
  ⟨V.tweaks_nodup_iff npub k ad noM hne hlen, fun ad' noM' hne' _ _ =>
    not_congr (V.adPairs_eq_iff npub k ad ad' noM noM' hne hne' hlen)⟩

theorem espeon_ad_separated_iff_example :
    let npub : Buffer := fun i => BitVec.ofNat 8 (3 * i)
    let k : Buffer := fun i => BitVec.ofNat 8 (i + 5)
    let ad : List Byte := (List.range 100).map (BitVec.ofNat 8)
    let ad' : List Byte := List.replicate 64 7
    let V := espeon128_384 .masking
    let W := espeon128_256 (.masking 16)
    (V.adPairs npub k ad true ≠ V.adPairs npub k ad' false ↔
      ¬ ((padded 16 ad = padded 16 ad' ∨ ((firstRepeat ad true + 1) * 16 < ad.length ∧
          Exchanged 16 (firstRepeat ad true) ad ad')) ∧
        (LastFlagZero ad true ↔ LastFlagZero ad' false))) ∧
    (((W.adCalls npub k ad true).map Prod.fst).Nodup ↔
      ad.length ≤ (firstRepeat ad true + 1) * 16) :=
  ⟨(espeon_ad_separated_iff (espeon128_384 .masking) _ _ ((List.range 100).map (BitVec.ofNat 8))
      true (by decide) (by decide)).2 (List.replicate 64 7) false (by decide) (by decide)
      (by decide),
    (espeon_ad_separated_iff (espeon128_256 (.masking 16)) _ _
      ((List.range 100).map (BitVec.ofNat 8)) true (by decide) (by decide)).1⟩

/- Fifteen zero bytes and the same bytes with the mark as the sixteenth, without a
message; and two partial strings of ten blocks whose block 8 and last block are
exchanged, with a message. -/
theorem espeon_ad_collision :
    let zero : Buffer := fun _ => 0
    let V := espeon128_384 .masking
    let W := espeon128_256 (.masking 16)
    let whole : List Byte := List.replicate 15 0 ++ [0x80]
    let ad : List Byte := List.replicate 128 0 ++ 2 :: 0x80 :: List.replicate 14 0 ++ [1]
    let ad' : List Byte := List.replicate 128 0 ++ 1 :: 0x80 :: List.replicate 14 0 ++ [2]
    (V.adPairs zero zero (List.replicate 15 0) true = V.adPairs zero zero whole true ∧
      V.adPairs zero zero ad false = V.adPairs zero zero ad' false ∧
      ¬ ((V.adCalls zero zero ad false).map Prod.fst).Nodup) ∧
    W.adPairs zero zero (List.replicate 15 0) true = W.adPairs zero zero whole true ∧
      W.adPairs zero zero ad false = W.adPairs zero zero ad' false ∧
      ¬ ((W.adCalls zero zero ad false).map Prod.fst).Nodup := by
  intro zero V W whole ad ad'
  have hpad : ∀ U : Espeon,
      U.adPairs zero zero (List.replicate 15 0) true = U.adPairs zero zero whole true := by
    intro U
    rw [U.adPairs_eq_iff zero zero _ whole true true (by decide) (by decide) (by decide)]
    exact ⟨Or.inl (by decide), fun _ => Or.inr rfl, fun _ => Or.inr rfl⟩
  have hswap : ∀ U : Espeon, U.adPairs zero zero ad false = U.adPairs zero zero ad' false := by
    intro U
    rw [U.adPairs_eq_iff zero zero ad ad' false false (by decide) (by decide) (by decide +kernel)]
    exact ⟨Or.inr ⟨by decide +kernel, by decide +kernel, by decide +kernel⟩, by decide +kernel⟩
  have hrepeat : ∀ U : Espeon, ¬ ((U.adCalls zero zero ad false).map Prod.fst).Nodup := by
    intro U
    rw [U.tweaks_nodup_iff zero zero ad false (by decide) (by decide +kernel)]
    decide +kernel
  exact ⟨⟨hpad V, hswap V, hrepeat V⟩, hpad W, hswap W, hrepeat W⟩

end Pobc.Iot
