import Pobc.Iot.JolteonTweaks

/-!
# Collisions in Jolteon's associated data

The tweak of the last block is meant to say whether that block is whole and
whether a message follows. With the precedence of the conditional operator it is
0 unless the block is partial and a message follows, so a whole block and a padded
one that looks the same are told apart only in that case.
-/

namespace Pobc.Iot
open Pobc.Loop Pobc.Pad Pobc.Keyed

section Core

variable (J : Jolteon) (F : Forkskinny J.blocksize)

/-- The (tweak, padded block) pairs that `_ad` feeds to the forkcipher. -/
def adPairs (npub k : Buffer) (ad : List Byte) (noM : Bool) :
    Multiset (Blk J.blocksize × Blk J.blocksize) :=
  (jolteonStart J F (bufferOf ad) ad.length noM npub k).calls

theorem adPairs_eq (npub k : Buffer) (ad : List Byte) (noM : Bool) (hne : ad ≠ []) :
    adPairs J F npub k ad noM =
      keyedPairs (jolteonAdParams J F (initFixedTks J F (loadTweakey J npub k)))
        (loadTweakey J npub k) (adLastCounter J noM ad.length) ad := by
  have hpos : 0 < ad.length := List.length_pos_iff.mpr hne
  rw [adPairs, jolteonStart_of_ad J F _ _ noM npub k hpos]
  exact coe_calls_eq _ _ ad _ rfl

/-- The last block has the tweak 0: it is whole, or no message follows. -/
def LastTweakZero (ad : List Byte) (noM : Bool) : Prop :=
  ad.length % J.blocksize = 0 ∨ noM = true

theorem adLastCounter_eq_iff (ad ad' : List Byte) (noM noM' : Bool) :
    adLastCounter J noM ad.length = adLastCounter J noM' ad'.length ↔
      (LastTweakZero J ad noM ↔ LastTweakZero J ad' noM') := by
  rw [← counterValue_injective.eq_iff, counterValue_adLast, counterValue_adLast]
  exact flag_eq_iff (by decide) _ _

/- Up to 1000 blocks every block has a counter of its own. -/
theorem adKey_distinct (tks1 : F.Tks) (ad : List Byte) (noM : Bool) (hne : ad ≠ [])
    (hlen : ad.length ≤ 1000 * J.blocksize) :
    let key := adKey (jolteonAdParams J F tks1) (adLastCounter J noM ad.length) ad.length
    ∀ i < fullBlocks J.blocksize ad.length + 1, ∀ l < fullBlocks J.blocksize ad.length + 1,
      key l = key i → l = i := by
  intro key
  have hn : 0 < J.blocksize := Nat.lt_of_lt_of_le (by decide) J.two_le_blocksize
  have hN := (length_le_iff J.blocksize 1000 ad.length hn (List.length_pos_iff.mpr hne)).mp hlen
  have hval : ∀ i < fullBlocks J.blocksize ad.length + 1, counterValue (key i) = i + 4 ∨
      i = fullBlocks J.blocksize ad.length ∧ counterValue (key i) ≤ 2 := by
    intro i hi
    rcases Nat.lt_succ_iff_lt_or_eq.mp hi with hlt | rfl
    · left
      have hkey : key i = adCounter i := if_pos hlt
      rw [hkey, counterValue_adCounter]
      omega
    · right
      refine ⟨rfl, ?_⟩
      simp only [key, adKey_last, counterValue_adLast]
      split <;> omega
  intro i hi l hl h
  have hkey := congrArg counterValue h
  rcases hval i hi with h1 | ⟨h1, h1'⟩ <;> rcases hval l hl with h2 | ⟨h2, h2'⟩ <;> omega

theorem adPairs_eq_iff (npub k : Buffer) (ad ad' : List Byte) (noM noM' : Bool) (hne : ad ≠ [])
    (hne' : ad' ≠ []) (hlen : ad.length ≤ 1000 * J.blocksize) :
    adPairs J F npub k ad noM = adPairs J F npub k ad' noM' ↔
      padded J.blocksize ad = padded J.blocksize ad' ∧
        (LastTweakZero J ad noM ↔ LastTweakZero J ad' noM') := by
  have hn : 0 < J.blocksize := Nat.lt_of_lt_of_le (by decide) J.two_le_blocksize
  rw [adPairs_eq J F npub k ad noM hne, adPairs_eq J F npub k ad' noM' hne',
    ← adLastCounter_eq_iff J ad ad' noM noM']
  exact keyedPairs_eq_iff _ _ (callTweak_injective J F _ _) _ _ ad ad' hn hne hne'
    (adKey_distinct J F _ ad noM hne hlen)

/- Distinct inputs: what collides has the tweak 0 on its last block. -/
theorem adPairs_ne_iff (npub k : Buffer) (ad ad' : List Byte) (noM noM' : Bool) (hne : ad ≠ [])
    (hne' : ad' ≠ []) (hlen : ad.length ≤ 1000 * J.blocksize) (hdiff : (ad, noM) ≠ (ad', noM')) :
    adPairs J F npub k ad noM ≠ adPairs J F npub k ad' noM' ↔
      ¬ (padded J.blocksize ad = padded J.blocksize ad' ∧ LastTweakZero J ad noM ∧
        LastTweakZero J ad' noM') := by
  rw [ne_eq, adPairs_eq_iff J F npub k ad ad' noM noM' hne hne' hlen, not_iff_not]
  refine and_congr_right fun hpad => ⟨fun hflag => ?_, fun h => ⟨fun _ => h.2, fun _ => h.1⟩⟩
  by_cases h : LastTweakZero J ad noM
  · exact ⟨h, hflag.mp h⟩
  · -- two partial blocks under the tweak 2, both with a message
    have h' : ¬ LastTweakZero J ad' noM' := fun h' => h (hflag.mpr h')
    unfold LastTweakZero at h h'
    push Not at h h'
    have hmark : (0x80 : Byte) ≠ 0 := by decide
    have had := pad_partial_inj J.blocksize 0x80 0 ad ad' hmark h.1 h'.1 hpad
    have hnoM : noM = noM' := by
      rw [Bool.eq_false_iff.mpr h.2, Bool.eq_false_iff.mpr h'.2]
    exact absurd (by rw [had, hnoM]) hdiff

/-! ### Tags without a message -/

/-- What a call of the forkcipher with one leg computes from a tweak and a block. -/
def rightLeg (npub k : Buffer) (tweak x : Blk J.blocksize) : Blk J.blocksize :=
  fkForwardOne J F (initFixedTks J F (loadTweakey J npub k)) (F.initTk1 tweak F.oneLegRounds) x

theorem lanes_tA (npub k : Buffer) (ad : List Byte) (noM : Bool) (hne : ad ≠ []) :
    lanes (jolteonStart J F (bufferOf ad) ad.length noM npub k).tA =
      ((adPairs J F npub k ad noM).map fun p => lanes (rightLeg J F npub k p.1 p.2)).sum := by
  have hpos : 0 < ad.length := List.length_pos_iff.mpr hne
  rw [adPairs, Multiset.map_coe, Multiset.sum_coe, jolteonStart_of_ad J F _ _ noM npub k hpos]
  exact eeveeAd_sum _ (rightLeg J F npub k) (fun _ => rfl) _ _ _ _ rfl

theorem tag_of_empty_message (hmax : 1000 * J.blocksize ≤ J.maxMessageLength)
    (c₀ m npub k : Buffer) (tag₀ : Blk J.blocksize) (ad : List Byte) (hne : ad ≠ [])
    (hlen : ad.length ≤ 1000 * J.blocksize) :
    (jolteonEncrypt J F c₀ tag₀ m 0 (bufferOf ad) ad.length npub k).tag =
      (jolteonStart J F (bufferOf ad) ad.length true npub k).tA := by
  have hpos : 0 < ad.length := List.length_pos_iff.mpr hne
  have hacc : LengthsAccepted J 0 ad.length := ⟨by omega, by omega, by omega⟩
  rw [jolteonEncrypt_accepted J F c₀ m _ npub k tag₀ hacc]
  rfl

/- Two tags without a message are the same for every forkcipher exactly when the
padded strings are. -/
theorem tags_differ_iff (hmax : 1000 * J.blocksize ≤ J.maxMessageLength) (c₀ m npub k : Buffer)
    (tag₀ : Blk J.blocksize) (ad ad' : List Byte) (hne : ad ≠ []) (hne' : ad' ≠ [])
    (hlen : ad.length ≤ 1000 * J.blocksize) (hlen' : ad'.length ≤ 1000 * J.blocksize) :
    (∃ F : Forkskinny J.blocksize, F.Lawful ∧ F.OrderFree ∧
        (jolteonEncrypt J F c₀ tag₀ m 0 (bufferOf ad) ad.length npub k).tag ≠
          (jolteonEncrypt J F c₀ tag₀ m 0 (bufferOf ad') ad'.length npub k).tag) ↔
      padded J.blocksize ad ≠ padded J.blocksize ad' := by
  have hn : 0 < J.blocksize := Nat.lt_of_lt_of_le (by decide) J.two_le_blocksize
  have hpairs := fun F => adPairs_eq_iff J F npub k ad ad' true true hne hne' hlen
  have hflags : LastTweakZero J ad true ↔ LastTweakZero J ad' true :=
    ⟨fun _ => Or.inr rfl, fun _ => Or.inr rfl⟩
  constructor
  · rintro ⟨F, _, _, htags⟩ hpad
    refine htags (lanes_injective ?_)
    rw [tag_of_empty_message J F hmax c₀ m npub k tag₀ ad hne hlen,
      tag_of_empty_message J F hmax c₀ m npub k tag₀ ad' hne' hlen',
      lanes_tA J F npub k ad true hne, lanes_tA J F npub k ad' true hne',
      (hpairs F).mpr ⟨hpad, hflags⟩]
  · intro hpad
    have hdiff : adPairs J (.masking _) npub k ad true ≠ adPairs J (.masking _) npub k ad' true :=
      fun h => hpad ((hpairs _).mp h).1
    have hkeys : ∀ (a : List Byte), a ≠ [] → a.length ≤ 1000 * J.blocksize →
        ((adPairs J (.masking _) npub k a true).map Prod.fst).Nodup := by
      intro a ha hla
      rw [adPairs_eq J _ npub k a true ha]
      exact keys_nodup _ _ _ fun i hi l hl h => adKey_distinct J _ _ a true ha hla i hi l hl
        (callTweak_injective J _ _ _ h)
    obtain ⟨E, hE⟩ := exists_sum_ne lanes _ _ lanes_injective (exists_third_block hn)
      (hkeys ad hne hlen) (hkeys ad' hne' hlen') hdiff
    let F : Forkskinny J.blocksize := .ofLegs (fun _ _ x => x) fun t _ => E t
    refine ⟨F, Forkskinny.ofLegs_lawful _ _, Forkskinny.ofLegs_orderFree _ _, fun htags => hE ?_⟩
    -- the pairs do not depend on the forkcipher
    have hsame : ∀ a, a ≠ [] →
        adPairs J F npub k a true = adPairs J (.masking _) npub k a true := by
      intro a ha
      rw [adPairs_eq J F npub k a true ha, adPairs_eq J (.masking _) npub k a true ha]
      rfl
    have hsums := congrArg lanes htags
    rw [tag_of_empty_message J F hmax c₀ m npub k tag₀ ad hne hlen,
      tag_of_empty_message J F hmax c₀ m npub k tag₀ ad' hne' hlen',
      lanes_tA J F npub k ad true hne, lanes_tA J F npub k ad' true hne', hsame ad hne,
      hsame ad' hne'] at hsums
    exact hsums

end Core

/-- For both inclusions of the core: two distinct inputs of `_ad` collide exactly
when they look the same after padding and both last blocks have the tweak 0; and
without a message all tags agree exactly when the padded strings do. -/
theorem jolteon_ad_separated_iff (J : Jolteon) (hJ : J = jolteon64_192 ∨ J = jolteon128_256)
    (npub k : Buffer) (ad ad' : List Byte) (hne : ad ≠ []) (hne' : ad' ≠ [])
    (hlen : ad.length ≤ 1000 * J.blocksize) (hlen' : ad'.length ≤ 1000 * J.blocksize) :
    (∀ (F : Forkskinny J.blocksize) (noM noM' : Bool), (ad, noM) ≠ (ad', noM') →
      (adPairs J F npub k ad noM ≠ adPairs J F npub k ad' noM' ↔
        ¬ (padded J.blocksize ad = padded J.blocksize ad' ∧ LastTweakZero J ad noM ∧
          LastTweakZero J ad' noM'))) ∧
    ∀ (c₀ m : Buffer) (tag₀ : Blk J.blocksize),
      (∃ F : Forkskinny J.blocksize, F.Lawful ∧ F.OrderFree ∧
        (jolteonEncrypt J F c₀ tag₀ m 0 (bufferOf ad) ad.length npub k).tag ≠
          (jolteonEncrypt J F c₀ tag₀ m 0 (bufferOf ad') ad'.length npub k).tag) ↔
      padded J.blocksize ad ≠ padded J.blocksize ad' := by
  have hmax : 1000 * J.blocksize ≤ J.maxMessageLength := by
    rcases hJ with rfl | rfl <;> decide
  exact ⟨fun F noM noM' => adPairs_ne_iff J F npub k ad ad' noM noM' hne hne' hlen,
    fun c₀ m tag₀ => tags_differ_iff J hmax c₀ m npub k tag₀ ad ad' hne hne' hlen hlen'⟩

theorem jolteon_ad_separated_iff_example :
    let npub : Buffer := fun i => BitVec.ofNat 8 (3 * i)
    let k : Buffer := fun i => BitVec.ofNat 8 (i + 5)
    let ad : List Byte := (List.range 37).map (BitVec.ofNat 8)
    let ad' : List Byte := List.replicate 24 7
    (∀ (F : Forkskinny 8) (noM noM' : Bool), (ad, noM) ≠ (ad', noM') →
      (adPairs jolteon64_192 F npub k ad noM ≠ adPairs jolteon64_192 F npub k ad' noM' ↔
        ¬ (padded 8 ad = padded 8 ad' ∧ LastTweakZero jolteon64_192 ad noM ∧
          LastTweakZero jolteon64_192 ad' noM'))) ∧
    ∀ (c₀ m : Buffer) (tag₀ : Blk 8),
      (∃ F : Forkskinny 8, F.Lawful ∧ F.OrderFree ∧
        (jolteonEncrypt jolteon64_192 F c₀ tag₀ m 0 (bufferOf ad) ad.length npub k).tag ≠
          (jolteonEncrypt jolteon64_192 F c₀ tag₀ m 0 (bufferOf ad') ad'.length npub k).tag) ↔
      padded 8 ad ≠ padded 8 ad' :=
  jolteon_ad_separated_iff jolteon64_192 (Or.inl rfl) (fun i => BitVec.ofNat 8 (3 * i))
    (fun i => BitVec.ofNat 8 (i + 5)) ((List.range 37).map (BitVec.ofNat 8)) (List.replicate 24 7)
    (by decide) (by decide) (by decide) (by decide)

/- Seven zero bytes without a message, and the same bytes with the mark as the
eighth: the padding is the only difference, and it is not encoded. Likewise one
whole block with and without a message. -/
theorem jolteon_ad_collision :
    let zero : Buffer := fun _ => 0
    adPairs jolteon64_192 (.masking 8) zero zero [0, 0, 0, 0, 0, 0, 0] true =
        adPairs jolteon64_192 (.masking 8) zero zero [0, 0, 0, 0, 0, 0, 0, 0x80] true ∧
      adPairs jolteon64_192 (.masking 8) zero zero [0, 0, 0, 0, 0, 0, 0, 0x80] true =
        adPairs jolteon64_192 (.masking 8) zero zero [0, 0, 0, 0, 0, 0, 0, 0x80] false := by
  intro zero
  constructor
  · have hiff := adPairs_eq_iff jolteon64_192 (.masking 8) zero zero [0, 0, 0, 0, 0, 0, 0]
      [0, 0, 0, 0, 0, 0, 0, 0x80] true true (by decide) (by decide) (by decide)
    exact hiff.mpr ⟨by decide, fun _ => Or.inr rfl, fun _ => Or.inr rfl⟩
  · have hiff := adPairs_eq_iff jolteon64_192 (.masking 8) zero zero [0, 0, 0, 0, 0, 0, 0, 0x80]
      [0, 0, 0, 0, 0, 0, 0, 0x80] true false (by decide) (by decide) (by decide)
    exact hiff.mpr ⟨rfl, fun _ => Or.inl (by decide), fun _ => Or.inr rfl⟩

end Pobc.Iot
