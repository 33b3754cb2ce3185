import Pobc.Iot.EeveeAd
import Pobc.Iot.Jolteon

/-!
# The tweaks of one Jolteon call

Every call of the forkcipher is under the nonce and two counter bytes. The
counter of the associated data starts at 4 and that of the message at 2, below
which the last blocks have their values; both run over 15 bits, so a call of
maximal length wraps around into those values.
-/

namespace Pobc.Iot
open Pobc.Loop Pobc.Online Pobc.Pad Pobc.Keyed

/-! ### Counter bytes -/

theorem and_7F (x : ℕ) : x &&& 0x7F = x % 128 := Nat.and_two_pow_sub_one_eq_mod x 7

theorem counterValue_adCounter (i : ℕ) : counterValue (adCounter i) = (i + 4) % 32768 := by
  simp only [counterValue, adCounter, BitVec.toNat_ofNat, and_7F, and_FF, Nat.shiftRight_eq_div_pow]
  omega

theorem counterValue_msgCounter (i : ℕ) :
    counterValue (msgCounter i) = 32768 + (i + 2) % 32768 := by
  have hor : (i + 2) / 2^8 % 128 ||| 0x80 = 128 + (i + 2) / 2^8 % 128 := by
    have hlt : (i + 2) / 2^8 % 128 < 2^7 := Nat.mod_lt _ (by decide)
    have hadd := Nat.two_pow_add_eq_or_of_lt hlt 1
    rw [Nat.mul_one] at hadd
    rw [Nat.or_comm, ← hadd]
  simp only [counterValue, msgCounter, BitVec.toNat_ofNat, and_7F, and_FF,
    Nat.shiftRight_eq_div_pow, hor]
  omega

section Core

variable (J : Jolteon) (F : Forkskinny J.blocksize)

/-- The two counter bytes of a tweak. -/
def counterOf (tweak : Blk J.blocksize) : Byte × Byte :=
  (tweak.byte (J.blocksize - 2), tweak.byte (J.blocksize - 1))

theorem counterOf_tweakOf (tweakey : Buffer) (ctr : Byte × Byte) :
    counterOf J (tweakOf J (J.setCounter tweakey ctr)) = ctr := by
  have htwo := J.two_le_blocksize
  have htk := J.tksize_eq
  have hhi : J.keysize + (J.blocksize - 2) = J.tksize - 2 := by omega
  have hlo : J.keysize + (J.blocksize - 1) = J.tksize - 1 := by omega
  rw [counterOf, tweakOf, byte_readBlk _ _ _ (by omega), byte_readBlk _ _ _ (by omega), hhi, hlo]
  exact setCounter_apply _ _ tweakey ctr (by omega)

theorem callTweak_injective (tks1 : F.Tks) (tweakey : Buffer) :
    Function.Injective (callTweak (jolteonAdParams J F tks1) tweakey) := by
  intro ctr ctr' h
  have hctr := congrArg (counterOf J) h
  have hval : ∀ ctr, counterOf J (callTweak (jolteonAdParams J F tks1) tweakey ctr) = ctr :=
    counterOf_tweakOf J tweakey
  rwa [hval, hval] at hctr

/-! ### The calls on the message -/

theorem encLoop_inv (tks1 : F.Tks) (s₀ : JolteonState J) (x : ℕ → Blk J.blocksize) (n : ℕ) :
    CallsInv (jolteonAdParams J F tks1) s₀
      ((List.range n).map fun i => (tweakOf J (J.setCounter s₀.tweakey (msgCounter i)), x i))
      (runState (encStep J F tks1) s₀ x n) := by
  induction n with
  | zero => exact ⟨(List.append_nil _).symm, fun _ => rfl⟩
  | succ n ih =>
    have hset : ∀ ctr, J.setCounter (runState (encStep J F tks1) s₀ x n).tweakey ctr =
        J.setCounter s₀.tweakey ctr := ih.tweakey
    refine ⟨?_, fun ctr => ?_⟩
    · simp only [runState, encStep, ih.calls, hset, List.range_succ, List.map_append,
        List.map_cons, List.map_nil, List.append_assoc]
    · rw [← ih.tweakey ctr]
      exact setCounter_setCounter _ _ _ _ ctr

/-- The counters of the calls of one encryption, in order. -/
def callCounters (out : EeveeEncrypted J.blocksize (Blk J.blocksize)) : List (Byte × Byte) :=
  out.calls.map fun call => counterOf J call.1

def adLastCounter (noM : Bool) (adlen : ℕ) : Byte × Byte :=
  (0, lastAdFlag noM (decide (adlen % J.blocksize = 0)))

def adCounters (noM : Bool) (adlen : ℕ) : List (Byte × Byte) :=
  if 0 < adlen then (List.range (fullBlocks J.blocksize adlen)).map adCounter ++
    [adLastCounter J noM adlen]
  else []

def msgCounters (mlen : ℕ) : List (Byte × Byte) :=
  if mlen = 0 then []
  else (List.range (fullBlocks J.blocksize mlen)).map msgCounter ++
    [lastMsgCounter (decide (mlen % J.blocksize = 0))]

theorem jolteonStart_of_ad (ad : Buffer) (adlen : ℕ) (noM : Bool) (npub k : Buffer)
    (had : 0 < adlen) : jolteonStart J F ad adlen noM npub k =
      eeveeAd (jolteonAdParams J F (initFixedTks J F (loadTweakey J npub k)))
        (adLastCounter J noM adlen) ad adlen
        ⟨loadTweakey J npub k, zeroBlk J.blocksize, []⟩ := if_pos had

theorem jolteonStart_no_ad (ad : Buffer) (adlen : ℕ) (noM : Bool) (npub k : Buffer)
    (had : ¬ 0 < adlen) : jolteonStart J F ad adlen noM npub k =
      ⟨loadTweakey J npub k, zeroBlk J.blocksize, []⟩ := if_neg had

theorem jolteonStart_calls (ad : Buffer) (adlen : ℕ) (noM : Bool) (npub k : Buffer) :
    (jolteonStart J F ad adlen noM npub k).calls.map (fun call => counterOf J call.1) =
      adCounters J noM adlen := by
  by_cases had : 0 < adlen
  · let P := jolteonAdParams J F (initFixedTks J F (loadTweakey J npub k))
    have hinv := eeveeAd_inv P (adLastCounter J noM adlen) ad adlen
      ⟨loadTweakey J npub k, zeroBlk J.blocksize, []⟩
    have hkeys : (List.range (fullBlocks J.blocksize adlen)).map
        (adKey P (adLastCounter J noM adlen) adlen) =
        (List.range (fullBlocks J.blocksize adlen)).map adCounter :=
      List.map_congr_left fun i hi => if_pos (List.mem_range.mp hi)
    have hcalls : ((List.range (fullBlocks J.blocksize adlen + 1)).map fun i =>
        (callTweak P (loadTweakey J npub k) (adKey P (adLastCounter J noM adlen) adlen i),
          adBlk J.blocksize ad adlen i)).map (fun call => counterOf J call.1) =
        (List.range (fullBlocks J.blocksize adlen + 1)).map
          (adKey P (adLastCounter J noM adlen) adlen) := by
      rw [List.map_map]
      exact List.map_congr_left fun i _ => counterOf_tweakOf J _ _
    rw [jolteonStart_of_ad J F ad adlen noM npub k had, adCounters, if_pos had, hinv.calls,
      List.nil_append, hcalls, List.range_succ, List.map_append, hkeys, List.map_singleton,
      adKey_last]
  · rw [jolteonStart_no_ad J F ad adlen noM npub k had, adCounters, if_neg had]
    rfl

theorem callCounters_eq (c₀ m ad npub k : Buffer) (tag₀ : Blk J.blocksize) (mlen adlen : ℕ)
    (h : LengthsAccepted J mlen adlen) :
    callCounters J (jolteonEncrypt J F c₀ tag₀ m mlen ad adlen npub k) =
      adCounters J (decide (mlen = 0)) adlen ++ msgCounters J mlen := by
  have hstart := jolteonStart_calls J F ad adlen (decide (mlen = 0)) npub k
  rw [jolteonEncrypt_accepted J F c₀ m ad npub k tag₀ h, callCounters, msgCounters]
  by_cases hm : mlen = 0
  · simp only [if_pos hm, List.append_nil]
    exact hstart
  · simp only [if_neg hm]
    let s := jolteonStart J F ad adlen (decide (mlen = 0)) npub k
    let tks1 := initFixedTks J F (loadTweakey J npub k)
    have hloop := encLoop_inv J F tks1 s (srcBlocks J.blocksize m) (fullBlocks J.blocksize mlen)
    rw [← blockLoop_state (encStep J F tks1) m s c₀] at hloop
    simp only [encMessage]
    rw [List.map_append, hloop.calls, List.map_append, hstart, List.map_map, List.map_cons,
      List.map_nil, List.append_assoc]
    have hmsg : (List.range (fullBlocks J.blocksize mlen)).map
        ((fun call => counterOf J call.1) ∘ fun i =>
          (tweakOf J (J.setCounter s.tweakey (msgCounter i)), srcBlocks J.blocksize m i)) =
        (List.range (fullBlocks J.blocksize mlen)).map msgCounter :=
      List.map_congr_left fun i _ => counterOf_tweakOf J _ _
    have hlast := counterOf_tweakOf J
      (blockLoop (encStep J F tks1) m (fullBlocks J.blocksize mlen) s c₀).1.tweakey
      (lastMsgCounter (decide (mlen % J.blocksize = 0)))
    rw [hmsg]
    exact congrArg (fun z => adCounters J (decide (mlen = 0)) adlen ++
      ((List.range (fullBlocks J.blocksize mlen)).map msgCounter ++ [z])) hlast

/-! ### Distinct counters -/

theorem counterValue_adLast (noM : Bool) (adlen : ℕ) :
    counterValue (adLastCounter J noM adlen) =
      if adlen % J.blocksize = 0 ∨ noM = true then 0 else 2 := by
  cases noM <;> by_cases hw : adlen % J.blocksize = 0 <;>
    simp [hw, adLastCounter, lastAdFlag, counterValue]

theorem map_counterValue_ad (noM : Bool) (adlen : ℕ) (had : 0 < adlen) :
    (adCounters J noM adlen).map counterValue =
      (List.range (fullBlocks J.blocksize adlen)).map (fun i => (i + 4) % 32768) ++
        [if adlen % J.blocksize = 0 ∨ noM = true then 0 else 2] := by
  rw [adCounters, if_pos had, List.map_append, List.map_map, List.map_singleton,
    counterValue_adLast]
  refine congrArg (· ++ _) (List.map_congr_left fun i _ => counterValue_adCounter i)

/- Below the reserved values a run only meets `z` by wrapping around. -/
theorem run_avoids_iff (a N z : ℕ) (hz : z < a) (ha : a ≤ 4) (hN : N ≤ 32767) :
    (∀ i < N, (i + a) % 32768 ≠ z) ↔ N ≤ 32768 + z - a := by
  constructor
  · intro h
    by_contra hlong
    exact h (32768 + z - a) (by omega) (by omega)
  · intro h i hi
    omega

theorem nodup_adCounters (noM : Bool) (adlen : ℕ) (hmax : adlen ≤ 32768 * J.blocksize) :
    (adCounters J noM adlen).Nodup ↔ (0 < adlen →
      if adlen % J.blocksize = 0 ∨ noM = true then adlen ≤ 32765 * J.blocksize
      else adlen < 32767 * J.blocksize) := by
  have hn : 0 < J.blocksize := Nat.lt_of_lt_of_le (by decide) J.two_le_blocksize
  by_cases had : 0 < adlen
  · have hN := (length_le_iff J.blocksize 32768 adlen hn had).mp hmax
    rw [← List.nodup_map_iff counterValue_injective, map_counterValue_ad J noM adlen had,
      nodup_wrap_iff 4 32768 _ _ (by omega), imp_iff_right had]
    by_cases hflag : adlen % J.blocksize = 0 ∨ noM = true
    · rw [if_pos hflag, if_pos hflag, length_le_iff J.blocksize 32765 adlen hn had,
        run_avoids_iff 4 _ 0 (by omega) (by omega) (by omega)]
      omega
    · have htail : adlen < 32767 * J.blocksize ↔ adlen ≤ 32767 * J.blocksize := by
        refine ⟨Nat.le_of_lt, fun hle => Nat.lt_of_le_of_ne hle fun heq => hflag (Or.inl ?_)⟩
        rw [heq, Nat.mul_mod_left]
      rw [if_neg hflag, if_neg hflag, htail, length_le_iff J.blocksize 32767 adlen hn had,
        run_avoids_iff 4 _ 2 (by omega) (by omega) (by omega)]
      omega
  · rw [adCounters, if_neg had]
    exact ⟨fun _ h => absurd h had, fun _ => List.nodup_nil⟩

theorem nodup_msgCounters (mlen : ℕ) (hmax : mlen ≤ 32768 * J.blocksize) :
    (msgCounters J mlen).Nodup ↔ mlen < 32768 * J.blocksize := by
  have hn : 0 < J.blocksize := Nat.lt_of_lt_of_le (by decide) J.two_le_blocksize
  by_cases hm : mlen = 0
  · rw [msgCounters, if_pos hm]
    exact ⟨fun _ => by omega, fun _ => List.nodup_nil⟩
  · have hpos : 0 < mlen := Nat.pos_of_ne_zero hm
    have hN := (length_le_iff J.blocksize 32768 mlen hn hpos).mp hmax
    let z := if mlen % J.blocksize = 0 then 0 else 1
    have hvalues : (msgCounters J mlen).map counterValue =
        (((List.range (fullBlocks J.blocksize mlen)).map fun i => (i + 2) % 32768) ++ [z]).map
          (32768 + ·) := by
      rw [msgCounters, if_neg hm, List.map_append, List.map_append, List.map_map, List.map_map,
        List.map_singleton, List.map_singleton]
      refine congrArg₂ (· ++ ·) (List.map_congr_left fun i _ => counterValue_msgCounter i) ?_
      by_cases hw : mlen % J.blocksize = 0 <;> simp [z, hw, lastMsgCounter, counterValue]
    have hadd : Function.Injective fun x : ℕ => 32768 + x := fun x y h => Nat.add_left_cancel h
    rw [← List.nodup_map_iff counterValue_injective, hvalues, List.nodup_map_iff hadd,
      nodup_wrap_iff 2 32768 _ _ (by omega)]
    by_cases hw : mlen % J.blocksize = 0
    · have hz : z = 0 := if_pos hw
      have hlen : mlen = J.blocksize * (fullBlocks J.blocksize mlen + 1) := by
        have hsplit := fullBlocks_add_lastLength J.blocksize mlen hpos
        rw [lastLength, if_pos hw] at hsplit
        rw [Nat.mul_succ, hsplit]
      have hlt : mlen < 32768 * J.blocksize ↔ fullBlocks J.blocksize mlen + 1 < 32768 := by
        rw [Nat.mul_comm]
        conv_lhs => rw [hlen]
        exact Nat.mul_lt_mul_left hn
      rw [hz, hlt, run_avoids_iff 2 _ 0 (by omega) (by omega) (by omega)]
      omega
    · have hz : z = 1 := if_neg hw
      have hlt : mlen < 32768 * J.blocksize := by
        refine Nat.lt_of_le_of_ne hmax fun heq => hw ?_
        rw [heq, Nat.mul_mod_left]
      rw [hz, run_avoids_iff 2 _ 1 (by omega) (by omega) (by omega)]
      exact ⟨fun _ => hlt, fun _ => by omega⟩

/-- The lengths at which no counter reaches a value that is already taken. -/
def CountersFit (mlen adlen : ℕ) : Prop :=
  (0 < adlen → if adlen % J.blocksize = 0 ∨ mlen = 0 then adlen ≤ 32765 * J.blocksize
    else adlen < 32767 * J.blocksize) ∧ mlen < 32768 * J.blocksize

theorem nodup_callCounters (hmax : J.maxMessageLength = 32768 * J.blocksize)
    (c₀ m ad npub k : Buffer) (tag₀ : Blk J.blocksize) (mlen adlen : ℕ)
    (hm : mlen ≤ J.maxMessageLength) (had : adlen ≤ J.maxMessageLength) :
    (callCounters J (jolteonEncrypt J F c₀ tag₀ m mlen ad adlen npub k)).Nodup ↔
      CountersFit J mlen adlen := by
  have hn : 0 < J.blocksize := Nat.lt_of_lt_of_le (by decide) J.two_le_blocksize
  rw [hmax] at hm had
  by_cases hne : adlen = 0 ∧ mlen = 0
  · have hrejected : ¬ LengthsAccepted J mlen adlen := fun h => h.nonempty hne
    rw [jolteonEncrypt_rejected J F c₀ m ad npub k tag₀ hrejected]
    exact ⟨fun _ => ⟨fun h => absurd h (by omega), by omega⟩, fun _ => List.nodup_nil⟩
  · rw [callCounters_eq J F c₀ m ad npub k tag₀ mlen adlen ⟨by omega, by omega, hne⟩,
      List.nodup_append, nodup_adCounters J _ adlen had, nodup_msgCounters J mlen hm, CountersFit]
    -- the top bit separates the two phases
    have hphase : ∀ a ∈ adCounters J (decide (mlen = 0)) adlen, ∀ b ∈ msgCounters J mlen,
        a ≠ b := by
      intro a ha b hb hab
      have hlow : counterValue a < 32768 := by
        by_cases hpos : 0 < adlen
        · have hval := List.mem_map_of_mem (f := counterValue) ha
          rw [map_counterValue_ad J _ adlen hpos, List.mem_append, List.mem_singleton,
            List.mem_map] at hval
          rcases hval with ⟨i, _, hi⟩ | hi
          · omega
          · split at hi <;> omega
        · rw [adCounters, if_neg hpos] at ha
          cases ha
      have hhigh : 32768 ≤ counterValue b := by
        unfold msgCounters at hb
        split at hb
        · cases hb
        · rw [List.mem_append, List.mem_singleton, List.mem_map] at hb
          rcases hb with ⟨i, _, rfl⟩ | rfl
          · rw [counterValue_msgCounter]
            omega
          · simp [counterValue, lastMsgCounter]
      rw [hab] at hlow
      omega
    simp only [decide_eq_true_eq]
    exact ⟨fun h => ⟨h.1, h.2.1⟩, fun h => ⟨h.1, h.2, hphase⟩⟩

end Core

theorem jolteon_counters_distinct_iff (c₀ m ad npub k : Buffer) (mlen adlen : ℕ) :
    (∀ (F : Forkskinny 8) (tag₀ : Blk 8), mlen ≤ jolteon64_192.maxMessageLength →
      adlen ≤ jolteon64_192.maxMessageLength →
      ((callCounters jolteon64_192 (jolteonForkskinny64_192Encrypt F c₀ tag₀ m mlen ad adlen npub
        k)).Nodup ↔ CountersFit jolteon64_192 mlen adlen)) ∧
    (∀ (F : Forkskinny 16) (tag₀ : Blk 16), mlen ≤ jolteon128_256.maxMessageLength →
      adlen ≤ jolteon128_256.maxMessageLength →
      ((callCounters jolteon128_256 (jolteonForkskinny128_256Encrypt F c₀ tag₀ m mlen ad adlen npub
        k)).Nodup ↔ CountersFit jolteon128_256 mlen adlen)) :=
  ⟨fun F tag₀ => nodup_callCounters jolteon64_192 F rfl c₀ m ad npub k tag₀ mlen adlen,
    fun F tag₀ => nodup_callCounters jolteon128_256 F rfl c₀ m ad npub k tag₀ mlen adlen⟩

theorem jolteon_counters_distinct_iff_example :
    let zero : Buffer := fun _ => 0
    ((callCounters jolteon64_192 (jolteonForkskinny64_192Encrypt (.masking 8) zero (zeroBlk 8) zero
      9 zero 20 zero zero)).Nodup ↔ CountersFit jolteon64_192 9 20) ∧
    ((callCounters jolteon128_256 (jolteonForkskinny128_256Encrypt (.masking 16) zero (zeroBlk 16)
      zero 0 zero 40 zero zero)).Nodup ↔ CountersFit jolteon128_256 0 40) :=
  ⟨(jolteon_counters_distinct_iff _ _ _ _ _ 9 20).1 (.masking 8) (zeroBlk 8) (by decide)
      (by decide),
    (jolteon_counters_distinct_iff _ _ _ _ _ 0 40).2 (.masking 16) (zeroBlk 16) (by decide)
      (by decide)⟩

/- A message of the maximal length, and associated data of the maximal length. -/
theorem jolteon_counters_repeat :
    let zero : Buffer := fun _ => 0
    ¬ (callCounters jolteon64_192 (jolteonForkskinny64_192Encrypt (.masking 8) zero (zeroBlk 8) zero
      262144 zero 0 zero zero)).Nodup ∧
    ¬ (callCounters jolteon128_256 (jolteonForkskinny128_256Encrypt (.masking 16) zero (zeroBlk 16)
      zero 16 zero 524288 zero zero)).Nodup := by
  intro zero
  constructor
  · intro h
    have hfit := (nodup_callCounters jolteon64_192 (.masking 8) rfl zero zero zero zero zero
      (zeroBlk 8) 262144 0 (by decide) (by decide)).mp h
    exact absurd hfit.2 (by decide)
  · intro h
    have hfit := (nodup_callCounters jolteon128_256 (.masking 16) rfl zero zero zero zero zero
      (zeroBlk 16) 16 524288 (by decide) (by decide)).mp h
    have had := hfit.1 (by decide)
    rw [if_pos (by decide)] at had
    exact absurd had (by decide)

end Pobc.Iot
