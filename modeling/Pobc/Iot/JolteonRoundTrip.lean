import Pobc.Iot.Jolteon

/-!
# Jolteon decryption accepts what encryption produces

The tweaks do not depend on the text, so a round of decryption undoes the round
of encryption from any state, and the running sum is the same on both sides. The
redundancy of the last block then decides.
-/

namespace Pobc.Iot
open Pobc.Online Pobc.Pad

section Core

variable (J : Jolteon) (F : Forkskinny J.blocksize)

theorem fkForwardOne_iff (hF : F.Lawful) (hO : F.OrderFree) (fixed var : Buffer)
    (x y : Blk J.blocksize) :
    fkForwardOne J F (initFixedTks J F fixed) (initVarTksOneLeg J F var) x = y ↔
      fkInvertOne J F (initFixedTks J F fixed) (initVarTksOneLeg J F var) y = x := by
  rw [fkForwardOne, fkInvertOne, hO.encryptRight, hO.decryptRight]
  exact hF.right_iff _ _ x y

theorem fkForward_iff (hF : F.Lawful) (hO : F.OrderFree) (fixed var : Buffer)
    (x y : Blk J.blocksize) :
    (fkForward J F (initFixedTks J F fixed) (initVarTksTwoLeg J F var) x).1 = y ↔
      (fkInvert J F (initFixedTks J F fixed) (initVarTksTwoLeg J F var) y).1 = x := by
  rw [fkForward, fkInvert, hO.encrypt, hO.decrypt]
  exact hF.legs_iff _ _ x y

theorem fkInvert_snd (hF : F.Lawful) (hO : F.OrderFree) (fixed var : Buffer)
    (y : Blk J.blocksize) :
    let back := fkInvert J F (initFixedTks J F fixed) (initVarTksTwoLeg J F var) y
    back.2 = (fkForward J F (initFixedTks J F fixed) (initVarTksTwoLeg J F var) back.1).2 := by
  intro back
  simp only [back, fkForward, fkInvert]
  rw [hO.encrypt, hO.decrypt]
  exact hF.left_eq _ _ y

theorem decStep_undoes_encStep (hF : F.Lawful) (hO : F.OrderFree) (fixed : Buffer) :
    Undoes (encStep J F (initFixedTks J F fixed)) (decStep J F (initFixedTks J F fixed)) where
  out i s x y := fkForwardOne_iff J F hF hO fixed _ x y
  state i s x := by
    have hback : fkInvertOne J F (initFixedTks J F fixed)
        (initVarTksOneLeg J F (J.setCounter s.tweakey (msgCounter i)))
        (encStep J F (initFixedTks J F fixed) i s x).1 = x :=
      (fkForwardOne_iff J F hF hO fixed _ x _).mp rfl
    simp only [decStep, hback]
    rw [blockXor_right_comm]
    rfl

theorem decMessage_iff (hF : F.Lawful) (hO : F.OrderFree) (fixed : Buffer) (s : JolteonState J)
    (m c m₀ c₀ : Buffer) (tag : Blk J.blocksize) (len : ℕ) (hlen : 0 < len) :
    ((decMessage J F (initFixedTks J F fixed) s m₀ c len tag).ret = 0 ∧
        ∀ p < len, (decMessage J F (initFixedTks J F fixed) s m₀ c len tag).m p = m p) ↔
      (encMessage J F (initFixedTks J F fixed) s c₀ m len).tag = tag ∧
        ∀ p < len, (encMessage J F (initFixedTks J F fixed) s c₀ m len).c p = c p := by
  have hn : 0 < J.blocksize := Nat.lt_of_lt_of_le (by decide) J.two_le_blocksize
  -- the tweakey of the last block, from the state the loop ends in
  let var (s : JolteonState J) : Buffer :=
    J.setCounter s.tweakey (lastMsgCounter (decide (len % J.blocksize = 0)))
  let loop := blockLoop (decStep J F (initFixedTks J F fixed)) c (fullBlocks J.blocksize len) s m₀
  have hmain := message_iff (decStep_undoes_encStep J F hF hO fixed) s (fun s => s.tA)
    (fun s x => (fkForward J F (initFixedTks J F fixed) (initVarTksTwoLeg J F (var s)) x).1)
    (fun s y => (fkInvert J F (initFixedTks J F fixed) (initVarTksTwoLeg J F (var s)) y).1)
    (fun s x => (fkForward J F (initFixedTks J F fixed) (initVarTksTwoLeg J F (var s)) x).2)
    (fun s x y => fkForward_iff J F hF hO fixed (var s) x y) m c m₀ c₀ tag len hn hlen
  have hleft := fkInvert_snd J F hF hO fixed (var loop.1) tag
  simp only at hmain hleft
  rw [← hleft] at hmain
  exact hmain

/- Decryption returns 0 with `m` exactly when encrypting `m` returns 0 with the
ciphertext and the tag. -/
theorem jolteon_result_iff (hF : F.Lawful) (hO : F.OrderFree) (npub k m₀ c₀ : Buffer)
    (tag₀ tag : Blk J.blocksize) (ad c m : List Byte) :
    (jolteonDecrypt J F m₀ (bufferOf c) c.length tag (bufferOf ad) ad.length npub k).result
        c.length = (0, m) ↔
      (jolteonEncrypt J F c₀ tag₀ (bufferOf m) m.length (bufferOf ad) ad.length npub k).result
        m.length = (0, c, tag) := by
  have hone : (1 : Int) ≠ 0 := by decide
  refine result_iff _ _ tag c m fun hlen => ?_
  rw [hlen]
  by_cases hacc : LengthsAccepted J m.length ad.length
  · rw [jolteonEncrypt_accepted J F c₀ _ _ npub k tag₀ hacc,
      jolteonDecrypt_accepted J F m₀ _ _ npub k tag hacc]
    by_cases hempty : m.length = 0
    · let s := jolteonStart J F (bufferOf ad) ad.length (decide (m.length = 0)) npub k
      have hmain := emptyMessage_iff m₀ c₀ (bufferOf m) (bufferOf c) s.tA tag s.calls m.length
        hempty
      simpa only [if_pos hempty] using hmain
    · have hmain := decMessage_iff J F hF hO (loadTweakey J npub k)
        (jolteonStart J F (bufferOf ad) ad.length (decide (m.length = 0)) npub k) (bufferOf m)
        (bufferOf c) m₀ c₀ tag m.length (Nat.pos_of_ne_zero hempty)
      have hret : ∀ s, (encMessage J F (initFixedTks J F (loadTweakey J npub k)) s c₀ (bufferOf m)
          m.length).ret = 0 := fun _ => rfl
      simp only [if_neg hempty]
      rw [hmain, hret]
      exact ⟨fun h => ⟨rfl, h⟩, fun h => h.2⟩
  · rw [jolteonEncrypt_rejected J F c₀ _ _ npub k tag₀ hacc,
      jolteonDecrypt_rejected J F m₀ _ _ npub k tag hacc]
    exact ⟨fun h => absurd h.1 hone, fun h => absurd h.1 hone⟩

end Core

theorem jolteon_decrypt_iff_encrypt :
    (∀ F : Forkskinny 8, F.Lawful → F.OrderFree →
      ∀ (npub k m₀ c₀ : Buffer) (tag₀ tag : Blk 8) (ad c m : List Byte),
        (jolteonForkskinny64_192Decrypt F m₀ (bufferOf c) c.length tag (bufferOf ad) ad.length npub
          k).result c.length = (0, m) ↔
        (jolteonForkskinny64_192Encrypt F c₀ tag₀ (bufferOf m) m.length (bufferOf ad) ad.length npub
          k).result m.length = (0, c, tag)) ∧
    (∀ F : Forkskinny 16, F.Lawful → F.OrderFree →
      ∀ (npub k m₀ c₀ : Buffer) (tag₀ tag : Blk 16) (ad c m : List Byte),
        (jolteonForkskinny128_256Decrypt F m₀ (bufferOf c) c.length tag (bufferOf ad) ad.length npub
          k).result c.length = (0, m) ↔
        (jolteonForkskinny128_256Encrypt F c₀ tag₀ (bufferOf m) m.length (bufferOf ad) ad.length
          npub k).result m.length = (0, c, tag)) :=
  ⟨fun F hF hO => jolteon_result_iff jolteon64_192 F hF hO,
    fun F hF hO => jolteon_result_iff jolteon128_256 F hF hO⟩

/- What encryption gives for two whole blocks and a partial one is accepted. -/
theorem jolteon_decrypt_iff_encrypt_example :
    let npub : Buffer := fun i => BitVec.ofNat 8 (3 * i)
    let k : Buffer := fun i => BitVec.ofNat 8 (i + 5)
    let m : List Byte := (List.range 37).map (BitVec.ofNat 8)
    let ad : List Byte := (List.range 19).map (BitVec.ofNat 8)
    let out8 := jolteonForkskinny64_192Encrypt (.masking 8) k (zeroBlk 8) (bufferOf m) m.length
      (bufferOf ad) ad.length npub k
    let out16 := jolteonForkskinny128_256Encrypt (.masking 16) k (zeroBlk 16) (bufferOf m) m.length
      (bufferOf ad) ad.length npub k
    let c8 := bytesOf out8.c m.length
    let c16 := bytesOf out16.c m.length
    (jolteonForkskinny64_192Decrypt (.masking 8) k (bufferOf c8) c8.length out8.tag
        (bufferOf ad) ad.length npub k).result c8.length = (0, m) ∧
    (jolteonForkskinny128_256Decrypt (.masking 16) k (bufferOf c16) c16.length out16.tag
        (bufferOf ad) ad.length npub k).result c16.length = (0, m) := by
  intro npub k m ad out8 out16 c8 c16
  exact ⟨(jolteon_decrypt_iff_encrypt.1 (.masking 8) (Forkskinny.ofLegs_lawful _ _)
      (Forkskinny.ofLegs_orderFree _ _) npub k k k (zeroBlk 8) out8.tag ad c8 m).mpr rfl,
    (jolteon_decrypt_iff_encrypt.2 (.masking 16) (Forkskinny.ofLegs_lawful _ _)
      (Forkskinny.ofLegs_orderFree _ _) npub k k k (zeroBlk 16) out16.tag ad c16 m).mpr rfl⟩

end Pobc.Iot
