import Pobc.Iot.Espeon

/-!
# Espeon decryption accepts what encryption produces

The tweak of a block depends on the ciphertext in front of it, which both functions
have at hand: a round of decryption undoes the round of encryption from any state,
and leaves the same tweakey behind.
-/

namespace Pobc.Iot
open Pobc.Online Pobc.Pad

namespace Espeon

variable (V : Espeon)

theorem decStep_undoes_encStep (hV : V.Lawful) (key npub : Buffer) :
    Undoes (V.encStep (V.initKeyTks key) npub) (V.decStep (V.initKeyTks key) npub) where
  out i s x y := by
    simp only [encStep, decStep]
    rw [hV.right_iff]
    by_cases hi : i = 0
    · rw [if_pos hi, if_pos hi, blockXor_eq_iff, blockXor_comm]
    · rw [if_neg hi, if_neg hi]
  state i s x := by
    -- the block comes back, with the mask in the first round
    have hinverse : V.decryptRight (V.initKeyTks key) s.tweakey
        (V.encStep (V.initKeyTks key) npub i s x).1 =
        if i = 0 then blockXor s.tA x else x := (hV.right_iff key s.tweakey _ _).mp rfl
    have houtput : (if i = 0 then blockXor (if i = 0 then blockXor s.tA x else x) s.tA
        else if i = 0 then blockXor s.tA x else x) = x := by
      by_cases hi : i = 0
      · rw [if_pos hi, if_pos hi, blockXor_comm s.tA x, blockXor_cancel]
      · rw [if_neg hi, if_neg hi]
    simp only [decStep, hinverse, houtput]
    rfl

theorem decMessage_iff (hV : V.Lawful) (key npub : Buffer) (s : EeveeState 16 (List Byte))
    (m c m₀ c₀ : Buffer) (tag : Blk 16) (len : ℕ) (hlen : 0 < len) :
    ((V.decMessage (V.initKeyTks key) npub s m₀ c len tag).ret = 0 ∧
        ∀ p < len, (V.decMessage (V.initKeyTks key) npub s m₀ c len tag).m p = m p) ↔
      (V.encMessage (V.initKeyTks key) npub s c₀ m len).tag = tag ∧
        ∀ p < len, (V.encMessage (V.initKeyTks key) npub s c₀ m len).c p = c p := by
  let last (s : State) : Buffer := V.lastTweakey s.tweakey (decide (len % 16 = 0))
  let loop := blockLoop (V.decStep (V.initKeyTks key) npub) c (fullBlocks 16 len)
    (V.messageStart npub s) m₀
  have hmain := message_iff (V.decStep_undoes_encStep hV key npub) (V.messageStart npub s)
    (fun s => s.tA) (fun s x => (V.encrypt (V.initKeyTks key) (last s) x).2)
    (fun s y => (V.decrypt (V.initKeyTks key) (last s) y).2)
    (fun s x => (V.encrypt (V.initKeyTks key) (last s) x).1)
    (fun s x y => hV.legs_iff key (last s) x y) m c m₀ c₀ tag len (by decide) hlen
  have hleft := hV.left_eq key (last loop.1) tag
  simp only at hmain hleft
  rw [← hleft] at hmain
  exact hmain

/-! ### The branches of a call -/

variable {mlen adlen : ℕ} (c₀ m₀ m c ad npub k : Buffer) (tag₀ tag : Blk 16)

def LengthsAccepted (mlen adlen : ℕ) : Prop := adlen ≤ 1048576 ∧ ¬ (adlen = 0 ∧ mlen = 0)

/- The two checks in front of both functions. -/
theorem checks_rejected {α : Type*} (h : ¬ LengthsAccepted mlen adlen) (x y : α) :
    (if adlen > 1048576 then x else if adlen = 0 ∧ mlen = 0 then x else y) = x := by
  split_ifs with h1 h2
  · rfl
  · rfl
  · exact absurd ⟨Nat.not_lt.mp h1, h2⟩ h

theorem encryptBytes_accepted (h : LengthsAccepted mlen adlen) :
    V.encryptBytes c₀ tag₀ m mlen ad adlen npub k =
      let s := V.start ad adlen (decide (mlen = 0)) npub k
      if mlen = 0 then ⟨0, c₀, s.tA, s.calls⟩
      else V.encMessage (V.initKeyTks (loadKey k)) npub s c₀ m mlen := by
  have hle : ¬ adlen > 1048576 := Nat.not_lt.mpr h.1
  rw [encryptBytes, if_neg hle, if_neg h.2]

theorem encryptBytes_rejected (h : ¬ LengthsAccepted mlen adlen) :
    V.encryptBytes c₀ tag₀ m mlen ad adlen npub k = ⟨1, c₀, tag₀, []⟩ :=
  checks_rejected h _ _

theorem decryptBytes_accepted (h : LengthsAccepted mlen adlen) :
    V.decryptBytes m₀ c mlen tag ad adlen npub k =
      let s := V.start ad adlen (decide (mlen = 0)) npub k
      if mlen = 0 then if ∃ j, tag j ≠ s.tA j then ⟨1, m₀⟩ else ⟨0, m₀⟩
      else V.decMessage (V.initKeyTks (loadKey k)) npub s m₀ c mlen tag := by
  have hle : ¬ adlen > 1048576 := Nat.not_lt.mpr h.1
  rw [decryptBytes, if_neg hle, if_neg h.2]

theorem decryptBytes_rejected (h : ¬ LengthsAccepted mlen adlen) :
    V.decryptBytes m₀ c mlen tag ad adlen npub k = ⟨1, m₀⟩ :=
  checks_rejected h _ _

/- Decryption returns 0 with `m` exactly when encrypting `m` returns 0 with the
ciphertext and the tag. -/
theorem bytes_iff (hV : V.Lawful) (npub k m₀ c₀ : Buffer) (tag₀ tag : Blk 16)
    (ad c m : List Byte) :
    (V.decryptBytes m₀ (bufferOf c) c.length tag (bufferOf ad) ad.length npub k).result
        c.length = (0, m) ↔
      (V.encryptBytes c₀ tag₀ (bufferOf m) m.length (bufferOf ad) ad.length npub k).result
        m.length = (0, c, tag) := by
  have hone : (1 : Int) ≠ 0 := by decide
  refine result_iff _ _ tag c m fun hlen => ?_
  rw [hlen]
  by_cases hacc : LengthsAccepted m.length ad.length
  · rw [V.encryptBytes_accepted c₀ _ _ npub k tag₀ hacc,
      V.decryptBytes_accepted m₀ _ _ npub k tag hacc]
    let s := V.start (bufferOf ad) ad.length (decide (m.length = 0)) npub k
    by_cases hempty : m.length = 0
    · have hmain := emptyMessage_iff m₀ c₀ (bufferOf m) (bufferOf c) s.tA tag s.calls m.length
        hempty
      simpa only [if_pos hempty] using hmain
    · have hmain := V.decMessage_iff hV (loadKey k) npub s (bufferOf m) (bufferOf c) m₀ c₀ tag
        m.length (Nat.pos_of_ne_zero hempty)
      have hret : ∀ s, (V.encMessage (V.initKeyTks (loadKey k)) npub s c₀ (bufferOf m)
          m.length).ret = 0 := fun _ => rfl
      simp only [if_neg hempty]
      rw [hmain, hret]
      exact ⟨fun h => ⟨rfl, h⟩, fun h => h.2⟩
  · rw [V.encryptBytes_rejected c₀ _ _ npub k tag₀ hacc,
      V.decryptBytes_rejected m₀ _ _ npub k tag hacc]
    exact ⟨fun h => absurd h.1 hone, fun h => absurd h.1 hone⟩

end Espeon

theorem espeon_decrypt_iff_encrypt :
    (∀ F : Forkskinny384, F.Lawful →
      ∀ (npub k m₀ c₀ : Buffer) (tag₀ tag : Blk 16) (ad c m : List Byte),
        (espeonForkskinny128_384Decrypt F m₀ (bufferOf c) c.length tag (bufferOf ad) ad.length npub
          k).result c.length = (0, m) ↔
        (espeonForkskinny128_384Encrypt F c₀ tag₀ (bufferOf m) m.length (bufferOf ad) ad.length npub
          k).result m.length = (0, c, tag)) ∧
    (∀ F : Forkskinny 16, F.Lawful →
      ∀ (npub k m₀ c₀ : Buffer) (tag₀ tag : Blk 16) (ad c m : List Byte),
        (espeonForkskinny128_256Decrypt F m₀ (bufferOf c) c.length tag (bufferOf ad) ad.length npub
          k).result c.length = (0, m) ↔
        (espeonForkskinny128_256Encrypt F c₀ tag₀ (bufferOf m) m.length (bufferOf ad) ad.length npub
          k).result m.length = (0, c, tag)) :=
  ⟨fun F hF => (espeon128_384 F).bytes_iff (Espeon.lawful128_384 F hF),
    fun F hF => (espeon128_256 F).bytes_iff (Espeon.lawful128_256 F hF)⟩

/- What encryption gives for two whole blocks and a partial one is accepted. -/
theorem espeon_decrypt_iff_encrypt_example :
    let npub : Buffer := fun i => BitVec.ofNat 8 (3 * i)
    let k : Buffer := fun i => BitVec.ofNat 8 (i + 5)
    let m : List Byte := (List.range 37).map (BitVec.ofNat 8)
    let ad : List Byte := (List.range 19).map (BitVec.ofNat 8)
    let out384 := espeonForkskinny128_384Encrypt .masking k (zeroBlk 16) (bufferOf m) m.length
      (bufferOf ad) ad.length npub k
    let out256 := espeonForkskinny128_256Encrypt (.masking 16) k (zeroBlk 16) (bufferOf m) m.length
      (bufferOf ad) ad.length npub k
    let c384 := bytesOf out384.c m.length
    let c256 := bytesOf out256.c m.length
    (espeonForkskinny128_384Decrypt .masking k (bufferOf c384) c384.length out384.tag
        (bufferOf ad) ad.length npub k).result c384.length = (0, m) ∧
    (espeonForkskinny128_256Decrypt (.masking 16) k (bufferOf c256) c256.length out256.tag
        (bufferOf ad) ad.length npub k).result c256.length = (0, m) := by
  intro npub k m ad out384 out256 c384 c256
  exact ⟨(espeon_decrypt_iff_encrypt.1 .masking Forkskinny384.masking_lawful npub k k k (zeroBlk 16)
      out384.tag ad c384 m).mpr rfl,
    (espeon_decrypt_iff_encrypt.2 (.masking 16) (Forkskinny.ofLegs_lawful _ _) npub k k k
      (zeroBlk 16) out256.tag ad c256 m).mpr rfl⟩

end Pobc.Iot
