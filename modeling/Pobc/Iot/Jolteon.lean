import Pobc.Iot.EeveeAd

/-!
# Jolteon (`eevee-forkskinny/jolteon_core.c`)

`jolteon.c` includes the core twice, under different macros: here one definition
over the values of the macros, and one instance for each inclusion. Two counter
bytes at the end of the tweakey separate the calls of the forkcipher.

`tweakey` is not initialised in the source; every byte of it is written before
it is read.
-/

namespace Pobc.Iot
open Pobc.Loop Pobc.Online Pobc.Pad

/-- The macros of one inclusion of `jolteon_core.c`. -/
structure Jolteon where
  maxMessageLength : ℕ
  blocksize : ℕ
  tksize : ℕ
  keysize : ℕ
  noncesize : ℕ
  two_le_blocksize : 2 ≤ blocksize
  tksize_eq : tksize = keysize + blocksize

/-- `jolteon.c:22-27`. -/
def jolteon64_192 : Jolteon where
  maxMessageLength := 262144
  blocksize := 8
  tksize := 24
  keysize := 16
  noncesize := 6
  two_le_blocksize := by decide
  tksize_eq := rfl

/-- `jolteon.c:66-71`. -/
def jolteon128_256 : Jolteon where
  maxMessageLength := 524288
  blocksize := 16
  tksize := 32
  keysize := 16
  noncesize := 14
  two_le_blocksize := by decide
  tksize_eq := rfl

abbrev JolteonState (J : Jolteon) := EeveeState J.blocksize (Blk J.blocksize)

/-- `tweakey[TKSIZE-2] = ctr.1; tweakey[TKSIZE-1] = ctr.2`. -/
def Jolteon.setCounter (J : Jolteon) (tweakey : Buffer) (ctr : Byte × Byte) : Buffer :=
  Iot.setCounter (J.tksize - 2) (J.tksize - 1) tweakey ctr

/-- The part of the tweakey behind the key. -/
def tweakOf (J : Jolteon) (tweakey : Buffer) : Blk J.blocksize :=
  readBlk J.blocksize tweakey J.keysize

/-- The key and the nonce (`jolteon_core.c:81-83`). -/
def loadTweakey (J : Jolteon) (npub k : Buffer) : Buffer :=
  writeBytes (writeBytes (fun _ => 0) 0 J.keysize k) J.keysize J.noncesize npub

section Core

variable (J : Jolteon) (F : Forkskinny J.blocksize)

/-! ### The macros around the forkcipher -/

/-- `JOLTEON_FK_FORWARD` with both legs. The macro exchanges the legs of
`eevee_common`, so its left output is the right leg of the forkcipher. -/
def fkForward (tks1 tks2 : F.Tks) (input : Blk J.blocksize) : Blk J.blocksize × Blk J.blocksize :=
  ((F.encrypt tks1 tks2 input).2, (F.encrypt tks1 tks2 input).1)

/-- `JOLTEON_FK_FORWARD` with `output_right = NULL`. -/
def fkForwardOne (tks1 tks2 : F.Tks) (input : Blk J.blocksize) : Blk J.blocksize :=
  F.encryptRight tks1 tks2 input

def fkInvert (tks1 tks2 : F.Tks) (input : Blk J.blocksize) : Blk J.blocksize × Blk J.blocksize :=
  ((F.decrypt tks1 tks2 input).2, (F.decrypt tks1 tks2 input).1)

def fkInvertOne (tks1 tks2 : F.Tks) (input : Blk J.blocksize) : Blk J.blocksize :=
  F.decryptRight tks1 tks2 input

def initFixedTks (tweakey : Buffer) : F.Tks := F.initTk2 (readBlk 16 tweakey 0) F.twoLegRounds

def initVarTksOneLeg (tweakey : Buffer) : F.Tks := F.initTk1 (tweakOf J tweakey) F.oneLegRounds

def initVarTksTwoLeg (tweakey : Buffer) : F.Tks := F.initTk1 (tweakOf J tweakey) F.twoLegRounds

/-! ### Associated data -/

/-- 15 bit counter: `0 | i_14 | … | i_0` (`jolteon_core.c:16-17`). -/
def adCounter (i : ℕ) : Byte × Byte :=
  (BitVec.ofNat 8 (((i + 4) >>> 8) &&& 0x7F), BitVec.ofNat 8 ((i + 4) &&& 0xFF))

/-- The conditional operator binds weaker than the sum: the source's
`no_m + (complete_block) ? 0 : 2` tests the sum (`jolteon_core.c:45`). -/
def lastAdFlag (noM completeBlock : Bool) : Byte :=
  if noM.toNat + completeBlock.toNat ≠ 0 then 0 else 2

def jolteonAdParams (tks1 : F.Tks) : AdParams J.blocksize (Blk J.blocksize) where
  hiPos := J.tksize - 2
  loPos := J.tksize - 1
  tweakOf := tweakOf J
  counter := adCounter
  leg tweakey := fkForwardOne J F tks1 (initVarTksOneLeg J F tweakey)

/-- `_ad` (`jolteon_core.c:3-61`). -/
def jolteonAd (tks1 : F.Tks) (ad : Buffer) (adlen : ℕ) (noM : Bool) (s : JolteonState J) :
    JolteonState J :=
  let completeBlock := decide (adlen % J.blocksize = 0)
  eeveeAd (jolteonAdParams J F tks1) (0, lastAdFlag noM completeBlock) ad adlen s

/-! ### Message -/

/-- 15 bit counter: `1 | i_14 | … | i_0` (`jolteon_core.c:116-117`, `246-247`). -/
def msgCounter (i : ℕ) : Byte × Byte :=
  (BitVec.ofNat 8 ((((i + 2) >>> 8) &&& 0x7F) ||| 0x80), BitVec.ofNat 8 ((i + 2) &&& 0xFF))

def lastMsgCounter (completeBlock : Bool) : Byte × Byte := (0x80, if completeBlock then 0 else 1)

/-- One round of the encryption loop (`jolteon_core.c:113-148`). -/
def encStep (tks1 : F.Tks) (i : ℕ) (s : JolteonState J) (mIn : Blk J.blocksize) :
    Blk J.blocksize × JolteonState J :=
  let tweakey := J.setCounter s.tweakey (msgCounter i)
  let tA := blockXor s.tA mIn
  let tks2 := initVarTksOneLeg J F tweakey
  let cOut := fkForwardOne J F tks1 tks2 mIn
  (cOut,
    { tweakey := tweakey
      tA := blockXor tA cOut
      calls := s.calls ++ [(tweakOf J tweakey, mIn)] })

/-- One round of the decryption loop (`jolteon_core.c:243-279`). -/
def decStep (tks1 : F.Tks) (i : ℕ) (s : JolteonState J) (cIn : Blk J.blocksize) :
    Blk J.blocksize × JolteonState J :=
  let tweakey := J.setCounter s.tweakey (msgCounter i)
  let tks2 := initVarTksOneLeg J F tweakey
  let mOut := fkInvertOne J F tks1 tks2 cIn
  let tA := blockXor s.tA cIn
  (mOut,
    { tweakey := tweakey
      tA := blockXor tA mOut
      calls := s.calls ++ [(tweakOf J tweakey, mOut)] })

/-- The state both functions reach before they look at the message. -/
def jolteonStart (ad : Buffer) (adlen : ℕ) (noM : Bool) (npub k : Buffer) : JolteonState J :=
  let tweakey := loadTweakey J npub k
  let tks1 := initFixedTks J F tweakey
  let s : JolteonState J := ⟨tweakey, zeroBlk J.blocksize, []⟩
  if 0 < adlen then jolteonAd J F tks1 ad adlen noM s else s

/-- The message part of `_encrypt` (`jolteon_core.c:105-185`). -/
def encMessage (tks1 : F.Tks) (s : JolteonState J) (c₀ m : Buffer) (mlen : ℕ) :
    EeveeEncrypted J.blocksize (Blk J.blocksize) :=
  let nMBlocks := fullBlocks J.blocksize mlen
  let completeBlock := decide (mlen % J.blocksize = 0)
  let loop := blockLoop (encStep J F tks1) m nMBlocks s c₀
  let s := loop.1
  let lastM := blockXor (lastBlk J.blocksize m mlen) s.tA
  let tweakey := J.setCounter s.tweakey (lastMsgCounter completeBlock)
  let tks2 := initVarTksTwoLeg J F tweakey
  let out := fkForward J F tks1 tks2 lastM
  let c := writeBytes loop.2 (J.blocksize * nMBlocks) (lastLength J.blocksize mlen) fun i =>
    m (J.blocksize * nMBlocks + i) ^^^ out.2.byte i
  ⟨0, c, out.1, s.calls ++ [(tweakOf J tweakey, lastM)]⟩

/-- `_encrypt` (`jolteon_core.c:63-186`). -/
def jolteonEncrypt (c₀ : Buffer) (tag₀ : Blk J.blocksize) (m : Buffer) (mlen : ℕ) (ad : Buffer)
    (adlen : ℕ) (npub k : Buffer) : EeveeEncrypted J.blocksize (Blk J.blocksize) :=
  if mlen > J.maxMessageLength then ⟨1, c₀, tag₀, []⟩
  else if adlen > J.maxMessageLength then ⟨1, c₀, tag₀, []⟩
  else if adlen = 0 ∧ mlen = 0 then ⟨1, c₀, tag₀, []⟩
  else
    let tks1 := initFixedTks J F (loadTweakey J npub k)
    let s := jolteonStart J F ad adlen (decide (mlen = 0)) npub k
    if mlen = 0 then ⟨0, c₀, s.tA, s.calls⟩
    else encMessage J F tks1 s c₀ m mlen

/-- The message part of `_decrypt` (`jolteon_core.c:236-339`). -/
def decMessage (tks1 : F.Tks) (s : JolteonState J) (m₀ c : Buffer) (clen : ℕ)
    (tag : Blk J.blocksize) : EeveeDecrypted :=
  let nMBlocks := fullBlocks J.blocksize clen
  let completeBlock := decide (clen % J.blocksize = 0)
  let loop := blockLoop (decStep J F tks1) c nMBlocks s m₀
  let s := loop.1
  let tweakey := J.setCounter s.tweakey (lastMsgCounter completeBlock)
  let lastBlockLength := lastLength J.blocksize clen
  let tks2 := initVarTksTwoLeg J F tweakey
  let inverse := fkInvert J F tks1 tks2 tag
  let out := blockXor inverse.1 s.tA
  let m := writeBytes loop.2 (J.blocksize * nMBlocks) lastBlockLength out.byte
  ⟨checkLast out inverse.2 c (J.blocksize * nMBlocks) lastBlockLength, m⟩

/-- `_decrypt` (`jolteon_core.c:188-339`). -/
def jolteonDecrypt (m₀ : Buffer) (c : Buffer) (clen : ℕ) (tag : Blk J.blocksize) (ad : Buffer)
    (adlen : ℕ) (npub k : Buffer) : EeveeDecrypted :=
  if clen > J.maxMessageLength then ⟨1, m₀⟩
  else if adlen > J.maxMessageLength then ⟨1, m₀⟩
  else if adlen = 0 ∧ clen = 0 then ⟨1, m₀⟩
  else
    let tks1 := initFixedTks J F (loadTweakey J npub k)
    let s := jolteonStart J F ad adlen (decide (clen = 0)) npub k
    if clen = 0 then
      if ∃ j, tag j ≠ s.tA j then ⟨1, m₀⟩ else ⟨0, m₀⟩
    else decMessage J F tks1 s m₀ c clen tag

/-! ### The branches of a call -/

structure LengthsAccepted (mlen adlen : ℕ) : Prop where
  mlen_le : mlen ≤ J.maxMessageLength
  adlen_le : adlen ≤ J.maxMessageLength
  nonempty : ¬ (adlen = 0 ∧ mlen = 0)

variable {mlen adlen : ℕ} (c₀ m₀ m c ad npub k : Buffer) (tag₀ tag : Blk J.blocksize)

/- The three checks in front of both functions. -/
theorem checks_rejected {α : Type*} (h : ¬ LengthsAccepted J mlen adlen) (x y : α) :
    (if mlen > J.maxMessageLength then x else if adlen > J.maxMessageLength then x
      else if adlen = 0 ∧ mlen = 0 then x else y) = x := by
  split_ifs with h1 h2 h3
  · rfl
  · rfl
  · rfl
  · exact absurd ⟨Nat.not_lt.mp h1, Nat.not_lt.mp h2, h3⟩ h

theorem jolteonEncrypt_rejected (h : ¬ LengthsAccepted J mlen adlen) :
    jolteonEncrypt J F c₀ tag₀ m mlen ad adlen npub k = ⟨1, c₀, tag₀, []⟩ :=
  checks_rejected J h _ _

theorem jolteonEncrypt_accepted (h : LengthsAccepted J mlen adlen) :
    jolteonEncrypt J F c₀ tag₀ m mlen ad adlen npub k =
      let s := jolteonStart J F ad adlen (decide (mlen = 0)) npub k
      if mlen = 0 then ⟨0, c₀, s.tA, s.calls⟩
      else encMessage J F (initFixedTks J F (loadTweakey J npub k)) s c₀ m mlen := by
  have h1 : ¬ mlen > J.maxMessageLength := Nat.not_lt.mpr h.mlen_le
  have h2 : ¬ adlen > J.maxMessageLength := Nat.not_lt.mpr h.adlen_le
  rw [jolteonEncrypt, if_neg h1, if_neg h2, if_neg h.nonempty]

theorem jolteonDecrypt_rejected (h : ¬ LengthsAccepted J mlen adlen) :
    jolteonDecrypt J F m₀ c mlen tag ad adlen npub k = ⟨1, m₀⟩ :=
  checks_rejected J h _ _

theorem jolteonDecrypt_accepted (h : LengthsAccepted J mlen adlen) :
    jolteonDecrypt J F m₀ c mlen tag ad adlen npub k =
      let s := jolteonStart J F ad adlen (decide (mlen = 0)) npub k
      if mlen = 0 then if ∃ j, tag j ≠ s.tA j then ⟨1, m₀⟩ else ⟨0, m₀⟩
      else decMessage J F (initFixedTks J F (loadTweakey J npub k)) s m₀ c mlen tag := by
  have h1 : ¬ mlen > J.maxMessageLength := Nat.not_lt.mpr h.mlen_le
  have h2 : ¬ adlen > J.maxMessageLength := Nat.not_lt.mpr h.adlen_le
  rw [jolteonDecrypt, if_neg h1, if_neg h2, if_neg h.nonempty]

end Core

/-! ### The functions of `jolteon.h` -/

def jolteonForkskinny64_192Encrypt (F : Forkskinny 8) := jolteonEncrypt jolteon64_192 F
def jolteonForkskinny64_192Decrypt (F : Forkskinny 8) := jolteonDecrypt jolteon64_192 F
def jolteonForkskinny128_256Encrypt (F : Forkskinny 16) := jolteonEncrypt jolteon128_256 F
def jolteonForkskinny128_256Decrypt (F : Forkskinny 16) := jolteonDecrypt jolteon128_256 F

end Pobc.Iot
