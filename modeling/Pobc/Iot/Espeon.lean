import Pobc.Iot.EeveeAd

/-!
# Espeon (`eevee-forkskinny/espeon.c`)

The two instantiations run the same code over different tweakeys. In the message
part the tweak of a block is made of the nonce or of the ciphertext blocks in front
of it; `t_a` is XORed into the first block through the pointer `input`, which points
at `t_a` in the first round.

`tweakey` is not initialised in the source; every byte of it is written before it is
read.
-/

namespace Pobc.Iot
open Pobc.Loop Pobc.Online Pobc.Pad

/-! ### ForkSkinny-128-384 -/

/-- The calls of `eevee_common.h` with three tweakey schedules. As in `Forkskinny`,
a call with `output_left = NULL` has its own field. -/
structure Forkskinny384 where
  Tks : Type
  roundsBefore : ℕ
  roundsAfter : ℕ
  initTk1 : Blk 16 → ℕ → Tks
  initTk2 : Blk 16 → ℕ → Tks
  initTk3 : Block → ℕ → Tks
  encrypt : Tks → Tks → Tks → Blk 16 → Blk 16 × Blk 16
  encryptRight : Tks → Tks → Tks → Blk 16 → Blk 16
  decrypt : Tks → Tks → Tks → Blk 16 → Blk 16 × Blk 16
  decryptRight : Tks → Tks → Tks → Blk 16 → Blk 16

namespace Forkskinny384

def oneLegRounds (F : Forkskinny384) : ℕ := F.roundsBefore + F.roundsAfter
def twoLegRounds (F : Forkskinny384) : ℕ := F.roundsBefore + 2 * F.roundsAfter

/-- As for `Forkskinny`, under three tweakey parts. -/
structure Lawful (F : Forkskinny384) : Prop where
  right_iff : ∀ t u k x y,
    F.encryptRight (F.initTk1 t F.oneLegRounds) (F.initTk2 u F.oneLegRounds)
        (F.initTk3 k F.twoLegRounds) x = y ↔
      F.decryptRight (F.initTk1 t F.oneLegRounds) (F.initTk2 u F.oneLegRounds)
        (F.initTk3 k F.twoLegRounds) y = x
  legs_iff : ∀ t u k x y,
    (F.encrypt (F.initTk1 t F.twoLegRounds) (F.initTk2 u F.twoLegRounds)
        (F.initTk3 k F.twoLegRounds) x).2 = y ↔
      (F.decrypt (F.initTk1 t F.twoLegRounds) (F.initTk2 u F.twoLegRounds)
        (F.initTk3 k F.twoLegRounds) y).2 = x
  left_eq : ∀ t u k y,
    let back := F.decrypt (F.initTk1 t F.twoLegRounds) (F.initTk2 u F.twoLegRounds)
      (F.initTk3 k F.twoLegRounds) y
    back.1 = (F.encrypt (F.initTk1 t F.twoLegRounds) (F.initTk2 u F.twoLegRounds)
      (F.initTk3 k F.twoLegRounds) back.2).1

/-- A lawful forkcipher that can be run: its schedules are the tweakey parts and the
right leg masks with the second. -/
def masking : Forkskinny384 where
  Tks := Blk 16
  roundsBefore := 0
  roundsAfter := 0
  initTk1 t _ := t
  initTk2 t _ := t
  initTk3 t _ := t
  encrypt _ tks2 _ x := (x, maskPerm tks2 x)
  encryptRight _ tks2 _ x := maskPerm tks2 x
  decrypt _ tks2 _ y := ((maskPerm tks2).symm y, (maskPerm tks2).symm y)
  decryptRight _ tks2 _ y := (maskPerm tks2).symm y

theorem masking_lawful : masking.Lawful where
  right_iff _ u _ _ _ := (maskPerm u).eq_symm_apply.symm.trans eq_comm
  legs_iff _ u _ _ _ := (maskPerm u).eq_symm_apply.symm.trans eq_comm
  left_eq _ _ _ _ := rfl

end Forkskinny384

/-! ### The two instantiations -/

/-- What the two instantiations differ in: the tweakey bytes they write before the
two loops and after a round of the second, and the calls of the forkcipher under
the schedules they compute from the tweakey. -/
structure Espeon where
  tksize : ℕ
  KeyTks : Type
  initKeyTks : Buffer → KeyTks
  adStart : Buffer → Buffer → Buffer
  msgStart : Buffer → Buffer → Buffer
  nextTweakey : Buffer → ℕ → Blk 16 → Blk 16 → Buffer → Buffer
  adEncryptRight : KeyTks → Buffer → Buffer → Blk 16 → Blk 16
  encryptRight : KeyTks → Buffer → Blk 16 → Blk 16
  decryptRight : KeyTks → Buffer → Blk 16 → Blk 16
  encrypt : KeyTks → Buffer → Blk 16 → Blk 16 × Blk 16
  decrypt : KeyTks → Buffer → Blk 16 → Blk 16 × Blk 16
  le_tksize : 32 ≤ tksize

/-- `espeon_forkskinny_128_384` (`espeon.c:33-403`). On associated data the second
schedule is that of the nonce, computed once; on the message the two tweak schedules
change with every block. -/
def espeon128_384 (F : Forkskinny384) : Espeon where
  tksize := 48
  KeyTks := F.Tks
  initKeyTks tweakey := F.initTk3 (readBlk 16 tweakey 0) F.twoLegRounds
  adStart npub tweakey :=
    let tweakey := writeBytes tweakey 16 16 npub
    let tweakey := writeBytes tweakey 32 16 fun _ => 0
    Function.update tweakey 47 0
  msgStart npub tweakey :=
    let tweakey := writeBytes tweakey 16 16 npub
    let tweakey := writeBytes tweakey 32 14 fun _ => 0
    let tweakey := Function.update tweakey 46 0x04
    Function.update tweakey 47 0
  nextTweakey npub i block previous tweakey :=
    if i = 0 then
      let tweakey := writeBytes tweakey 16 16 block.byte
      let tweakey := writeBytes tweakey 32 15 npub
      Function.update tweakey 47 0x01
    else
      let tweakey := writeBytes tweakey 16 16 block.byte
      writeBytes tweakey 32 15 previous.byte
  adEncryptRight tks3 start tweakey input :=
    let tks2 := F.initTk2 (readBlk 16 start 16) F.oneLegRounds
    let tks1 := F.initTk1 (readBlk 16 tweakey 32) F.oneLegRounds
    F.encryptRight tks1 tks2 tks3 input
  encryptRight tks3 tweakey input :=
    let tks1 := F.initTk1 (readBlk 16 tweakey 16) F.oneLegRounds
    let tks2 := F.initTk2 (readBlk 16 tweakey 32) F.oneLegRounds
    F.encryptRight tks1 tks2 tks3 input
  decryptRight tks3 tweakey input :=
    let tks1 := F.initTk1 (readBlk 16 tweakey 16) F.oneLegRounds
    let tks2 := F.initTk2 (readBlk 16 tweakey 32) F.oneLegRounds
    F.decryptRight tks1 tks2 tks3 input
  encrypt tks3 tweakey input :=
    let tks1 := F.initTk1 (readBlk 16 tweakey 16) F.twoLegRounds
    let tks2 := F.initTk2 (readBlk 16 tweakey 32) F.twoLegRounds
    F.encrypt tks1 tks2 tks3 input
  decrypt tks3 tweakey input :=
    let tks1 := F.initTk1 (readBlk 16 tweakey 16) F.twoLegRounds
    let tks2 := F.initTk2 (readBlk 16 tweakey 32) F.twoLegRounds
    F.decrypt tks1 tks2 tks3 input
  le_tksize := by decide

/-- `espeon_forkskinny_128_256` (`espeon.c:411-741`), with a nonce of 13 bytes. -/
def espeon128_256 (F : Forkskinny 16) : Espeon where
  tksize := 32
  KeyTks := F.Tks
  initKeyTks tweakey := F.initTk2 (readBlk 16 tweakey 0) F.twoLegRounds
  adStart npub tweakey := Function.update (writeBytes tweakey 16 13 npub) 31 0
  msgStart npub tweakey :=
    let tweakey := writeBytes tweakey 16 13 npub
    let tweakey := Function.update tweakey 29 0
    let tweakey := Function.update tweakey 30 0
    Function.update tweakey 31 0x01
  nextTweakey _ _ block _ tweakey := writeBytes tweakey 16 15 block.byte
  adEncryptRight tks2 _ tweakey input :=
    F.encryptRight (F.initTk1 (readBlk 16 tweakey 16) F.oneLegRounds) tks2 input
  encryptRight tks2 tweakey input :=
    F.encryptRight (F.initTk1 (readBlk 16 tweakey 16) F.oneLegRounds) tks2 input
  decryptRight tks2 tweakey input :=
    F.decryptRight (F.initTk1 (readBlk 16 tweakey 16) F.oneLegRounds) tks2 input
  encrypt tks2 tweakey input :=
    F.encrypt (F.initTk1 (readBlk 16 tweakey 16) F.twoLegRounds) tks2 input
  decrypt tks2 tweakey input :=
    F.decrypt (F.initTk1 (readBlk 16 tweakey 16) F.twoLegRounds) tks2 input
  le_tksize := by decide

namespace Espeon

/-- Under every tweakey the calls with and without a left leg can be undone. -/
structure Lawful (V : Espeon) : Prop where
  right_iff : ∀ key tweakey x y, V.encryptRight (V.initKeyTks key) tweakey x = y ↔
    V.decryptRight (V.initKeyTks key) tweakey y = x
  legs_iff : ∀ key tweakey x y, (V.encrypt (V.initKeyTks key) tweakey x).2 = y ↔
    (V.decrypt (V.initKeyTks key) tweakey y).2 = x
  left_eq : ∀ key tweakey y,
    let back := V.decrypt (V.initKeyTks key) tweakey y
    back.1 = (V.encrypt (V.initKeyTks key) tweakey back.2).1

theorem lawful128_384 (F : Forkskinny384) (hF : F.Lawful) : (espeon128_384 F).Lawful where
  right_iff _ _ x y := hF.right_iff _ _ _ x y
  legs_iff _ _ x y := hF.legs_iff _ _ _ x y
  left_eq _ _ y := hF.left_eq _ _ _ y

theorem lawful128_256 (F : Forkskinny 16) (hF : F.Lawful) : (espeon128_256 F).Lawful where
  right_iff _ _ x y := hF.right_iff _ _ x y
  legs_iff _ _ x y := hF.legs_iff _ _ x y
  left_eq _ _ y := hF.left_eq _ _ y

variable (V : Espeon)

/-- The part of the tweakey behind the key. -/
def tweakOf (tweakey : Buffer) : List Byte := bytesOf (fun i => tweakey (16 + i)) (V.tksize - 16)

def loadKey (k : Buffer) : Buffer := writeBytes (fun _ => 0) 0 16 k

/-! ### Associated data -/

/-- 16 bit counter: `i_15 | i_14 | … | i_0` (`espeon.c:55-57`, `432-434`). -/
def adCounter (i : ℕ) : Byte × Byte :=
  (BitVec.ofNat 8 (((i + 4) >>> 8) &&& 0xFF), BitVec.ofNat 8 ((i + 4) &&& 0xFF))

/-- As in Jolteon the conditional operator tests the sum
`(no_m << 2) + (complete_block)` (`espeon.c:88`, `465`). -/
def lastAdFlag (noM completeBlock : Bool) : Byte :=
  if (noM.toNat <<< 2) + completeBlock.toNat ≠ 0 then 0 else 0xc

def adParams (tks : V.KeyTks) (start : Buffer) : AdParams 16 (List Byte) where
  hiPos := V.tksize - 3
  loPos := V.tksize - 2
  tweakOf := V.tweakOf
  counter := adCounter
  leg := V.adEncryptRight tks start

/-- `_ad` (`espeon.c:33-104`, `411-481`). -/
def ad (tks : V.KeyTks) (npub ad : Buffer) (adlen : ℕ) (noM : Bool)
    (s : EeveeState 16 (List Byte)) : EeveeState 16 (List Byte) :=
  let completeBlock := decide (adlen % 16 = 0)
  let start := V.adStart npub s.tweakey
  eeveeAd (V.adParams tks start) (0, lastAdFlag noM completeBlock) ad adlen
    { s with tweakey := start }

/-- The state both functions reach before they look at the message. -/
def start (adBuf : Buffer) (adlen : ℕ) (noM : Bool) (npub k : Buffer) :
    EeveeState 16 (List Byte) :=
  let tweakey := loadKey k
  let tks := V.initKeyTks tweakey
  let s : EeveeState 16 (List Byte) := ⟨tweakey, zeroBlk 16, []⟩
  if 0 < adlen then V.ad tks npub adBuf adlen noM s else s

/-! ### Message -/

/-- The local variables of the message loops. `previous` is the ciphertext block in
front of the current one (`output - ESPEON_BLOCKSIZE`, `input - ESPEON_BLOCKSIZE`). -/
structure State where
  tweakey : Buffer
  tA : Blk 16
  previous : Blk 16
  calls : List (List Byte × Blk 16)

/-- What both functions write into the tweakey before the loop (`espeon.c:151-156`,
`528-533`, `651-656`). `_decrypt` of ForkSkinny-128-384 has stored `0x01` at
`tweakey[TKSIZE-1]` before, which is overwritten. -/
def messageStart (npub : Buffer) (s : EeveeState 16 (List Byte)) : State :=
  ⟨V.msgStart npub s.tweakey, s.tA, zeroBlk 16, s.calls⟩

/-- One round of the encryption loop (`espeon.c:157-191`, `534-561`). -/
def encStep (tks : V.KeyTks) (npub : Buffer) (i : ℕ) (s : State) (mIn : Blk 16) :
    Blk 16 × State :=
  let tA := blockXor s.tA mIn
  -- in the first round `input` is `t_a`, after the message block has been added to it
  let input := if i = 0 then tA else mIn
  let output := V.encryptRight tks s.tweakey input
  (output,
    { tweakey := V.nextTweakey npub i output s.previous s.tweakey
      tA := tA
      previous := output
      calls := s.calls ++ [(V.tweakOf s.tweakey, input)] })

/-- One round of the decryption loop (`espeon.c:289-323`, `657-683`). -/
def decStep (tks : V.KeyTks) (npub : Buffer) (i : ℕ) (s : State) (input : Blk 16) :
    Blk 16 × State :=
  let inverse := V.decryptRight tks s.tweakey input
  let output := if i = 0 then blockXor inverse s.tA else inverse
  (output,
    { tweakey := V.nextTweakey npub i input s.previous s.tweakey
      tA := blockXor s.tA output
      previous := input
      calls := s.calls ++ [(V.tweakOf s.tweakey, inverse)] })

/-- The tweakey of the last block (`espeon.c:206`, `327`, `576`, `687`). -/
def lastTweakey (tweakey : Buffer) (completeBlock : Bool) : Buffer :=
  Function.update tweakey (V.tksize - 1) (if completeBlock then 0x02 else 0x03)

/-- The message part of `_encrypt` (`espeon.c:141-231`, `518-600`). -/
def encMessage (tks : V.KeyTks) (npub : Buffer) (s : EeveeState 16 (List Byte)) (c₀ m : Buffer)
    (mlen : ℕ) : EeveeEncrypted 16 (List Byte) :=
  let nMBlocks := fullBlocks 16 mlen
  let completeBlock := decide (mlen % 16 = 0)
  let loop := blockLoop (V.encStep tks npub) m nMBlocks (V.messageStart npub s) c₀
  let s := loop.1
  let mIn := blockXor (lastBlk 16 m mlen) s.tA
  let tweakey := V.lastTweakey s.tweakey completeBlock
  let out := V.encrypt tks tweakey mIn
  let c := writeBytes loop.2 (16 * nMBlocks) (lastLength 16 mlen) fun i =>
    m (16 * nMBlocks + i) ^^^ out.1.byte i
  ⟨0, c, out.2, s.calls ++ [(V.tweakOf tweakey, mIn)]⟩

/-- `espeon.c:106-232`, `483-601`. -/
def encryptBytes (c₀ : Buffer) (tag₀ : Blk 16) (m : Buffer) (mlen : ℕ) (adBuf : Buffer)
    (adlen : ℕ) (npub k : Buffer) : EeveeEncrypted 16 (List Byte) :=
  if adlen > 1048576 then ⟨1, c₀, tag₀, []⟩
  else if adlen = 0 ∧ mlen = 0 then ⟨1, c₀, tag₀, []⟩
  else
    let s := V.start adBuf adlen (decide (mlen = 0)) npub k
    if mlen = 0 then ⟨0, c₀, s.tA, s.calls⟩
    else V.encMessage (V.initKeyTks (loadKey k)) npub s c₀ m mlen

/-- The message part of `_decrypt` (`espeon.c:276-382`, `645-741`). -/
def decMessage (tks : V.KeyTks) (npub : Buffer) (s : EeveeState 16 (List Byte)) (m₀ c : Buffer)
    (clen : ℕ) (tag : Blk 16) : EeveeDecrypted :=
  let nMBlocks := fullBlocks 16 clen
  let completeBlock := decide (clen % 16 = 0)
  let loop := blockLoop (V.decStep tks npub) c nMBlocks (V.messageStart npub s) m₀
  let s := loop.1
  let tweakey := V.lastTweakey s.tweakey completeBlock
  let lastBlockLength := lastLength 16 clen
  let inverse := V.decrypt tks tweakey tag
  let out := blockXor inverse.2 s.tA
  let m := writeBytes loop.2 (16 * nMBlocks) lastBlockLength out.byte
  ⟨checkLast out inverse.1 c (16 * nMBlocks) lastBlockLength, m⟩

/-- `espeon.c:234-382`, `603-741`. -/
def decryptBytes (m₀ c : Buffer) (clen : ℕ) (tag : Blk 16) (adBuf : Buffer) (adlen : ℕ)
    (npub k : Buffer) : EeveeDecrypted :=
  if adlen > 1048576 then ⟨1, m₀⟩
  else if adlen = 0 ∧ clen = 0 then ⟨1, m₀⟩
  else
    let s := V.start adBuf adlen (decide (clen = 0)) npub k
    if clen = 0 then
      if ∃ j, tag j ≠ s.tA j then ⟨1, m₀⟩ else ⟨0, m₀⟩
    else V.decMessage (V.initKeyTks (loadKey k)) npub s m₀ c clen tag

end Espeon

/-! ### The functions of `espeon.h` -/

def espeonForkskinny128_384Encrypt (F : Forkskinny384) := (espeon128_384 F).encryptBytes
def espeonForkskinny128_384Decrypt (F : Forkskinny384) := (espeon128_384 F).decryptBytes
def espeonForkskinny128_256Encrypt (F : Forkskinny 16) := (espeon128_256 F).encryptBytes
def espeonForkskinny128_256Decrypt (F : Forkskinny 16) := (espeon128_256 F).decryptBytes

end Pobc.Iot
