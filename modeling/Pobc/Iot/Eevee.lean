import Pobc.Basic
import Pobc.Lib.Loop
import Pobc.Lib.Online
import Pobc.Lib.Pad
import Mathlib.Logic.Equiv.Defs
import Mathlib.Logic.Function.Basic

/-!
# Blocks and forkciphers of the Eevee modes (`eevee-forkskinny/eevee_common.{h,c}`)

The forkcipher is a submodule that is not part of the tree: it stands as a
parameter with the calls of `eevee_common.h`. What Jolteon and Espeon share is kept
here: the loop over the whole blocks of a message and the treatment of the last.
-/

namespace Pobc.Iot
open Pobc.Loop Pobc.Online Pobc.Pad

abbrev Blk (n : ℕ) := Fin n → Byte

section Blocks

variable {n : ℕ}

/-- `block_xor64`, `block_xor128` (`eevee_common.c:5-14`). -/
def blockXor (dst src : Blk n) : Blk n := fun j => dst j ^^^ src j

theorem blockXor_comm (x y : Blk n) : blockXor x y = blockXor y x := by
  funext j
  exact BitVec.xor_comm _ _

theorem blockXor_right_comm (x y z : Blk n) :
    blockXor (blockXor x y) z = blockXor (blockXor x z) y := by
  funext j
  simp only [blockXor]
  ac_rfl

theorem blockXor_cancel (x y : Blk n) : blockXor (blockXor x y) y = x := by
  funext j
  simp only [blockXor, BitVec.xor_assoc, BitVec.xor_self, BitVec.xor_zero]

theorem blockXor_eq_iff (x y z : Blk n) : blockXor x y = z ↔ x = blockXor z y := by
  constructor
  · rintro rfl
    exact (blockXor_cancel x y).symm
  · rintro rfl
    exact blockXor_cancel z y

def maskPerm (mask : Blk n) : Equiv.Perm (Blk n) where
  toFun x := blockXor x mask
  invFun x := blockXor x mask
  left_inv x := blockXor_cancel x mask
  right_inv x := blockXor_cancel x mask

def zeroBlk (n : ℕ) : Blk n := fun _ => 0

def readBlk (n : ℕ) (buf : Buffer) (off : ℕ) : Blk n := fun j => buf (off + j)

def Blk.byte (b : Blk n) (i : ℕ) : Byte := if h : i < n then b ⟨i, h⟩ else 0

theorem Blk.byte_val (b : Blk n) (j : Fin n) : b.byte j.val = b j := dif_pos j.isLt

def writeBlk (buf : Buffer) (off : ℕ) (b : Blk n) : Buffer := writeBytes buf off n b.byte

theorem Blk.ext_byte (b b' : Blk n) (h : ∀ i < n, b.byte i = b'.byte i) : b = b' := by
  funext j
  have hj := h j.val j.isLt
  rwa [Blk.byte_val, Blk.byte_val] at hj

theorem byte_readBlk (buf : Buffer) (off i : ℕ) (hi : i < n) :
    (readBlk n buf off).byte i = buf (off + i) := dif_pos hi

end Blocks

/-- `tweakey[hiPos] = ctr.1; tweakey[loPos] = ctr.2`. -/
def setCounter (hiPos loPos : ℕ) (tweakey : Buffer) (ctr : Byte × Byte) : Buffer :=
  Function.update (Function.update tweakey hiPos ctr.1) loPos ctr.2

theorem setCounter_setCounter (hiPos loPos : ℕ) (tweakey : Buffer) (ctr ctr' : Byte × Byte) :
    setCounter hiPos loPos (setCounter hiPos loPos tweakey ctr) ctr' =
      setCounter hiPos loPos tweakey ctr' := by
  funext p
  simp only [setCounter, Function.update_apply]
  split_ifs <;> rfl

theorem setCounter_apply (hiPos loPos : ℕ) (tweakey : Buffer) (ctr : Byte × Byte)
    (hne : hiPos ≠ loPos) : (setCounter hiPos loPos tweakey ctr hiPos,
      setCounter hiPos loPos tweakey ctr loPos) = ctr := by
  rw [setCounter, Function.update_of_ne hne, Function.update_self, Function.update_self]

def counterValue (ctr : Byte × Byte) : ℕ := ctr.1.toNat * 256 + ctr.2.toNat

theorem counterValue_injective : Function.Injective counterValue := by
  rintro ⟨hi, lo⟩ ⟨hi', lo'⟩ h
  have h1 := hi.isLt
  have h2 := lo.isLt
  have h3 := hi'.isLt
  have h4 := lo'.isLt
  simp only [counterValue] at h
  have hhi : hi = hi' := BitVec.eq_of_toNat_eq (by omega)
  have hlo : lo = lo' := BitVec.eq_of_toNat_eq (by omega)
  rw [hhi, hlo]

theorem and_FF (x : ℕ) : x &&& 0xFF = x % 256 := Nat.and_two_pow_sub_one_eq_mod x 8

/-- The local variables of a call. `calls` is not in the source: it records the
tweak and the plaintext block of every use of the forkcipher. -/
structure EeveeState (n : ℕ) (Tweak : Type) where
  tweakey : Buffer
  tA : Blk n
  calls : List (Tweak × Blk n)

structure EeveeEncrypted (n : ℕ) (Tweak : Type) where
  ret : Int
  c : Buffer
  tag : Blk n
  calls : List (Tweak × Blk n)

structure EeveeDecrypted where
  ret : Int
  m : Buffer

/-- Return code, ciphertext and tag of an encryption of `mlen` bytes. -/
def EeveeEncrypted.result {n : ℕ} {Tweak : Type} (out : EeveeEncrypted n Tweak) (mlen : ℕ) :
    Int × List Byte × Blk n := (out.ret, bytesOf out.c mlen, out.tag)

def EeveeDecrypted.result (out : EeveeDecrypted) (clen : ℕ) : Int × List Byte :=
  (out.ret, bytesOf out.m clen)

/-! ### The forkcipher -/

/-- A ForkSkinny implementation with two tweakey schedules, for ForkSkinny-64-192
(`tk1` and `tk23`) and ForkSkinny-128-256 (`tk1` and `tk2`). A call with
`output_left = NULL` has its own field; otherwise both legs are returned, the
left one first. -/
structure Forkskinny (n : ℕ) where
  Tks : Type
  roundsBefore : ℕ
  roundsAfter : ℕ
  initTk1 : Blk n → ℕ → Tks
  initTk2 : Block → ℕ → Tks
  encrypt : Tks → Tks → Blk n → Blk n × Blk n
  encryptRight : Tks → Tks → Blk n → Blk n
  decrypt : Tks → Tks → Blk n → Blk n × Blk n
  decryptRight : Tks → Tks → Blk n → Blk n

namespace Forkskinny

variable {n : ℕ}

def oneLegRounds (F : Forkskinny n) : ℕ := F.roundsBefore + F.roundsAfter
def twoLegRounds (F : Forkskinny n) : ℕ := F.roundsBefore + 2 * F.roundsAfter

/-- Under every tweakey the right leg is a permutation, which a decryption call
inverts, and that call also returns the left leg of what it recovers. -/
structure Lawful (F : Forkskinny n) : Prop where
  right_iff : ∀ t k x y,
    F.encryptRight (F.initTk1 t F.oneLegRounds) (F.initTk2 k F.twoLegRounds) x = y ↔
      F.decryptRight (F.initTk1 t F.oneLegRounds) (F.initTk2 k F.twoLegRounds) y = x
  legs_iff : ∀ t k x y,
    (F.encrypt (F.initTk1 t F.twoLegRounds) (F.initTk2 k F.twoLegRounds) x).2 = y ↔
      (F.decrypt (F.initTk1 t F.twoLegRounds) (F.initTk2 k F.twoLegRounds) y).2 = x
  left_eq : ∀ t k y,
    let back := F.decrypt (F.initTk1 t F.twoLegRounds) (F.initTk2 k F.twoLegRounds) y
    back.1 = (F.encrypt (F.initTk1 t F.twoLegRounds) (F.initTk2 k F.twoLegRounds) back.2).1

/-- The two schedules may be passed in either order. -/
structure OrderFree (F : Forkskinny n) : Prop where
  encrypt : ∀ a b, F.encrypt a b = F.encrypt b a
  encryptRight : ∀ a b, F.encryptRight a b = F.encryptRight b a
  decrypt : ∀ a b, F.decrypt a b = F.decrypt b a
  decryptRight : ∀ a b, F.decryptRight a b = F.decryptRight b a

/-- The forkcipher with given legs, whose schedules are the tweakey parts. -/
def ofLegs (left : Blk n → Block → Blk n → Blk n) (right : Blk n → Block → Equiv.Perm (Blk n)) :
    Forkskinny n where
  Tks := Blk n ⊕ Block
  roundsBefore := 0
  roundsAfter := 0
  initTk1 t _ := .inl t
  initTk2 k _ := .inr k
  encrypt
    | .inl t, .inr k, x => (left t k x, right t k x)
    | .inr k, .inl t, x => (left t k x, right t k x)
    | _, _, x => (x, x)
  encryptRight
    | .inl t, .inr k, x => right t k x
    | .inr k, .inl t, x => right t k x
    | _, _, x => x
  decrypt
    | .inl t, .inr k, y => (left t k ((right t k).symm y), (right t k).symm y)
    | .inr k, .inl t, y => (left t k ((right t k).symm y), (right t k).symm y)
    | _, _, y => (y, y)
  decryptRight
    | .inl t, .inr k, y => (right t k).symm y
    | .inr k, .inl t, y => (right t k).symm y
    | _, _, y => y

/-- A lawful forkcipher that can be run: the right leg masks with the tweak. -/
def masking (n : ℕ) : Forkskinny n := ofLegs (fun _ _ x => x) fun t _ => maskPerm t

theorem ofLegs_lawful (left : Blk n → Block → Blk n → Blk n)
    (right : Blk n → Block → Equiv.Perm (Blk n)) : (ofLegs left right).Lawful where
  right_iff t k _ _ := (right t k).eq_symm_apply.symm.trans eq_comm
  legs_iff t k _ _ := (right t k).eq_symm_apply.symm.trans eq_comm
  left_eq _ _ _ := rfl

theorem ofLegs_orderFree (left : Blk n → Block → Blk n → Blk n)
    (right : Blk n → Block → Equiv.Perm (Blk n)) : (ofLegs left right).OrderFree where
  encrypt a b := by cases a <;> cases b <;> rfl
  encryptRight a b := by cases a <;> cases b <;> rfl
  decrypt a b := by cases a <;> cases b <;> rfl
  decryptRight a b := by cases a <;> cases b <;> rfl

end Forkskinny

/-! ### The loop over the whole blocks -/

section BlockLoop

variable {n : ℕ} {σ : Type*}

/-- Round `i` takes block `i` of `src` and puts its result at block `i` of `dst`;
both pointers of the source move on by one block a round. -/
def blockLoop (step : ℕ → σ → Blk n → Blk n × σ) (src : Buffer) (blocks : ℕ) (s : σ)
    (dst : Buffer) : σ × Buffer :=
  forRange blocks (fun i st =>
    let out := step i st.1 (readBlk n src (n * i))
    (out.2, writeBlk st.2 (n * i) out.1)) (s, dst)

variable (step : ℕ → σ → Blk n → Blk n × σ) (src : Buffer) (s : σ) (dst : Buffer)

def srcBlocks (n : ℕ) (src : Buffer) (i : ℕ) : Blk n := readBlk n src (n * i)

theorem blockLoop_state (blocks : ℕ) :
    (blockLoop step src blocks s dst).1 = runState step s (srcBlocks n src) blocks := by
  induction blocks with
  | zero => rfl
  | succ b ih =>
    rw [runState, ← ih]
    rfl

/- Position `n * i + j` lies in block `i` only. -/
theorem blockLoop_dst (blocks i j : ℕ) (hi : i < blocks) (hj : j < n) :
    (blockLoop step src blocks s dst).2 (n * i + j) =
      (runOut step s (srcBlocks n src) i).byte j := by
  induction blocks with
  | zero => omega
  | succ b ih =>
    have hround : (blockLoop step src (b + 1) s dst).2 =
        writeBlk (blockLoop step src b s dst).2 (n * b)
          (runOut step s (srcBlocks n src) b) := by
      rw [runOut, ← blockLoop_state step src s dst b]
      rfl
    rw [hround, writeBlk, writeBytes]
    rcases Nat.lt_succ_iff_lt_or_eq.mp hi with hlt | rfl
    · have hle : n * (i + 1) ≤ n * b := Nat.mul_le_mul_left n hlt
      rw [Nat.mul_succ] at hle
      have hout : ¬ (n * b ≤ n * i + j ∧ n * i + j < n * b + n) := by omega
      rw [if_neg hout, ih hlt]
    · have hin : n * i ≤ n * i + j ∧ n * i + j < n * i + n := by omega
      rw [if_pos hin, Nat.add_sub_cancel_left]

end BlockLoop

/- A text is its whole blocks and its last bytes. -/
theorem forall_lt_iff_blocks (n len : ℕ) (hn : 0 < n) (hlen : 0 < len) (P : ℕ → Prop) :
    (∀ p < len, P p) ↔ (∀ i < fullBlocks n len, ∀ j < n, P (n * i + j)) ∧
      ∀ j < lastLength n len, P (n * fullBlocks n len + j) := by
  have hsplit := fullBlocks_add_lastLength n len hlen
  constructor
  · intro h
    refine ⟨fun i hi j hj => h _ ?_, fun j hj => h _ (by omega)⟩
    have hle : n * (i + 1) ≤ n * fullBlocks n len := Nat.mul_le_mul_left n hi
    rw [Nat.mul_succ] at hle
    omega
  · rintro ⟨hblocks, hlast⟩ p hp
    have hdiv := Nat.div_add_mod p n
    have hmod := Nat.mod_lt p hn
    by_cases hin : p < n * fullBlocks n len
    · have hi : p / n < fullBlocks n len := Nat.div_lt_of_lt_mul hin
      have hbyte := hblocks (p / n) hi (p % n) hmod
      rwa [hdiv] at hbyte
    · have hoff : n * fullBlocks n len + (p - n * fullBlocks n len) = p := by omega
      have hbyte := hlast (p - n * fullBlocks n len) (by omega)
      rwa [hoff] at hbyte

/-! ### The last block -/

section LastBlock

variable {n : ℕ}

/-- The last block: a copy of the remaining bytes and, when they do not fill it,
`0x80` and zeros (`jolteon_core.c:36-42`, `153-160`, `espeon.c:76-86`, `194-201`).
Bytes that are not copied are overwritten by the padding. -/
def lastBlk (n : ℕ) (data : Buffer) (len : ℕ) : Blk n :=
  let copied : Blk n := fun j =>
    if j.val < len - n * fullBlocks n len then data (n * fullBlocks n len + j) else 0
  if len % n = 0 then copied
  else fun j => if j.val = len % n then 0x80 else if len % n < j.val then 0 else copied j

theorem byte_lastBlk (data : Buffer) (len i : ℕ) (hlen : 0 < len) (hi : i < n) :
    (lastBlk n data len).byte i =
      if i < lastLength n len then data (n * fullBlocks n len + i)
      else if i = lastLength n len then 0x80 else 0 := by
  have hsplit := fullBlocks_add_lastLength n len hlen
  have hcopied : len - n * fullBlocks n len = lastLength n len := by omega
  have hbyte : (lastBlk n data len).byte i = lastBlk n data len ⟨i, hi⟩ := dif_pos hi
  rw [hbyte]
  simp only [lastBlk, hcopied]
  unfold lastLength
  by_cases hw : len % n = 0
  · simp only [if_pos hw, if_pos hi]
  · simp only [if_neg hw]
    split_ifs <;> first | rfl | omega

/-- The end of the decryption functions (`jolteon_core.c:321-339`,
`espeon.c:364-382`): the padding, then the last bytes of the ciphertext. -/
def checkLast (out cOut : Blk n) (c : Buffer) (off lastBlockLength : ℕ) : Int :=
  if lastBlockLength < n ∧ out.byte lastBlockLength ≠ 0x80 then 1
  else if ∃ j : Fin n, lastBlockLength + 1 ≤ j.val ∧ out j ≠ 0 then 1
  else if ∃ j : Fin n, j.val < lastBlockLength ∧ out j ^^^ cOut j ≠ c (off + j) then 1
  else 0

theorem checkLast_eq_zero_iff (out cOut : Blk n) (c : Buffer) (off r : ℕ) (hr : r ≤ n) :
    checkLast out cOut c off r = 0 ↔
      (∀ i < n, r ≤ i → out.byte i = if i = r then 0x80 else 0) ∧
        ∀ i < r, out.byte i ^^^ cOut.byte i = c (off + i) := by
  have hone : (1 : Int) ≠ 0 := by decide
  have hval : ∀ (b : Blk n) (i : ℕ) (hi : i < n), b ⟨i, hi⟩ = b.byte i :=
    fun b i hi => (Blk.byte_val b ⟨i, hi⟩).symm
  unfold checkLast
  constructor
  · intro h
    split_ifs at h with hmark hzero htext
    · exact absurd h hone
    · exact absurd h hone
    · exact absurd h hone
    refine ⟨fun i hi hri => ?_, fun i hi => ?_⟩
    · by_cases hir : i = r
      · rw [if_pos hir, hir]
        by_contra hne
        exact hmark ⟨by omega, hne⟩
      · rw [if_neg hir]
        by_contra hne
        refine hzero ⟨⟨i, hi⟩, ?_, ?_⟩
        · exact Nat.lt_of_le_of_ne hri (Ne.symm hir)
        · rwa [hval out i hi]
    · by_contra hne
      have hin : i < n := by omega
      refine htext ⟨⟨i, hin⟩, hi, ?_⟩
      rwa [hval out i hin, hval cOut i hin]
  · rintro ⟨hpad, htext⟩
    have hmark : ¬ (r < n ∧ out.byte r ≠ 0x80) := by
      rintro ⟨hlt, hne⟩
      have hbyte := hpad r hlt (Nat.le_refl r)
      rw [if_pos rfl] at hbyte
      exact hne hbyte
    have hzero : ¬ ∃ j : Fin n, r + 1 ≤ j.val ∧ out j ≠ 0 := by
      rintro ⟨j, hj, hne⟩
      have hbyte := hpad j.val j.isLt (by omega)
      rw [if_neg (by omega), Blk.byte_val] at hbyte
      exact hne hbyte
    have hlast : ¬ ∃ j : Fin n, j.val < r ∧ out j ^^^ cOut j ≠ c (off + j) := by
      rintro ⟨j, hj, hne⟩
      have hbyte := htext j.val hj
      rw [Blk.byte_val, Blk.byte_val] at hbyte
      exact hne hbyte
    rw [if_neg hmark, if_neg hzero, if_neg hlast]

/- Acceptance of the last block: the recovered block is a padded text `m` under
the mask `tA`, exactly when enciphering that text gives the tag and the bytes. -/
theorem last_iff (right rightInv left : Blk n → Blk n)
    (hright : ∀ x y, right x = y ↔ rightInv y = x) (tA tag : Blk n) (m c : Buffer)
    (len : ℕ) (hn : 0 < n) (hlen : 0 < len) :
    let off := n * fullBlocks n len
    let r := lastLength n len
    let out := blockXor (rightInv tag) tA
    let lastM := blockXor (lastBlk n m len) tA
    (checkLast out (left (rightInv tag)) c off r = 0 ∧ ∀ i < r, out.byte i = m (off + i)) ↔
      right lastM = tag ∧ ∀ i < r, m (off + i) ^^^ (left lastM).byte i = c (off + i) := by
  intro off r out lastM
  have hr : r ≤ n := lastLength_le n len hn
  rw [checkLast_eq_zero_iff _ _ _ _ _ hr]
  -- both sides say that `out` is the padded block
  have hblock : ∀ i < n, (lastBlk n m len).byte i =
      if i < r then m (off + i) else if i = r then 0x80 else 0 :=
    fun i hi => byte_lastBlk m len i hlen hi
  have hout : out = lastBlk n m len ↔ right lastM = tag := by
    rw [hright, blockXor_eq_iff]
  constructor
  · rintro ⟨⟨hpad, htext⟩, hm⟩
    have heq : out = lastBlk n m len := by
      refine Blk.ext_byte _ _ fun i hi => ?_
      rw [hblock i hi]
      by_cases hir : i < r
      · rw [if_pos hir, hm i hir]
      · rw [if_neg hir, hpad i hi (by omega)]
    have htag := hout.mp heq
    refine ⟨htag, fun i hi => ?_⟩
    rw [← htext i hi, hm i hi, (hright _ _).mp htag]
  · rintro ⟨htag, hc⟩
    have heq := hout.mpr htag
    have hm : ∀ i < r, out.byte i = m (off + i) := by
      intro i hi
      rw [heq, hblock i (by omega), if_pos hi]
    refine ⟨⟨fun i hi hri => ?_, fun i hi => ?_⟩, hm⟩
    · rw [heq, hblock i hi, if_neg (by omega)]
    · rw [hm i hi, (hright _ _).mp htag, hc i hi]

end LastBlock

/-! ### The message part of the two functions -/

section RoundTrip

variable {n : ℕ} {σ : Type*} {enc dec : ℕ → σ → Blk n → Blk n × σ}

/- A buffer filled by the loop and then by the last bytes, compared with a text. -/
theorem filled_iff (step : ℕ → σ → Blk n → Blk n × σ) (src dst text : Buffer) (s : σ)
    (len blocks : ℕ) (hn : 0 < n) (hlen : 0 < len) (hblocks : fullBlocks n len = blocks)
    (f : ℕ → Byte) :
    (∀ p < len, writeBytes (blockLoop step src blocks s dst).2 (n * blocks) (lastLength n len) f p =
        text p) ↔
      (∀ i < blocks, runOut step s (srcBlocks n src) i = srcBlocks n text i) ∧
        ∀ j < lastLength n len, f j = text (n * blocks + j) := by
  rw [forall_lt_iff_blocks n len hn hlen, hblocks]
  refine and_congr ?_ ?_
  · refine forall_congr' fun i => forall_congr' fun hi => ?_
    have hbyte : ∀ j < n, writeBytes (blockLoop step src blocks s dst).2 (n * blocks)
        (lastLength n len) f (n * i + j) = (runOut step s (srcBlocks n src) i).byte j := by
      intro j hj
      have hle : n * (i + 1) ≤ n * blocks := Nat.mul_le_mul_left n hi
      rw [Nat.mul_succ] at hle
      have hout : ¬ (n * blocks ≤ n * i + j ∧ n * i + j < n * blocks + lastLength n len) := by
        omega
      rw [writeBytes, if_neg hout, blockLoop_dst step src s dst blocks i j hi hj]
    constructor
    · intro h
      refine Blk.ext_byte _ _ fun j hj => ?_
      rw [srcBlocks, byte_readBlk _ _ _ hj, ← hbyte j hj, h j hj]
    · intro h j hj
      rw [hbyte j hj, h, srcBlocks, byte_readBlk _ _ _ hj]
  · refine forall_congr' fun j => forall_congr' fun hj => ?_
    have hin : n * blocks ≤ n * blocks + j ∧
        n * blocks + j < n * blocks + lastLength n len := by omega
    have hwrite : writeBytes (blockLoop step src blocks s dst).2 (n * blocks) (lastLength n len) f
        (n * blocks + j) = f j := by
      rw [writeBytes, if_pos hin, Nat.add_sub_cancel_left]
    rw [← hwrite]

/- Decrypting `c` and `tag` accepts with the message `m` exactly when enciphering
`m` gives `c` and `tag`. -/
theorem message_iff (h : Undoes enc dec) (s : σ) (tA : σ → Blk n)
    (right rightInv left : σ → Blk n → Blk n)
    (hright : ∀ s x y, right s x = y ↔ rightInv s y = x) (m c m₀ c₀ : Buffer) (tag : Blk n)
    (len : ℕ) (hn : 0 < n) (hlen : 0 < len) :
    let blocks := fullBlocks n len
    let off := n * blocks
    let r := lastLength n len
    let e := blockLoop enc m blocks s c₀
    let d := blockLoop dec c blocks s m₀
    let lastM := blockXor (lastBlk n m len) (tA e.1)
    let out := blockXor (rightInv d.1 tag) (tA d.1)
    (checkLast out (left d.1 (rightInv d.1 tag)) c off r = 0 ∧
        ∀ p < len, writeBytes d.2 off r out.byte p = m p) ↔
      right e.1 lastM = tag ∧
        ∀ p < len, writeBytes e.2 off r (fun i => m (off + i) ^^^ (left e.1 lastM).byte i) p =
          c p := by
  intro blocks off r e d lastM out
  have hdec := filled_iff dec c m₀ m s len blocks hn hlen rfl out.byte
  have henc := filled_iff enc m c₀ c s len blocks hn hlen rfl fun i =>
    m (off + i) ^^^ (left e.1 lastM).byte i
  rw [hdec, henc, and_left_comm, and_left_comm (a := right e.1 lastM = tag),
    ← run_iff h s (srcBlocks n m) (srcBlocks n c)]
  refine and_congr_right fun hrun => ?_
  -- the two loops end in one state, so both last blocks are handled under one tweakey
  have hstate : d.1 = e.1 := by
    have hd := blockLoop_state dec c s m₀ blocks
    have he := blockLoop_state enc m s c₀ blocks
    rw [hd, he, runState_eq h s _ _ _ hrun]
  have hlast := last_iff (right e.1) (rightInv e.1) (left e.1) (hright e.1) (tA e.1) tag m c len hn
    hlen
  refine Iff.trans ?_ hlast
  simp only [out, hstate]
  rfl

end RoundTrip

/-! ### Results of the two functions -/

section Results

variable {n : ℕ} {Tweak : Type}

/- Without a message the tag is the running sum, and nothing is written. -/
theorem emptyMessage_iff (m₀ c₀ m c : Buffer) (tA tag : Blk n) (calls : List (Tweak × Blk n))
    (len : ℕ) (hlen : len = 0) :
    let D : EeveeDecrypted := if ∃ j, tag j ≠ tA j then ⟨1, m₀⟩ else ⟨0, m₀⟩
    let E : EeveeEncrypted n Tweak := ⟨0, c₀, tA, calls⟩
    (D.ret = 0 ∧ ∀ p < len, D.m p = m p) ↔
      E.ret = 0 ∧ E.tag = tag ∧ ∀ p < len, E.c p = c p := by
  intro D E
  have hone : (1 : Int) ≠ 0 := by decide
  have hnone : ∀ P : ℕ → Prop, ∀ p < len, P p := fun P p hp => absurd hp (by omega)
  simp only [D, E]
  split_ifs with hdiff
  · obtain ⟨j, hj⟩ := hdiff
    exact ⟨fun h => absurd h.1 hone, fun h => absurd (congrFun h.2.1 j).symm hj⟩
  · push Not at hdiff
    have htag := (funext hdiff).symm
    exact ⟨fun _ => ⟨trivial, htag, hnone _⟩, fun _ => ⟨rfl, hnone _⟩⟩

/- Comparing results is comparing return codes, tags and bytes. -/
theorem result_iff (D : EeveeDecrypted) (E : EeveeEncrypted n Tweak) (tag : Blk n)
    (c m : List Byte) (h : c.length = m.length →
      ((D.ret = 0 ∧ ∀ p < m.length, D.m p = bufferOf m p) ↔
        E.ret = 0 ∧ E.tag = tag ∧ ∀ p < m.length, E.c p = bufferOf c p)) :
    D.result c.length = (0, m) ↔ E.result m.length = (0, c, tag) := by
  by_cases hlen : c.length = m.length
  · have hc := bytesOf_eq_iff E.c c
    have hm := bytesOf_eq_iff D.m m
    rw [hlen] at hc
    simp only [EeveeDecrypted.result, EeveeEncrypted.result, Prod.mk.injEq]
    rw [hlen, hc, hm, h hlen, and_comm (a := E.tag = tag)]
  · constructor
    · intro hD
      have hm : bytesOf D.m c.length = m := congrArg Prod.snd hD
      rw [← hm, length_bytesOf] at hlen
      exact absurd rfl hlen
    · intro hE
      have hc : bytesOf E.c m.length = c := congrArg (fun r => r.2.1) hE
      rw [← hc, length_bytesOf] at hlen
      exact absurd rfl hlen

end Results

end Pobc.Iot
