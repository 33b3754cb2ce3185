import Pobc.Iot.Ghash
import Pobc.Iot.AesModes

/-!
# A forkcipher from AES and XEX masks (`aes/aes_xex_fork.c`)

`xex_init` and `gcm_mult` are copies of those of `aes/ghash.c`. `long_fork` works in
the memory of its caller: `c_left0` takes partial products before it takes a
ciphertext, so what is read after the first of them must lie elsewhere.
-/

namespace Pobc.Iot.Xex
open Pobc.Gcm Pobc.Reflected
open Pobc.Aes (blockOf)

structure XexKey where
  HL : ℕ → BitVec 64
  HH : ℕ → BitVec 64

structure LongXexKey where
  keyPower : Fin 2 → XexKey
  keyCubed : Block

/-- `xex_init` (`aes_xex_fork.c:36-77`). -/
def xexInit (h : Block) : XexKey := ⟨(ghashInit h).HL, (ghashInit h).HH⟩

/-- `gcm_mult` (`aes_xex_fork.c:96-137`). -/
def gcmMult (ctx : XexKey) (x : Block) : Block := Iot.gcmMult ⟨ctx.HL, ctx.HH, zeroBlock⟩ x

/-- `long_xex_init` (`aes_xex_fork.c:139-148`). -/
def longXexInit (key : Block) : LongXexKey :=
  let keyPower0 := xexInit key
  let keyCubed := gcmMult keyPower0 key
  let keyPower1 := xexInit keyCubed
  let keyCubed := gcmMult keyPower1 key
  ⟨fun i => if i = 0 then keyPower0 else keyPower1, keyCubed⟩

def getBlock (mem : Buffer) (p : ℕ) : Block := fun j => mem (p + j)

def putBlock (mem : Buffer) (p : ℕ) (b : Block) : Buffer := writeBytes mem p 16 (byteAt b)

/-- `long_fork` (`aes_xex_fork.c:175-208`); `m1` is read only where there is a `tweak1`.
Without a second plaintext the cipher works twice on the first one. -/
def longFork (E : Block → Block) (mem : Buffer) (cLeft0 cLeft1 m0 m1 tweak0 : ℕ)
    (tweak1 : Option ℕ) (longXexKey : LongXexKey) : Buffer :=
  let xexTweak0 := gcmMult (longXexKey.keyPower 0) (getBlock mem (tweak0 + 16))
  let mem := putBlock mem cLeft0 (gcmMult (longXexKey.keyPower 1) (getBlock mem tweak0))
  let xexTweak0 := xorBlocks xexTweak0 (getBlock mem cLeft0)
  match tweak1 with
  | none =>
    let m0Xex := xorBlocks (getBlock mem m0) xexTweak0
    let (ctext0, _) := aes128EncryptFfs E m0Xex m0Xex
    let mem := putBlock mem cLeft0 ctext0
    putBlock mem cLeft0 (xorBlocks (getBlock mem cLeft0) xexTweak0)
  | some tweak1 =>
    let xexTweak1 := gcmMult (longXexKey.keyPower 0) (getBlock mem (tweak1 + 16))
    let mem := putBlock mem cLeft0 (gcmMult (longXexKey.keyPower 1) (getBlock mem tweak1))
    let xexTweak1 := xorBlocks xexTweak1 (xorBlocks (getBlock mem cLeft0) longXexKey.keyCubed)
    let m0Xex := xorBlocks (getBlock mem m0) xexTweak0
    let m1Xex := xorBlocks (getBlock mem m1) xexTweak1
    let (ctext0, ctext1) := aes128EncryptFfs E m0Xex m1Xex
    let mem := putBlock (putBlock mem cLeft0 ctext0) cLeft1 ctext1
    let mem := putBlock mem cLeft0 (xorBlocks (getBlock mem cLeft0) xexTweak0)
    putBlock mem cLeft1 (xorBlocks (getBlock mem cLeft1) xexTweak1)

/-! ### Blocks in memory -/

/-- The blocks at `p` and `q` have no byte in common. -/
abbrev Apart (p q : ℕ) : Prop := p + 16 ≤ q ∨ q + 16 ≤ p

@[simp] theorem getBlock_putBlock (mem : Buffer) (p : ℕ) (b : Block) :
    getBlock (putBlock mem p b) p = b := by
  funext j
  have hin : p ≤ p + j.val ∧ p + j.val < p + 16 := ⟨by omega, by omega⟩
  rw [getBlock, putBlock, writeBytes, if_pos hin, Nat.add_sub_cancel_left, byteAt_val]

theorem getBlock_putBlock_of_apart (mem : Buffer) (p q : ℕ) (b : Block) (h : Apart p q) :
    getBlock (putBlock mem p b) q = getBlock mem q := by
  funext j
  have hj := j.isLt
  have hout : ¬ (p ≤ q + j.val ∧ q + j.val < p + 16) := by omega
  rw [getBlock, putBlock, writeBytes, if_neg hout]
  rfl

/-! ### The powers of the key -/

theorem xexInit_keyedBy (h : Block) :
    KeyedBy ⟨(xexInit h).HL, (xexInit h).HH, zeroBlock⟩ h := ghashInit_keyedBy h

theorem fieldOf_gcmMult (h x : Block) :
    fieldOf (gcmMult (xexInit h) x) = fieldOf x * fieldOf h := by
  rw [gcmMult, gcmMult_eq _ h x (xexInit_keyedBy h), fieldOf_gfMul]

theorem fieldOf_keyPower0 (key x : Block) :
    fieldOf (gcmMult ((longXexInit key).keyPower 0) x) = fieldOf x * fieldOf key :=
  fieldOf_gcmMult key x

theorem fieldOf_keyPower1 (key x : Block) :
    fieldOf (gcmMult ((longXexInit key).keyPower 1) x) = fieldOf x * fieldOf key ^ 2 := by
  have hpower : (longXexInit key).keyPower 1 = xexInit (gcmMult (xexInit key) key) := rfl
  rw [hpower, fieldOf_gcmMult, fieldOf_gcmMult, pow_two]

theorem fieldOf_keyCubed (key : Block) : fieldOf (longXexInit key).keyCubed = fieldOf key ^ 3 := by
  have hcubed : (longXexInit key).keyCubed = gcmMult ((longXexInit key).keyPower 1) key := rfl
  rw [hcubed, fieldOf_keyPower1, pow_succ' _ 2]

/-! ### The masks -/

/-- The block of a field element. -/
def ofField (a : GcmField) : Block := blockOf a.bits.reverse

theorem fieldOf_ofField (a : GcmField) : fieldOf (ofField a) = a := by
  rw [fieldOf, ofField, bitString_blockOf, toGf, BitVec.reverse_reverse_eq]

theorem eq_ofField (b : Block) (a : GcmField) (h : fieldOf b = a) : b = ofField a :=
  fieldOf_injective (h.trans (fieldOf_ofField a).symm)

/-- The mask of a tweak of two blocks and a bit: the second block times the key, the first
one times its square, the bit times its cube. -/
def longMask (key first second : Block) (bit : GcmField) : Block :=
  ofField (fieldOf second * fieldOf key + fieldOf first * fieldOf key ^ 2 + bit * fieldOf key ^ 3)

theorem xexTweak0_eq (key first second : Block) :
    xorBlocks (gcmMult ((longXexInit key).keyPower 0) second)
      (gcmMult ((longXexInit key).keyPower 1) first) = longMask key first second 0 := by
  apply eq_ofField
  rw [fieldOf_xorBlocks, fieldOf_keyPower0, fieldOf_keyPower1, zero_mul, add_zero]

theorem xexTweak1_eq (key first second : Block) :
    xorBlocks (gcmMult ((longXexInit key).keyPower 0) second)
      (xorBlocks (gcmMult ((longXexInit key).keyPower 1) first) (longXexInit key).keyCubed) =
      longMask key first second 1 := by
  apply eq_ofField
  rw [fieldOf_xorBlocks, fieldOf_xorBlocks, fieldOf_keyPower0, fieldOf_keyPower1, fieldOf_keyCubed,
    one_mul, add_assoc]

/-! ### The two paths -/

section Fork

variable (E : Block → Block) (key : Block) (mem : Buffer)

/-- `E` with a mask on both sides. -/
def masked (D m : Block) : Block := xorBlocks (E (xorBlocks m D)) D

theorem longFork_one (cLeft0 cLeft1 m0 m1 tweak0 : ℕ) (hm0 : Apart cLeft0 m0) :
    getBlock (longFork E mem cLeft0 cLeft1 m0 m1 tweak0 none (longXexInit key)) cLeft0 =
      masked E (longMask key (getBlock mem tweak0) (getBlock mem (tweak0 + 16)) 0)
        (getBlock mem m0) := by
  simp only [longFork, aes128EncryptFfs, getBlock_putBlock, xexTweak0_eq,
    getBlock_putBlock_of_apart _ _ _ _ hm0]
  rfl

theorem longFork_two (cLeft0 cLeft1 m0 m1 tweak0 tweak1 : ℕ) (hout : Apart cLeft0 cLeft1)
    (hm0 : Apart cLeft0 m0) (hm1 : Apart cLeft0 m1) (hfirst : Apart cLeft0 tweak1)
    (hsecond : Apart cLeft0 (tweak1 + 16)) :
    let out := longFork E mem cLeft0 cLeft1 m0 m1 tweak0 (some tweak1) (longXexInit key)
    getBlock out cLeft0 =
      masked E (longMask key (getBlock mem tweak0) (getBlock mem (tweak0 + 16)) 0)
        (getBlock mem m0) ∧
    getBlock out cLeft1 =
      masked E (longMask key (getBlock mem tweak1) (getBlock mem (tweak1 + 16)) 1)
        (getBlock mem m1) := by
  have hback : Apart cLeft1 cLeft0 := hout.symm
  constructor
  · simp only [longFork, aes128EncryptFfs, getBlock_putBlock, xexTweak0_eq,
      getBlock_putBlock_of_apart _ _ _ _ hback, getBlock_putBlock_of_apart _ _ _ _ hm0]
    rfl
  · simp only [longFork, aes128EncryptFfs, getBlock_putBlock, xexTweak1_eq,
      getBlock_putBlock_of_apart _ _ _ _ hout, getBlock_putBlock_of_apart _ _ _ _ hm1,
      getBlock_putBlock_of_apart _ _ _ _ hfirst, getBlock_putBlock_of_apart _ _ _ _ hsecond]
    rfl

/-- Both outputs are the cipher behind masks that are the tweak times the powers of the
key, and the call with one lane has the same first output. Of the inputs only what is read
after the first write to `c_left0` has to keep clear of it. -/
theorem longFork_outputs (cLeft0 cLeft1 m0 m1 tweak0 tweak1 : ℕ) (hout : Apart cLeft0 cLeft1)
    (hm0 : Apart cLeft0 m0) (hm1 : Apart cLeft0 m1) (hfirst : Apart cLeft0 tweak1)
    (hsecond : Apart cLeft0 (tweak1 + 16)) :
    let K := fieldOf key
    let t (p : ℕ) := fieldOf (getBlock mem p)
    let D0 := ofField (t (tweak0 + 16) * K + t tweak0 * K ^ 2)
    let D1 := ofField (t (tweak1 + 16) * K + t tweak1 * K ^ 2 + K ^ 3)
    let out := longFork E mem cLeft0 cLeft1 m0 m1 tweak0 (some tweak1) (longXexInit key)
    getBlock out cLeft0 = masked E D0 (getBlock mem m0) ∧
    getBlock out cLeft1 = masked E D1 (getBlock mem m1) ∧
    ∀ null₁ null₂, getBlock (longFork E mem cLeft0 null₁ m0 null₂ tweak0 none (longXexInit key))
      cLeft0 = getBlock out cLeft0 := by
  intro K t D0 D1 out
  have hD0 : longMask key (getBlock mem tweak0) (getBlock mem (tweak0 + 16)) 0 = D0 := by
    simp only [longMask, D0, t, K, zero_mul, add_zero]
  have hD1 : longMask key (getBlock mem tweak1) (getBlock mem (tweak1 + 16)) 1 = D1 := by
    simp only [longMask, D1, t, K, one_mul]
  obtain ⟨h0, h1⟩ := longFork_two E key mem cLeft0 cLeft1 m0 m1 tweak0 tweak1 hout hm0 hm1 hfirst
    hsecond
  rw [hD0] at h0
  rw [hD1] at h1
  refine ⟨h0, h1, fun null₁ null₂ => ?_⟩
  have hone := longFork_one E key mem cLeft0 null₁ m0 null₂ tweak0 hm0
  rw [hD0] at hone
  exact hone.trans h0.symm

end Fork

theorem longFork_outputs_example :
    let mem : Buffer := fun p => BitVec.ofNat 8 p
    let K := fieldOf (fun _ => 3)
    let t (p : ℕ) := fieldOf (getBlock mem p)
    let D0 := ofField (t (64 + 16) * K + t 64 * K ^ 2)
    let D1 := ofField (t (96 + 16) * K + t 96 * K ^ 2 + K ^ 3)
    let out := longFork id mem 0 16 32 48 64 (some 96) (longXexInit fun _ => 3)
    getBlock out 0 = masked id D0 (getBlock mem 32) ∧
    getBlock out 16 = masked id D1 (getBlock mem 48) ∧
    ∀ null₁ null₂, getBlock (longFork id mem 0 null₁ 32 null₂ 64 none (longXexInit fun _ => 3)) 0 =
      getBlock out 0 :=
  longFork_outputs id (fun _ => 3) (fun p => BitVec.ofNat 8 p) 0 16 32 48 64 96 (by decide)
    (by decide) (by decide) (by decide) (by decide)

end Pobc.Iot.Xex
