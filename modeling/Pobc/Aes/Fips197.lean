import Pobc.Basic
import Pobc.Lib.Loop
import Mathlib.Data.Fin.VecNotation
import Mathlib.Tactic.LinearCombination

/-!
# AES-128

The cipher of FIPS-197 on byte arrays: byte `4c + r` of a block is row `r` of
column `c` of the state. This is the meaning both implementations are measured
against; nothing here is taken from the repository's code.
-/

namespace Pobc.Aes
open Pobc.Loop

variable {α : Type*}

/- One constant for the rows of a column, whatever else is imported. -/
instance instNeZeroFour : NeZero 4 := ⟨Nat.succ_ne_zero 3⟩

/-! ### Bytes -/

/-- `x^254`, the multiplicative inverse of a nonzero `x`. -/
def gfInv (x : AesField) : AesField :=
  let x2 := x * x
  let x4 := x2 * x2
  let x8 := x4 * x4
  let x16 := x8 * x8
  let x32 := x16 * x16
  let x64 := x32 * x32
  let x128 := x64 * x64
  ((x2 * x4) * (x8 * x16)) * ((x32 * x64) * x128)

/-- The matrix of the affine transformation: bit `i` of the result is the sum of
the bits `i`, `i + 4`, `i + 5`, `i + 6` and `i + 7` modulo 8. -/
def affineLinear (b : Byte) : Byte :=
  b ^^^ b.rotateLeft 1 ^^^ b.rotateLeft 2 ^^^ b.rotateLeft 3 ^^^ b.rotateLeft 4

/-- The matrix of the inverse affine transformation: bit `i` of the result is the
sum of the bits `i + 2`, `i + 5` and `i + 7` modulo 8. -/
def invAffineLinear (b : Byte) : Byte := b.rotateLeft 1 ^^^ b.rotateLeft 3 ^^^ b.rotateLeft 6

def sbox (b : Byte) : Byte := affineLinear (gfInv (lane b)).bits ^^^ 0x63

/-- `{02} • b`. -/
def xtime (b : Byte) : Byte := (Gf.mulY (lane b)).bits

/-! ### State -/

def subBytes (s : Block) : Block := fun i => sbox (s i)

/-- Row `r` moves left by `r` columns. -/
def shiftRows (s : Fin 16 → α) : Fin 16 → α :=
  fun i => byteAt s (4 * ((i.val / 4 + i.val % 4) % 4) + i.val % 4)

def column (s : Fin 16 → α) (c : ℕ) : Fin 4 → α := fun r => byteAt s (4 * c + r)

def ofColumns (f : ℕ → Fin 4 → α) : Fin 16 → α := fun i => f (i.val / 4) (Fin.ofNat 4 i.val)

def mixColumn (a : Fin 4 → Byte) : Fin 4 → Byte :=
  ![xtime (a 0) ^^^ (xtime (a 1) ^^^ a 1) ^^^ a 2 ^^^ a 3,
    a 0 ^^^ xtime (a 1) ^^^ (xtime (a 2) ^^^ a 2) ^^^ a 3,
    a 0 ^^^ a 1 ^^^ xtime (a 2) ^^^ (xtime (a 3) ^^^ a 3),
    (xtime (a 0) ^^^ a 0) ^^^ a 1 ^^^ a 2 ^^^ xtime (a 3)]

def mixColumns (s : Block) : Block := ofColumns fun c => mixColumn (column s c)

/-! ### Key expansion -/

def rotWord (w : Fin 4 → α) : Fin 4 → α := fun j => w (j + 1)

def subWord (w : Fin 4 → Byte) : Fin 4 → Byte := fun j => sbox (w j)

/-- `Rcon[i]`, the word `(x^(i-1), 0, 0, 0)`. -/
def rcon (i : ℕ) : Fin 4 → Byte := fun j => if j = 0 then xtime^[i - 1] 1 else 0

def word (w : ℕ → α) (i : ℕ) : Fin 4 → α := fun j => w (4 * i + j)

def setWord (w : ℕ → α) (i : ℕ) (v : Fin 4 → α) : ℕ → α :=
  fun p => if p / 4 = i then v (Fin.ofNat 4 p) else w p

def scheduleWord (w : ℕ → Byte) (i : ℕ) : Fin 4 → Byte :=
  let temp := word w (i - 1)
  if i % 4 = 0 then fun j => subWord (rotWord temp) j ^^^ rcon (i / 4) j else temp

def expandStep (n : ℕ) (w : ℕ → Byte) : ℕ → Byte :=
  setWord w (n + 4) fun j => word w n j ^^^ scheduleWord w (n + 4) j

def keyBytes (key : Fin 16 → α) (d : α) : ℕ → α := fun p => if p < 16 then byteAt key p else d

/-- `KeyExpansion` with `Nk = 4`, `Nr = 10`. -/
def keyExpansion (key : Block) : ℕ → Byte := forRange 40 expandStep (keyBytes key 0)

/-! ### Cipher -/

def roundKey (w : ℕ → α) (r : ℕ) : Fin 16 → α := fun i => w (16 * r + i)

def cipherRound (w : ℕ → Byte) (n : ℕ) (s : Block) : Block :=
  xorBlocks (mixColumns (shiftRows (subBytes s))) (roundKey w (n + 1))

def finalRound (w : ℕ → Byte) (s : Block) : Block :=
  xorBlocks (shiftRows (subBytes s)) (roundKey w 10)

def cipher (w : ℕ → Byte) (input : Block) : Block :=
  finalRound w (forRange 9 (cipherRound w) (xorBlocks input (roundKey w 0)))

def aes128 (key input : Block) : Block := cipher (keyExpansion key) input

/-! ### The S-box -/

theorem gfInv_eq (x : AesField) : gfInv x = x^254 := by
  simp only [gfInv, ← pow_two, ← pow_mul, ← pow_add, Nat.reduceMul, Nat.reducePow, Nat.reduceAdd]

theorem pow_256 (x : AesField) : x^256 = x := by
  have hbasis : ∀ i < 8, (fun y : AesField => y * y)^[8] (Gf.power 8 0x1b#8 i) =
      Gf.power 8 0x1b#8 i := by decide +kernel
  have hid : Gf.frobenius 8 = AddMonoidHom.id AesField := by
    refine Gf.addHom_ext _ _ fun i hi => ?_
    exact (Gf.iterate_square _ 8).symm.trans (hbasis i hi)
  exact DFunLike.congr_fun hid x

theorem gfInv_gfInv (x : AesField) : gfInv (gfInv x) = x := by
  have hexp : 254 * 254 = 256 * 252 + 4 := rfl
  rw [gfInv_eq, gfInv_eq, ← pow_mul, hexp, pow_add, pow_mul, pow_256, ← pow_add]
  exact pow_256 x

theorem mul_gfInv_idempotent (x : AesField) : (x * gfInv x) * (x * gfInv x) = x * gfInv x := by
  have hpow : x * gfInv x = x^255 := by rw [gfInv_eq, ← pow_succ']
  have hsplit : 255 + 255 = 256 + 254 := rfl
  rw [hpow, ← pow_add, hsplit, pow_add, pow_256, ← pow_succ']

/- A field of characteristic two has two idempotents. -/
theorem mul_gfInv (x : AesField) (hx : x ≠ 0) : x * gfInv x = 1 := by
  have hidem : ∀ b : Byte, lane b * lane b = lane b → b = 0 ∨ b = 1 := by decide +kernel
  rcases hidem (x * gfInv x).bits (mul_gfInv_idempotent x) with h | h
  · have hzero : x * gfInv x = 0 := Gf.ext h
    refine absurd ?_ hx
    rw [← pow_256 x, pow_succ, pow_succ', ← gfInv_eq, hzero, zero_mul]
  · exact Gf.ext h

theorem gfInv_of_mul_eq_one (x y : AesField) (h : x * y = 1) : gfInv x = y := by
  have hx : x ≠ 0 := by
    intro h0
    rw [h0, zero_mul] at h
    exact absurd h (by decide)
  calc gfInv x = gfInv x * (x * y) := by rw [h, mul_one]
    _ = (x * gfInv x) * y := by rw [← mul_assoc, mul_comm (gfInv x)]
    _ = y := by rw [mul_gfInv x hx, one_mul]

theorem rotateLeft_xor (a b : Byte) (k : ℕ) :
    (a ^^^ b).rotateLeft k = a.rotateLeft k ^^^ b.rotateLeft k := by
  apply BitVec.eq_of_getLsbD_eq
  intro i hi
  simp only [BitVec.getLsbD_xor, BitVec.getLsbD_rotateLeft]
  cases decide (i < k % 8) <;> simp [hi]

theorem affineLinear_xor (a b : Byte) :
    affineLinear (a ^^^ b) = affineLinear a ^^^ affineLinear b := by
  simp only [affineLinear, rotateLeft_xor]
  ac_rfl

theorem affineLinear_eq_zero (b : Byte) (h : affineLinear b = 0) : b = 0 := by
  revert h
  revert b
  decide

theorem sbox_injective : Function.Injective sbox := by
  intro a b h
  have hlin : affineLinear (gfInv (lane a)).bits = affineLinear (gfInv (lane b)).bits :=
    (BitVec.xor_left_inj _).mp h
  have hzero := affineLinear_eq_zero ((gfInv (lane a)).bits ^^^ (gfInv (lane b)).bits) (by
    rw [affineLinear_xor, hlin, BitVec.xor_self]
    rfl)
  have hinv : gfInv (lane a) = gfInv (lane b) := Gf.ext (BitVec.xor_eq_zero_iff.mp hzero)
  have hlane := congrArg gfInv hinv
  rw [gfInv_gfInv, gfInv_gfInv] at hlane
  exact lane_inj hlane

example : sbox 0x53 = 0xed := by decide +kernel

end Pobc.Aes
