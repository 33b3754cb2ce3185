import Pobc.Lib.Gf
import Mathlib.Data.List.Basic

/-!
# Bytes, blocks and buffers

The data the C code works on: `unsigned char` as an 8-bit word, a 16-byte array
as a function on its indices, and a pointed-to buffer as a function on offsets,
which travels with a separate length as it does in the C signatures.
-/

namespace Pobc

abbrev Byte := BitVec 8
abbrev Block := Fin 16 → Byte
abbrev Nonce := Fin 12 → Byte
abbrev Buffer := ℕ → Byte

/-- The field of FIPS-197, modulo `x^8 + x^4 + x^3 + x + 1`. -/
abbrev AesField := Gf 8 0x1b#8

/-- A byte as a field element: XOR is the sum. -/
def lane (b : Byte) : AesField := ⟨b⟩

theorem lane_xor (a b : Byte) : lane (a ^^^ b) = lane a + lane b := rfl

theorem lane_inj {a b : Byte} (h : lane a = lane b) : a = b := congrArg Gf.bits h

theorem xor_eq_iff (a b c : Byte) : a ^^^ b = c ↔ a = c ^^^ b := by
  constructor
  · intro h
    rw [← h, BitVec.xor_assoc, BitVec.xor_self, BitVec.xor_zero]
  · intro h
    rw [h, BitVec.xor_assoc, BitVec.xor_self, BitVec.xor_zero]

def zeroBlock : Block := fun _ => 0
def zeroNonce : Nonce := fun _ => 0

/-- `xor_blocks` (`aes_modes.c:8-12`). -/
def xorBlocks (a b : Block) : Block := fun j => a j ^^^ b j

theorem xorBlocks_left_comm (a b c : Block) :
    xorBlocks a (xorBlocks b c) = xorBlocks b (xorBlocks a c) := by
  funext j
  simp only [xorBlocks]
  ac_rfl

section Sixteen

variable {α : Type*}

def byteAt (y : Fin 16 → α) (i : ℕ) : α := y (Fin.ofNat 16 i)
def setByte (y : Fin 16 → α) (i : ℕ) (v : α) : Fin 16 → α := fun j => if j.val = i then v else y j

theorem byteAt_setByte_self (y : Fin 16 → α) (i : ℕ) (v : α) (hi : i < 16) :
    byteAt (setByte y i v) i = v := by
  simp [byteAt, setByte, Nat.mod_eq_of_lt hi]

theorem byteAt_setByte_of_ne (y : Fin 16 → α) (i k : ℕ) (v : α) (hk : k < 16) (hne : k ≠ i) :
    byteAt (setByte y i v) k = byteAt y k := by
  simp [byteAt, setByte, Nat.mod_eq_of_lt hk, hne]

theorem byteAt_val (y : Fin 16 → α) (j : Fin 16) : byteAt y j.val = y j := by
  rw [byteAt, Fin.ofNat_val_eq_self]

theorem block_ext (y z : Fin 16 → α) (h : ∀ i < 16, byteAt y i = byteAt z i) : y = z := by
  funext j
  have hj := h j.val j.isLt
  rwa [byteAt_val, byteAt_val] at hj

end Sixteen

/-- The buffer a byte string is passed in. -/
def bufferOf (l : List Byte) : Buffer := fun i => l.getD i 0

def bytesOf (b : Buffer) (n : ℕ) : List Byte := (List.range n).map b

/-- `for (j = 0; j < len; j++) buf[off + j] = f(j)`. -/
def writeBytes (buf : Buffer) (off len : ℕ) (f : ℕ → Byte) : Buffer :=
  fun p => if off ≤ p ∧ p < off + len then f (p - off) else buf p

/- A loop that fills a buffer from the left adds one piece. -/
theorem writeBytes_prefix (buf buf₀ : Buffer) (f g : ℕ → Byte) (i n : ℕ)
    (hbuf : ∀ p, buf p = if p < i then f p else buf₀ p) (hg : ∀ j < n, g j = f (i + j)) (p : ℕ) :
    writeBytes buf i n g p = if p < i + n then f p else buf₀ p := by
  simp only [writeBytes, hbuf]
  by_cases hold : p < i
  · have h1 : ¬ (i ≤ p ∧ p < i + n) := by omega
    have h2 : p < i + n := by omega
    rw [if_neg h1, if_pos hold, if_pos h2]
  · by_cases hnew : p < i + n
    · have h1 : i ≤ p ∧ p < i + n := by omega
      have hp : i + (p - i) = p := by omega
      rw [if_pos h1, if_pos hnew, hg (p - i) (by omega), hp]
    · have h1 : ¬ (i ≤ p ∧ p < i + n) := by omega
      rw [if_neg h1, if_neg hold, if_neg hnew]

theorem length_bytesOf (b : Buffer) (n : ℕ) : (bytesOf b n).length = n := by
  rw [bytesOf, List.length_map, List.length_range]

theorem bytesOf_bufferOf (l : List Byte) : bytesOf (bufferOf l) l.length = l := by
  apply List.ext_getElem
  · rw [length_bytesOf]
  · intro i h1 h2
    simp [bytesOf, bufferOf, h2]

theorem bufferOf_bytesOf (b : Buffer) (n p : ℕ) (hp : p < n) : bufferOf (bytesOf b n) p = b p := by
  simp [bytesOf, bufferOf, List.getD_eq_getElem?_getD, hp]

theorem bytesOf_congr (b b' : Buffer) (n : ℕ) (h : ∀ p < n, b p = b' p) :
    bytesOf b n = bytesOf b' n :=
  List.map_congr_left fun p hp => h p (List.mem_range.mp hp)

theorem bytesOf_inj (b b' : Buffer) (n : ℕ) (h : bytesOf b n = bytesOf b' n) :
    ∀ p < n, b p = b' p := by
  intro p hp
  rw [← bufferOf_bytesOf b n p hp, h, bufferOf_bytesOf b' n p hp]

/- A buffer holds a byte string when it agrees with it at every position. -/
theorem bytesOf_eq_iff (b : Buffer) (l : List Byte) :
    bytesOf b l.length = l ↔ ∀ p < l.length, b p = bufferOf l p := by
  constructor
  · intro h p hp
    rw [← bufferOf_bytesOf b l.length p hp, h]
  · intro h
    rw [bytesOf_congr b (bufferOf l) l.length h, bytesOf_bufferOf]

/-! ### Stream encryption -/

def xorStream (ks : ℕ → Byte) (l : List Byte) : List Byte :=
  bytesOf (fun p => bufferOf l p ^^^ ks p) l.length

@[simp] theorem length_xorStream (ks : ℕ → Byte) (l : List Byte) :
    (xorStream ks l).length = l.length := length_bytesOf _ _

theorem bufferOf_xorStream (ks : ℕ → Byte) (l : List Byte) (p : ℕ) (hp : p < l.length) :
    bufferOf (xorStream ks l) p = bufferOf l p ^^^ ks p := bufferOf_bytesOf _ _ p hp

theorem xorStream_xorStream (ks : ℕ → Byte) (l : List Byte) :
    xorStream ks (xorStream ks l) = l := by
  have hback : xorStream ks (xorStream ks l) = bytesOf (bufferOf l) l.length := by
    rw [xorStream, length_xorStream]
    apply bytesOf_congr
    intro p hp
    rw [bufferOf_xorStream ks l p hp, BitVec.xor_assoc, BitVec.xor_self, BitVec.xor_zero]
  rw [hback, bytesOf_bufferOf]

/- Two keystreams give the same text only where they agree. -/
theorem xorStream_eq_iff (ks ks' : ℕ → Byte) (l : List Byte) :
    xorStream ks l = xorStream ks' l ↔ ∀ p < l.length, ks p = ks' p := by
  constructor
  · intro h p hp
    have hbyte := bytesOf_inj _ _ _ h p hp
    exact (BitVec.xor_right_inj _).mp hbyte
  · intro h
    exact bytesOf_congr _ _ _ fun p hp => by rw [h p hp]

end Pobc
