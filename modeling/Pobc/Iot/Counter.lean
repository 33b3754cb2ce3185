import Pobc.Basic
import Mathlib.Logic.Function.Iterate
import Mathlib.Tactic.NormNum

/-!
# Counters kept in a 16-byte array

The two increments of the C code, `nonce_incr` (`aes_pobc.c:10-17`) and
`gcm_incr` (`aes_pobc_siv.c:7-13`), read as successor on a number: a run of
bytes is a big-endian number (`beVal`), and for `nonce_incr` bytes 12 to 15 are
in addition a word of the machine's own byte order.
-/

namespace Pobc.Iot

inductive ByteOrder where
  | little
  | big
  deriving DecidableEq

/-- `for (i = lo + n; i > lo; i--) if (++y[i - 1] != 0) break;` -/
def carryUp (lo : ℕ) : ℕ → Block → Block
  | 0, y => y
  | n + 1, y =>
    let y' := setByte y (lo + n) (byteAt y (lo + n) + 1)
    if byteAt y' (lo + n) ≠ 0 then y' else carryUp lo n y'

/-- `gcm_incr` (`aes_pobc_siv.c:7-13`). -/
def gcmIncr (y : Block) : Block := carryUp 12 4 y

/-- `*(uint32_t*)(y + 12)`. -/
def loadWord (order : ByteOrder) (y : Block) : ℕ :=
  match order with
  | .little => (byteAt y 15).toNat * 2^24 + (byteAt y 14).toNat * 2^16 +
      (byteAt y 13).toNat * 2^8 + (byteAt y 12).toNat
  | .big => (byteAt y 12).toNat * 2^24 + (byteAt y 13).toNat * 2^16 +
      (byteAt y 14).toNat * 2^8 + (byteAt y 15).toNat

/-- `*(uint32_t*)(y + 12) = w`. -/
def storeWord (order : ByteOrder) (y : Block) (w : ℕ) : Block :=
  let byte (k : ℕ) : Byte := BitVec.ofNat 8 (w / 2^(8 * k))
  match order with
  | .little =>
    setByte (setByte (setByte (setByte y 12 (byte 0)) 13 (byte 1)) 14 (byte 2)) 15 (byte 3)
  | .big =>
    setByte (setByte (setByte (setByte y 12 (byte 3)) 13 (byte 2)) 14 (byte 1)) 15 (byte 0)

/-- `nonce_incr` (`aes_pobc.c:10-17`). -/
def nonceIncr (order : ByteOrder) (y : Block) : Block :=
  let counter := (loadWord order y + 1) % 2^32
  let y' := storeWord order y counter
  if counter = 0 then carryUp 0 12 y' else y'

/-- `memcpy(y, npub, 12)` into zeros. -/
def nonceBlock (npub : Nonce) : Block := fun j => if h : j.val < 12 then npub ⟨j.val, h⟩ else 0

/-- Byte `p` of the keystream `E(start) ‖ E(next start) ‖ ...`. -/
def ctrStream (next : Block → Block) (E : Block → Block) (start : Block) (p : ℕ) : Byte :=
  byteAt (E (next^[p / 16] start)) (p % 16)

/- The bytes a counter block contributes. -/
theorem ctrStream_block (next : Block → Block) (E : Block → Block) (start : Block) (t j : ℕ)
    (hj : j < 16) : ctrStream next E start (16 * t + j) = byteAt (E (next^[t] start)) j := by
  have hdiv : (16 * t + j) / 16 = t := by omega
  have hmod : (16 * t + j) % 16 = j := by omega
  rw [ctrStream, hdiv, hmod]

/-! ### Big-endian runs of bytes -/

/-- The number written big-endian in bytes `lo` to `lo + n - 1`. -/
def beVal (y : Block) (lo : ℕ) : ℕ → ℕ
  | 0 => 0
  | n + 1 => beVal y lo n * 256 + (byteAt y (lo + n)).toNat

theorem beVal_lt (y : Block) (lo n : ℕ) : beVal y lo n < 256^n := by
  induction n with
  | zero => simp [beVal]
  | succ n ih =>
    have hb := (byteAt y (lo + n)).isLt
    simp only [beVal, pow_succ]
    omega

theorem beVal_congr (y z : Block) (lo n : ℕ) (h : ∀ i < n, byteAt y (lo + i) = byteAt z (lo + i)) :
    beVal y lo n = beVal z lo n := by
  induction n with
  | zero => rfl
  | succ n ih =>
    simp only [beVal]
    rw [ih fun i hi => h i (by omega), h n (by omega)]

theorem beVal_inj (y z : Block) (lo n : ℕ) (h : beVal y lo n = beVal z lo n) :
    ∀ i < n, byteAt y (lo + i) = byteAt z (lo + i) := by
  induction n with
  | zero => intro i hi; omega
  | succ n ih =>
    have hy := (byteAt y (lo + n)).isLt
    have hz := (byteAt z (lo + n)).isLt
    simp only [beVal] at h
    have hlast : (byteAt y (lo + n)).toNat = (byteAt z (lo + n)).toNat := by omega
    have hinit : beVal y lo n = beVal z lo n := by omega
    intro i hi
    rcases Nat.lt_succ_iff_lt_or_eq.mp hi with hlt | heq
    · exact ih hinit i hlt
    · rw [heq]
      exact BitVec.eq_of_toNat_eq hlast

theorem byteAt_carryUp (lo n k : ℕ) (y : Block) (hk : k < 16) (hout : k < lo ∨ lo + n ≤ k) :
    byteAt (carryUp lo n y) k = byteAt y k := by
  induction n generalizing y with
  | zero => rfl
  | succ n ih =>
    have hset : byteAt (setByte y (lo + n) (byteAt y (lo + n) + 1)) k = byteAt y k :=
      byteAt_setByte_of_ne y (lo + n) k _ hk (by omega)
    simp only [carryUp]
    split
    · exact hset
    · rw [ih _ (by omega), hset]

theorem toNat_succ_byte (b : Byte) (h : b + 1 ≠ 0) : (b + 1).toNat = b.toNat + 1 := by
  have hb := b.isLt
  have hne : b.toNat ≠ 255 := fun h255 => h (BitVec.eq_of_toNat_eq (by simp [h255]))
  rw [BitVec.toNat_add]
  simp
  omega

theorem toNat_wrap_byte (b : Byte) (h : b + 1 = 0) : b.toNat = 255 := by
  have hb := b.isLt
  have h' := congrArg BitVec.toNat h
  rw [BitVec.toNat_add] at h'
  simp at h'
  omega

/- The carry loop adds one: it stops at the first byte that does not wrap, and
every byte it passes has gone from 255 to 0. -/
theorem beVal_carryUp (lo n : ℕ) (y : Block) (hn : lo + n ≤ 16) :
    beVal (carryUp lo n y) lo n = (beVal y lo n + 1) % 256^n := by
  induction n generalizing y with
  | zero => rw [pow_zero, Nat.mod_one]; rfl
  | succ n ih =>
    have hself := byteAt_setByte_self y (lo + n) (byteAt y (lo + n) + 1) (by omega)
    have hinit : beVal (setByte y (lo + n) (byteAt y (lo + n) + 1)) lo n = beVal y lo n :=
      beVal_congr _ _ lo n fun i hi =>
        byteAt_setByte_of_ne y (lo + n) (lo + i) _ (by omega) (by omega)
    have hlt := beVal_lt y lo n
    have hb := (byteAt y (lo + n)).isLt
    simp only [carryUp, hself]
    split
    · rename_i hne
      have hsucc := toNat_succ_byte _ hne
      have hbound := (byteAt y (lo + n) + 1).isLt
      simp only [beVal, hinit, hself]
      rw [hsucc, Nat.mod_eq_of_lt]
      · omega
      · rw [pow_succ]
        omega
    · rename_i hzero
      have hwrap := toNat_wrap_byte _ (not_not.mp hzero)
      have hlast : (byteAt y (lo + n) + 1).toNat = 0 := by rw [not_not.mp hzero]; rfl
      have hsum : beVal y lo n * 256 + 255 + 1 = (beVal y lo n + 1) * 256 := by omega
      simp only [beVal]
      rw [ih _ (by omega), byteAt_carryUp lo n (lo + n) _ (by omega) (by omega), hself, hinit,
        hlast, hwrap, pow_succ, hsum, Nat.mul_mod_mul_right, Nat.add_zero]

/-! ### The native word in bytes 12 to 15 -/

theorem loadWord_lt (order : ByteOrder) (y : Block) : loadWord order y < 2^32 := by
  have h12 := (byteAt y 12).isLt
  have h13 := (byteAt y 13).isLt
  have h14 := (byteAt y 14).isLt
  have h15 := (byteAt y 15).isLt
  cases order <;> simp only [loadWord] <;> omega

theorem byteAt_storeWord (order : ByteOrder) (y : Block) (w k : ℕ) (hk : k < 12) :
    byteAt (storeWord order y w) k = byteAt y k := by
  cases order <;> simp only [storeWord] <;>
    rw [byteAt_setByte_of_ne, byteAt_setByte_of_ne, byteAt_setByte_of_ne, byteAt_setByte_of_ne] <;>
    omega

theorem loadWord_congr (order : ByteOrder) (y z : Block)
    (h : ∀ k, 12 ≤ k → k < 16 → byteAt y k = byteAt z k) : loadWord order y = loadWord order z := by
  cases order <;>
    simp only [loadWord, h 12 (by omega) (by omega), h 13 (by omega) (by omega),
      h 14 (by omega) (by omega), h 15 (by omega) (by omega)]

theorem loadWord_inj (order : ByteOrder) (y z : Block) (h : loadWord order y = loadWord order z) :
    ∀ k, 12 ≤ k → k < 16 → byteAt y k = byteAt z k := by
  intro k h1 h2
  have y12 := (byteAt y 12).isLt
  have y13 := (byteAt y 13).isLt
  have y14 := (byteAt y 14).isLt
  have y15 := (byteAt y 15).isLt
  have z12 := (byteAt z 12).isLt
  have z13 := (byteAt z 13).isLt
  have z14 := (byteAt z 14).isLt
  have z15 := (byteAt z 15).isLt
  apply BitVec.eq_of_toNat_eq
  have hk : k = 12 ∨ k = 13 ∨ k = 14 ∨ k = 15 := by omega
  cases order <;> simp only [loadWord] at h <;> rcases hk with rfl | rfl | rfl | rfl <;> omega

theorem loadWord_storeWord (order : ByteOrder) (y : Block) (w : ℕ) (hw : w < 2^32) :
    loadWord order (storeWord order y w) = w := by
  cases order <;> simp [loadWord, storeWord, byteAt, setByte] <;> omega

/-! ### The value of a counter block -/

/-- The number `nonce_incr` adds one to: bytes 0 to 11 big-endian above the
native word. -/
def counterVal (order : ByteOrder) (y : Block) : ℕ := beVal y 0 12 * 2^32 + loadWord order y

theorem counterVal_lt (order : ByteOrder) (y : Block) : counterVal order y < 2^128 := by
  have hp := beVal_lt y 0 12
  have hw := loadWord_lt order y
  have h256 : (256 : ℕ)^12 = 2^96 := by norm_num
  simp only [counterVal]
  omega

theorem counterVal_inj (order : ByteOrder) (y z : Block)
    (h : counterVal order y = counterVal order z) : y = z := by
  have hy := loadWord_lt order y
  have hz := loadWord_lt order z
  simp only [counterVal] at h
  have hword : loadWord order y = loadWord order z := by omega
  have hprefix : beVal y 0 12 = beVal z 0 12 := by omega
  apply block_ext
  intro i hi
  rcases Nat.lt_or_ge i 12 with hlt | hge
  · have h' := beVal_inj y z 0 12 hprefix i hlt
    rwa [Nat.zero_add] at h'
  · exact loadWord_inj order y z hword i hge hi

theorem counterVal_nonceIncr (order : ByteOrder) (y : Block) :
    counterVal order (nonceIncr order y) = (counterVal order y + 1) % 2^128 := by
  have hp := beVal_lt y 0 12
  have hw := loadWord_lt order y
  have h256 : (256 : ℕ)^12 = 2^96 := by norm_num
  have hmod : (loadWord order y + 1) % 2^32 < 2^32 := Nat.mod_lt _ (by norm_num)
  have hstored := loadWord_storeWord order y ((loadWord order y + 1) % 2^32) hmod
  have hkept : beVal (storeWord order y ((loadWord order y + 1) % 2^32)) 0 12 = beVal y 0 12 :=
    beVal_congr _ _ 0 12 fun i hi => byteAt_storeWord order y _ (0 + i) (by omega)
  simp only [counterVal, nonceIncr]
  split
  · rename_i hzero
    rw [beVal_carryUp 0 12 _ (by omega), hkept,
      loadWord_congr order _ (storeWord order y ((loadWord order y + 1) % 2^32))
        fun k h1 h2 => byteAt_carryUp 0 12 k _ h2 (by omega), hstored, hzero, h256]
    omega
  · rename_i hne
    rw [hkept, hstored]
    omega

theorem counterVal_iterate (order : ByteOrder) (n : ℕ) (y : Block) :
    counterVal order ((nonceIncr order)^[n] y) = (counterVal order y + n) % 2^128 := by
  induction n with
  | zero => rw [Function.iterate_zero_apply, Nat.add_zero, Nat.mod_eq_of_lt (counterVal_lt order y)]
  | succ n ih =>
    rw [Function.iterate_succ_apply', counterVal_nonceIncr, ih]
    omega

theorem iterate_nonceIncr_inj (order : ByteOrder) (y : Block) (i k : ℕ) (hi : i < 2^128)
    (hk : k < 2^128) (h : (nonceIncr order)^[i] y = (nonceIncr order)^[k] y) : i = k := by
  have hval := congrArg (counterVal order) h
  rw [counterVal_iterate, counterVal_iterate] at hval
  omega

end Pobc.Iot
