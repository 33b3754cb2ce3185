import Pobc.Basic
import Pobc.Lib.Loop
import Mathlib.Data.Int.ModEq
import Mathlib.Data.Nat.Digits.Lemmas

/-!
# GMP integers and MiMC-128 (`mimc-gmp/gmp_utils.c`, `mimc.h`, `mimc128_gmp.c`)

`mpz_t` is an integer: the operations of GMP are exact, and what GMP does with its
memory is not modelled. Numbers travel through byte buffers with the least
significant byte first; `mpz_export` stops at the most significant byte that is not
0, and writes as many bytes as it takes.
-/

namespace Pobc.Mimc
open Pobc.Loop

/-! ### `gmp_utils.c` -/

/-- A byte string as a number. -/
def leVal (l : List Byte) : ℕ := Nat.ofDigits 256 (l.map BitVec.toNat)

def leByte (v i : ℕ) : Byte := BitVec.ofNat 8 (v / 256^i)

/-- `read` (`gmp_utils.c:5-8`). -/
def read (src : Buffer) (off n : ℕ) : ℤ := leVal (bytesOf (fun i => src (off + i)) n)

/-- `write` (`gmp_utils.c:10-18`). -/
def write (dest : Buffer) (off : ℕ) (src : ℤ) (n : ℕ) : Buffer :=
  let digits := Nat.digits 256 src.natAbs
  writeBytes dest off (max digits.length n) fun i => BitVec.ofNat 8 (digits.getD i 0)

theorem digits_lt (l : List Byte) : ∀ d ∈ l.map BitVec.toNat, d < 256 := by
  intro d hd
  obtain ⟨b, _, rfl⟩ := List.mem_map.mp hd
  exact b.isLt

theorem leVal_lt (l : List Byte) : leVal l < 256^l.length := by
  have h := Nat.ofDigits_lt_base_pow_length (by decide : 1 < 256) (digits_lt l)
  rwa [List.length_map] at h

theorem leVal_inj (l l' : List Byte) (hlen : l.length = l'.length) (h : leVal l = leVal l') :
    l = l' := by
  have hmap := Nat.ofDigits_inj_of_len_eq (by decide : 1 < 256)
    (by rw [List.length_map, List.length_map, hlen]) (digits_lt l) (digits_lt l') h
  exact List.map_injective_iff.mpr (fun _ _ => BitVec.eq_of_toNat_eq) hmap

/- A number that fits is given back by its bytes. -/
theorem leVal_leBytes (v n : ℕ) (hv : v < 256^n) : leVal (bytesOf (leByte v) n) = v := by
  induction n generalizing v with
  | zero =>
    rw [Nat.pow_zero] at hv
    have hzero : v = 0 := by omega
    rw [hzero]
    rfl
  | succ n ih =>
    have hdiv : v / 256 < 256^n := by
      rw [Nat.pow_succ] at hv
      omega
    have hrest : bytesOf (leByte v) (n + 1) = BitVec.ofNat 8 v :: bytesOf (leByte (v / 256)) n := by
      rw [bytesOf, List.range_succ_eq_map, List.map_cons, List.map_map, bytesOf]
      refine congrArg₂ List.cons ?_ (List.map_congr_left fun i _ => ?_)
      · rw [leByte, Nat.pow_zero, Nat.div_one]
      · simp only [Function.comp, leByte]
        rw [Nat.div_div_eq_div_mul, Nat.pow_succ, Nat.mul_comm]
    have hval := ih (v / 256) hdiv
    unfold leVal at hval ⊢
    rw [hrest, List.map_cons, Nat.ofDigits_cons, hval, BitVec.toNat_ofNat]
    exact Nat.mod_add_div v 256

theorem read_nonneg (src : Buffer) (off n : ℕ) : 0 ≤ read src off n := Int.natCast_nonneg _

theorem read_lt (src : Buffer) (off n : ℕ) : read src off n < 256^n := by
  have h := leVal_lt (bytesOf (fun i => src (off + i)) n)
  rw [length_bytesOf] at h
  unfold read
  exact_mod_cast h

theorem read_eq_iff (src : Buffer) (off n v : ℕ) (hv : v < 256^n) :
    read src off n = v ↔ ∀ i < n, src (off + i) = leByte v i := by
  constructor
  · intro h
    have hval : leVal (bytesOf (fun i => src (off + i)) n) = leVal (bytesOf (leByte v) n) := by
      rw [leVal_leBytes v n hv]
      exact Int.ofNat_inj.mp h
    exact bytesOf_inj _ _ n (leVal_inj _ _ (by rw [length_bytesOf, length_bytesOf]) hval)
  · intro h
    rw [read, bytesOf_congr _ _ n h, leVal_leBytes v n hv]

theorem read_congr (src src' : Buffer) (off off' n : ℕ)
    (h : ∀ i < n, src (off + i) = src' (off' + i)) : read src off n = read src' off' n := by
  rw [read, read, bytesOf_congr _ _ n h]

theorem read_eq_read_iff (src src' : Buffer) (off off' n : ℕ) :
    read src off n = read src' off' n ↔ ∀ i < n, src (off + i) = src' (off' + i) := by
  refine ⟨fun h => ?_, read_congr src src' off off' n⟩
  exact bytesOf_inj _ _ n (leVal_inj _ _ (by rw [length_bytesOf, length_bytesOf])
    (Int.ofNat_inj.mp h))

/- A number that fits is written to `n` bytes and no more. -/
theorem write_of_lt (dest : Buffer) (off n : ℕ) (src : ℤ) (hsrc : src.natAbs < 256^n) :
    write dest off src n = writeBytes dest off n (leByte src.natAbs) := by
  have hle : (Nat.digits 256 src.natAbs).length ≤ n :=
    (Nat.digits_length_le_iff (by decide) _).mpr hsrc
  have hbyte : (fun i => BitVec.ofNat 8 ((Nat.digits 256 src.natAbs).getD i 0)) =
      leByte src.natAbs := by
    funext i
    rw [Nat.getD_digits _ _ (by decide), leByte]
    exact BitVec.eq_of_toNat_eq (by simp only [BitVec.toNat_ofNat]; omega)
  rw [write, hbyte, Nat.max_eq_right hle]

/-! ### Blocks in a buffer -/

/-- A loop that writes `n` numbers to blocks of `w` bytes. -/
def writeBlocks (w n : ℕ) (v : ℕ → ℤ) (dest : Buffer) : Buffer :=
  forRange n (fun i b => write b (w * i) (v i) w) dest

section WriteBlocks

variable (w n : ℕ) (v : ℕ → ℤ) (dest : Buffer)

theorem writeBlocks_succ :
    writeBlocks w (n + 1) v dest = write (writeBlocks w n v dest) (w * n) (v n) w := rfl

theorem writeBlocks_apply (hw : 0 < w) (hv : ∀ i < n, (v i).natAbs < 256^w) (p : ℕ) :
    writeBlocks w n v dest p =
      if p < w * n then leByte (v (p / w)).natAbs (p % w) else dest p := by
  induction n with
  | zero =>
    have hp : ¬ p < w * 0 := by omega
    rw [if_neg hp]
    rfl
  | succ n ih =>
    have hrest := ih fun i hi => hv i (by omega)
    have hsucc : w * (n + 1) = w * n + w := Nat.mul_succ w n
    have hround : writeBlocks w (n + 1) v dest p =
        if w * n ≤ p ∧ p < w * n + w then leByte (v n).natAbs (p - w * n)
        else writeBlocks w n v dest p := by
      rw [writeBlocks_succ, write_of_lt _ _ _ _ (hv n (by omega))]
      rfl
    rw [hround, hrest, hsucc]
    by_cases hold : p < w * n
    · have h1 : ¬ (w * n ≤ p ∧ p < w * n + w) := by omega
      have h2 : p < w * n + w := by omega
      rw [if_neg h1, if_pos hold, if_pos h2]
    · by_cases hnew : p < w * n + w
      · have h1 : w * n ≤ p ∧ p < w * n + w := by omega
        have hp : p = w * n + (p - w * n) := by omega
        have hdiv : p / w = n := by
          rw [hp, Nat.mul_add_div hw, Nat.div_eq_of_lt (by omega), Nat.add_zero]
        have hmod : p % w = p - w * n := by
          conv_lhs => rw [hp]
          rw [Nat.mul_add_mod, Nat.mod_eq_of_lt (by omega)]
        rw [if_pos h1, if_pos hnew, hdiv, hmod]
      · have h1 : ¬ (w * n ≤ p ∧ p < w * n + w) := by omega
        rw [if_neg h1, if_neg hold, if_neg hnew]

/- Comparing such a buffer with a text is reading the text. -/
theorem writeBlocks_eq_iff (hw : 0 < w) (hv : ∀ i < n, 0 ≤ v i ∧ (v i).natAbs < 256^w)
    (text : Buffer) : (∀ p < w * n, writeBlocks w n v dest p = text p) ↔
      ∀ i < n, read text (w * i) w = v i := by
  have hread : ∀ i < n, read text (w * i) w = v i ↔
      ∀ j < w, text (w * i + j) = leByte (v i).natAbs j := by
    intro i hi
    obtain ⟨hnonneg, hlt⟩ := hv i hi
    have h := read_eq_iff text (w * i) w (v i).natAbs hlt
    rwa [Int.natAbs_of_nonneg hnonneg] at h
  constructor
  · intro h i hi
    rw [hread i hi]
    intro j hj
    have hle : w * (i + 1) ≤ w * n := Nat.mul_le_mul_left w hi
    rw [Nat.mul_succ] at hle
    have hdiv : (w * i + j) / w = i := by
      rw [Nat.mul_add_div hw, Nat.div_eq_of_lt hj, Nat.add_zero]
    have hmod : (w * i + j) % w = j := by
      rw [Nat.mul_add_mod, Nat.mod_eq_of_lt hj]
    rw [← h (w * i + j) (by omega), writeBlocks_apply w n v dest hw (fun i hi => (hv i hi).2),
      if_pos (by omega), hdiv, hmod]
  · intro h p hp
    have hi : p / w < n := Nat.div_lt_of_lt_mul hp
    have hbyte := (hread (p / w) hi).mp (h (p / w) hi) (p % w) (Nat.mod_lt p hw)
    rw [Nat.div_add_mod] at hbyte
    rw [writeBlocks_apply w n v dest hw (fun i hi => (hv i hi).2), if_pos hp, hbyte]

end WriteBlocks

/-! ### `mimc.h` and `mimc128_gmp.c` -/

def prime : ℤ := 0x800000000000000000000000001b8001

def modAdd (a b : ℤ) : ℤ := (a + b) % prime
def modSub (a b : ℤ) : ℤ := (a - b) % prime
def modMul (a b : ℤ) : ℤ := (a * b) % prime

/-- `hex_constants` (`mimc128_gmp.c:4-78`). -/
def hexConstants : List ℤ := [
  0x67cb30ec12123b00bba3498728310135, 0x34aaf0b6f625334b99135f6330026f84,
  0x65848431bafbd09160a75a9c633817ac, 0x17e3acdb6ad2f59041ec41f24e31f1ef,
  0x6f1e643ab1c73e008c74452e217e8b16, 0x517cd517652038a8495ee6b9946cfc0f,
  0x79a2abaf479d15e0cf5a1d592123cf5b, 0x4d71262c00c840482557e692b88172fa,
  0x666c10514f1ea5dfc6215c91312fa5fd, 0x7bfa41088b3e587afd0ac98883ae13aa,
  0x33579f539bd10aa829b0c674d330b1f2, 0x1de23123a29c8c8419785afe62bc9bdb,
  0x69025ffc6ed405c54f224e9234853459, 0x1508ee5633fdc806160f3ce3ae0ffe7f,
  0x7188ed3942bb0f2521673b9598d331d0, 0x505eb0a9549819ef332e8b2ea5a2f26b,
  0xc3962837ea70db22c702b2af81895e2, 0x49691d1805a35c626f86f1011c6f87db,
  0x5387ff0a158f0010962104a978f7fd97, 0x4c1dd3a7670f211c035530ace9fdb2,
  0x61a2902cfbaa4bb3841738bd6b58eb87, 0x23f80dc982460cf71781e86403c69f44,
  0x773acd9dea4a52400550baf7679c20f2, 0xe2177bfb8a00855dfc3cd07a1f2da01,
  0x3391ee8eac52d7659fd1804790a7b26a, 0x671442da969886274f15d684a1b2ee50,
  0x6130536be1b904d2e1c4db8f3c7377fa, 0xa4e8c0ed6f16d3524a7025e23a44b37,
  0x47cbc6d6cffb962e25500dfd841d8876, 0x2e375b257b74f678c94f2711a7f7e397,
  0x2a27d7c3716372d47fca47ff8299c510, 0x41a79914c70df3ee391040641707a49,
  0x56b3ec596cec9bf3e3a8aaafb413d1fd, 0x12fdc050e4639d71e49fa6992763cbcf,
  0x4aff4ecd5084d50554dc02cf2e182f9, 0x1a477aacbd34b98381ac9a1e336dc8dc,
  0x5e6b745376c12a977fbfe2665b28ac03, 0x2ba951a2d141fc5df8e3e06f91680d69,
  0x31fa6800ca9cc0d678c26c2a5bad8fca, 0x721c97dc25dc4e03b6fb504f30867654,
  0x3fc3a73bfa88d9c5ab3a0040090f9d05, 0x1c7db39511fe157a0e1b7aa515d59d5f,
  0x674e14fdf0c4269c696a6cfc92d9fd5a, 0x44dbdbb82d5c225fc094f8d4dde2b5fb,
  0x4452956d4f4d2edce061d66c5648645e, 0x6d27f2d79fa0388ca30e252b520e848a,
  0x5fe9f4eedd2b20ee1814c76049b2a753, 0x6e9d8f65ecd211a4f9d73a1ed89f855c,
  0x6f17aa0d54e4b130766ba012d9bff786, 0x22944625fafd92ea2502c4dae5c53c24,
  0x46c2dc42c1cbcef2493d38ef9af9536d, 0x76832870b66c3654d07d00886ae324e,
  0x66280359e25461d07a1146dd5960869b, 0x266175997a599e60bada30deb60b1546,
  0x5d7a2969bc0529c317b1ae8cc8f2f3a, 0x4dbeec12c416174e88162c6a5ac023fd,
  0x5e4eef57c1554759fc9d3d64a64a4009, 0x3f3ecad7faa2ac895de6da12ec8b9ab6,
  0x4a8297713e4b7b01aea6dee5c10a681b, 0x545b02a4421c3a6bceb11117cf5671b,
  0x1b4dc665d277c4c8893c2e6e4dd1ba3d, 0x1cf5204a5827fbb6ad7b910f80a9686e,
  0x76a6b3ec9049e5c311f9c9deb1fc2e84, 0x106815d16de13df042ba071652e0eb5c,
  0x7a2c77b1177fc6caebcf903a8563f3d2, 0x5824ed2eacbf7e816e8c448e659b24bf,
  0x63210b7031b934d04285eafd31bef72c, 0x7bc5ad36f6b4535edd4087483a24bc44,
  0x41c51c2f24dc5091a2687c79360bb833, 0xdf27e8d6c2f0d96e5bf8fc00750788f,
  0x38a9f537751ac48691ad930ece6c5469, 0x323a62abdda5de786f5b031c231a015,
  0x541e7a7d0e02b4f889ce8eea210065a]

/-- One round of `mimc128_enc` (`mimc128_gmp.c:99-106`). -/
def mimc128Round (key : ℤ) (i : ℕ) (ciphertext : ℤ) : ℤ :=
  let tmp := ciphertext
  let ciphertext := ciphertext * ciphertext % prime
  let ciphertext := ciphertext * tmp % prime
  let ciphertext := modAdd ciphertext key
  modAdd ciphertext (hexConstants.getD i 0)

/-- `mimc128_enc` (`mimc128_gmp.c:94-110`). -/
def mimc128Enc (key message : ℤ) : ℤ :=
  modAdd (forRange 73 (mimc128Round key) (modAdd message key)) key

theorem prime_pos : 0 < prime := by decide

theorem modAdd_nonneg (a b : ℤ) : 0 ≤ modAdd a b := Int.emod_nonneg _ (by decide)

theorem modAdd_lt (a b : ℤ) : modAdd a b < prime := Int.emod_lt_of_pos _ prime_pos

theorem modSub_nonneg (a b : ℤ) : 0 ≤ modSub a b := Int.emod_nonneg _ (by decide)

theorem modAdd_right_cancel (a b k : ℤ) : modAdd a k = modAdd b k ↔ a % prime = b % prime :=
  Int.emod_add_cancel_right k

/- A block below the prime is unmasked again. -/
theorem modSub_eq_iff (x y k : ℤ) (hx : 0 ≤ x) (hx' : x < prime) (hy : 0 ≤ y) (hy' : y < prime) :
    modSub x k = y ↔ modAdd y k = x := by
  unfold modSub modAdd
  unfold prime at *
  omega

theorem mimc128Enc_nonneg (key message : ℤ) : 0 ≤ mimc128Enc key message := modAdd_nonneg _ _

theorem mimc128Enc_lt (key message : ℤ) : mimc128Enc key message < prime := modAdd_lt _ _

/- A number below the prime takes at most 16 bytes. -/
theorem natAbs_lt_of_lt_prime (x : ℤ) (hx : 0 ≤ x) (hx' : x < prime) : x.natAbs < 256^16 := by
  have hle : prime < 256^16 := by decide
  omega

end Pobc.Mimc
