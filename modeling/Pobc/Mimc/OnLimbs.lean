import Pobc.Mimc.Permutation
import Pobc.MiniGmp.Bytes
import Pobc.MiniGmp.SetStr

/-!
# MiMC-128 on limbs (`gmp_utils.c`, `mimc128_gmp.c`, `mimc.h`)

The variables of `mimc128_enc` as `mpz_t` of mini-gmp. Each call leaves variables that stand for
the integers of the model over `ℤ`, and no assertion of mini-gmp fails on the way.
-/

namespace Pobc.Mimc
open Pobc.Loop

universe u

/-! ### `gmp_utils.c` -/

/-- `read` (`gmp_utils.c:5-8`). -/
def readLimbs {w : ℕ} (src : Buffer) (off n : ℕ) : Option (MiniGmp.Mpz w) :=
  MiniGmp.mpzImport (bytesOf (fun i => src (off + i)) n)

/-- `write` (`gmp_utils.c:10-18`). -/
def writeLimbs {w : ℕ} (dest : Buffer) (off : ℕ) (src : MiniGmp.Mpz w) (n : ℕ) : Option Buffer := do
  let p ← MiniGmp.mpzExport src
  let count := p.length
  let dest := writeBytes dest off count fun i => p.getD i 0
  return writeBytes dest (off + count) (n - count) fun _ => 0

theorem readLimbs_holds {w : ℕ} (hw : MiniGmp.LimbBits w) (src : Buffer) (off n : ℕ) :
    ∃ r : MiniGmp.Mpz w, readLimbs src off n = some r ∧ r.Holds (read src off n) :=
  MiniGmp.mpzImport_holds hw _

theorem writeLimbs_eq {w : ℕ} (hw : MiniGmp.LimbBits w) (dest : Buffer) (off n : ℕ)
    {u : MiniGmp.Mpz w} {m : ℤ} (hu : u.Holds m) :
    writeLimbs dest off u n = some (write dest off m n) := by
  obtain ⟨p, hp, hdigits⟩ := MiniGmp.mpzExport_digits hw hu
  have hlen : (Nat.digits 256 m.natAbs).length = p.length := by rw [← hdigits, List.length_map]
  have hbyte (i : ℕ) : BitVec.ofNat 8 ((Nat.digits 256 m.natAbs).getD i 0) = p.getD i 0 := by
    have hmap : (p.map BitVec.toNat).getD i 0 = (p.getD i 0).toNat := List.getD_map p 0 BitVec.toNat
    rw [← hdigits, hmap, BitVec.ofNat_toNat, BitVec.setWidth_eq]
  have hwrite : writeBytes (writeBytes dest off p.length fun i => p.getD i 0) (off + p.length)
      (n - p.length) (fun _ => 0) = write dest off m n := by
    funext q
    simp only [write, writeBytes, hlen, hbyte]
    by_cases hzero : off + p.length ≤ q ∧ q < off + p.length + (n - p.length)
    · have hbeyond : p.getD (q - off) 0 = 0 := List.getD_eq_default _ _ (by omega)
      rw [if_pos hzero, if_pos (by omega), hbeyond]
    · rw [if_neg hzero]
      by_cases hin : off ≤ q ∧ q < off + p.length
      · rw [if_pos hin, if_pos (by omega)]
      · rw [if_neg hin, if_neg (by omega)]
  rw [writeLimbs, hp, ← hwrite]
  rfl

/-- A block that is read and written back is copied, with the zeros that `mpz_export` leaves out. -/
theorem read_write_onLimbs {w : ℕ} (hw : MiniGmp.LimbBits w) (src dest : Buffer)
    (off off' n : ℕ) :
    ∃ r : MiniGmp.Mpz w, readLimbs src off n = some r ∧ r.Holds (read src off n) ∧
      writeLimbs dest off' r n = some (writeBytes dest off' n fun i => src (off + i)) := by
  obtain ⟨r, hr, hholds⟩ := readLimbs_holds hw src off n
  have hnonneg := read_nonneg src off n
  have hlt := read_lt src off n
  have hnat : ((read src off n).natAbs : ℤ) = read src off n := Int.natAbs_of_nonneg hnonneg
  have hfits : (read src off n).natAbs < 256 ^ n := by
    rw [← hnat] at hlt
    exact_mod_cast hlt
  have hbytes := (read_eq_iff src off n _ hfits).mp hnat.symm
  refine ⟨r, hr, hholds, ?_⟩
  rw [writeLimbs_eq hw dest off' n hholds, write_of_lt _ _ _ _ hfits]
  refine congrArg some (funext fun q => ?_)
  simp only [writeBytes]
  by_cases hin : off' ≤ q ∧ q < off' + n
  · rw [if_pos hin, if_pos hin, hbytes (q - off') (by omega)]
  · rw [if_neg hin, if_neg hin]

theorem read_write_onLimbs_sixteen :
    let src : Buffer := fun i => if i < 3 then 0 else BitVec.ofNat 8 (7 * i)
    ∃ r : MiniGmp.Mpz 64, readLimbs src 0 16 = some r ∧ r.Holds (read src 0 16) ∧
      writeLimbs (fun _ => 1) 32 r 16 = some (writeBytes (fun _ => 1) 32 16 fun i => src (0 + i)) :=
  read_write_onLimbs ⟨by decide, by decide⟩ (fun i => if i < 3 then 0 else BitVec.ofNat 8 (7 * i))
    (fun _ => 1) 0 32 16

/-! ### The strings of `mimc128_gmp.c` -/

def primeString : String := "800000000000000000000000001b8001"

/-- `hex_constants` (`mimc128_gmp.c:4-78`). -/
def hexStrings : List String := [
  "67cb30ec12123b00bba3498728310135", "34aaf0b6f625334b99135f6330026f84",
  "65848431bafbd09160a75a9c633817ac", "17e3acdb6ad2f59041ec41f24e31f1ef",
  "6f1e643ab1c73e008c74452e217e8b16", "517cd517652038a8495ee6b9946cfc0f",
  "79a2abaf479d15e0cf5a1d592123cf5b", "4d71262c00c840482557e692b88172fa",
  "666c10514f1ea5dfc6215c91312fa5fd", "7bfa41088b3e587afd0ac98883ae13aa",
  "33579f539bd10aa829b0c674d330b1f2", "1de23123a29c8c8419785afe62bc9bdb",
  "69025ffc6ed405c54f224e9234853459", "1508ee5633fdc806160f3ce3ae0ffe7f",
  "7188ed3942bb0f2521673b9598d331d0", "505eb0a9549819ef332e8b2ea5a2f26b",
  "c3962837ea70db22c702b2af81895e2", "49691d1805a35c626f86f1011c6f87db",
  "5387ff0a158f0010962104a978f7fd97", "4c1dd3a7670f211c035530ace9fdb2",
  "61a2902cfbaa4bb3841738bd6b58eb87", "23f80dc982460cf71781e86403c69f44",
  "773acd9dea4a52400550baf7679c20f2", "e2177bfb8a00855dfc3cd07a1f2da01",
  "3391ee8eac52d7659fd1804790a7b26a", "671442da969886274f15d684a1b2ee50",
  "6130536be1b904d2e1c4db8f3c7377fa", "a4e8c0ed6f16d3524a7025e23a44b37",
  "47cbc6d6cffb962e25500dfd841d8876", "2e375b257b74f678c94f2711a7f7e397",
  "2a27d7c3716372d47fca47ff8299c510", "41a79914c70df3ee391040641707a49",
  "56b3ec596cec9bf3e3a8aaafb413d1fd", "12fdc050e4639d71e49fa6992763cbcf",
  "4aff4ecd5084d50554dc02cf2e182f9", "1a477aacbd34b98381ac9a1e336dc8dc",
  "5e6b745376c12a977fbfe2665b28ac03", "2ba951a2d141fc5df8e3e06f91680d69",
  "31fa6800ca9cc0d678c26c2a5bad8fca", "721c97dc25dc4e03b6fb504f30867654",
  "3fc3a73bfa88d9c5ab3a0040090f9d05", "1c7db39511fe157a0e1b7aa515d59d5f",
  "674e14fdf0c4269c696a6cfc92d9fd5a", "44dbdbb82d5c225fc094f8d4dde2b5fb",
  "4452956d4f4d2edce061d66c5648645e", "6d27f2d79fa0388ca30e252b520e848a",
  "5fe9f4eedd2b20ee1814c76049b2a753", "6e9d8f65ecd211a4f9d73a1ed89f855c",
  "6f17aa0d54e4b130766ba012d9bff786", "22944625fafd92ea2502c4dae5c53c24",
  "46c2dc42c1cbcef2493d38ef9af9536d", "76832870b66c3654d07d00886ae324e",
  "66280359e25461d07a1146dd5960869b", "266175997a599e60bada30deb60b1546",
  "5d7a2969bc0529c317b1ae8cc8f2f3a", "4dbeec12c416174e88162c6a5ac023fd",
  "5e4eef57c1554759fc9d3d64a64a4009", "3f3ecad7faa2ac895de6da12ec8b9ab6",
  "4a8297713e4b7b01aea6dee5c10a681b", "545b02a4421c3a6bceb11117cf5671b",
  "1b4dc665d277c4c8893c2e6e4dd1ba3d", "1cf5204a5827fbb6ad7b910f80a9686e",
  "76a6b3ec9049e5c311f9c9deb1fc2e84", "106815d16de13df042ba071652e0eb5c",
  "7a2c77b1177fc6caebcf903a8563f3d2", "5824ed2eacbf7e816e8c448e659b24bf",
  "63210b7031b934d04285eafd31bef72c", "7bc5ad36f6b4535edd4087483a24bc44",
  "41c51c2f24dc5091a2687c79360bb833", "df27e8d6c2f0d96e5bf8fc00750788f",
  "38a9f537751ac48691ad930ece6c5469", "323a62abdda5de786f5b031c231a015",
  "541e7a7d0e02b4f889ce8eea210065a"]

abbrev LimbStore (w : ℕ) (ι : Type u) := Mpz ι → MiniGmp.Mpz w

section LimbStore

variable {w : ℕ} {ι : Type u} [DecidableEq ι]

namespace LimbStore

def mpzInit (s : LimbStore w ι) (rop : Mpz ι) : LimbStore w ι :=
  Function.update s rop { size := 0, d := [] }

def mpzSet (s : LimbStore w ι) (rop op : Mpz ι) : LimbStore w ι := Function.update s rop (s op)

def mpzAdd (s : LimbStore w ι) (rop a b : Mpz ι) : Option (LimbStore w ι) :=
  (MiniGmp.mpzAdd (s a) (s b)).map (Function.update s rop)

def mpzMul (s : LimbStore w ι) (rop a b : Mpz ι) : LimbStore w ι :=
  Function.update s rop (MiniGmp.mpzMul (s a) (s b))

def mpzMod (s : LimbStore w ι) (r n d : Mpz ι) : Option (LimbStore w ι) :=
  (MiniGmp.mpzMod (s n) (s d)).map (Function.update s r)

/-- `mod_add` (`mimc.h:24`). -/
def modAdd (s : LimbStore w ι) (rop a b modulus : Mpz ι) : Option (LimbStore w ι) := do
  let s ← s.mpzAdd rop a b
  s.mpzMod rop rop modulus

/-- x³ (`mimc128_gmp.c:99-104`). -/
def cube (ciphertext : ι) (s : LimbStore w ι) : Option (LimbStore w ι) := do
  let s := s.mpzSet .tmp (.var ciphertext)
  let s := s.mpzMul (.var ciphertext) (.var ciphertext) (.var ciphertext)
  let s ← s.mpzMod (.var ciphertext) (.var ciphertext) .prime
  let s := s.mpzMul (.var ciphertext) (.var ciphertext) .tmp
  s.mpzMod (.var ciphertext) (.var ciphertext) .prime

/-- One round of `mimc128_enc` (`mimc128_gmp.c:98-107`). -/
def mimc128Round (ciphertext key : ι) (i : ℕ) (s : LimbStore w ι) : Option (LimbStore w ι) := do
  let s ← s.cube ciphertext
  let s ← s.modAdd (.var ciphertext) (.var ciphertext) (.var key) .prime
  s.modAdd (.var ciphertext) (.var ciphertext) (.constants i) .prime

/-- `mimc128_enc` (`mimc128_gmp.c:94-110`). -/
def mimc128Enc (ciphertext key message : ι) (s : LimbStore w ι) : Option (LimbStore w ι) := do
  let s ← s.modAdd (.var ciphertext) (.var message) (.var key) .prime
  let s := s.mpzInit .tmp
  let s ← forRangeM 73 (mimc128Round ciphertext key) s
  s.modAdd (.var ciphertext) (.var ciphertext) (.var key) .prime

/-- `mpz_init_set_str` to the base 16. -/
def mpzInitSetStr (s : LimbStore w ι) (rop : Mpz ι) (sp : List Char) : Option (LimbStore w ι) :=
  (MiniGmp.mpzSetStr 4 sp).map (Function.update s rop)

/-- `mimc128_init` (`mimc128_gmp.c:80-85`). -/
def mimc128Init (s : LimbStore w ι) : Option (LimbStore w ι) := do
  let s ← s.mpzInitSetStr .prime primeString.toList
  forRangeM 73 (fun i s => s.mpzInitSetStr (.constants i) (hexStrings.getD i "").toList) s

/-- Every variable stands for the integer of the other store, and the modulus is not 0. -/
structure Refines (t : LimbStore w ι) (s : Store ι) : Prop where
  holds : ∀ v, (t v).Holds (s v)
  prime_ne : s .prime ≠ 0

section Steps

variable {t : LimbStore w ι} {s : Store ι}

theorem holds_update (h : ∀ v, (t v).Holds (s v)) (rop : Mpz ι) {x : MiniGmp.Mpz w} {n : ℤ}
    (hx : x.Holds n) (v : Mpz ι) :
    (Function.update t rop x v).Holds (Function.update s rop n v) := by
  by_cases hv : v = rop
  · subst hv
    simpa using hx
  · simpa [hv] using h v

theorem Refines.update (h : Refines t s) {rop : Mpz ι} (hrop : rop ≠ .prime) {x : MiniGmp.Mpz w}
    {n : ℤ} (hx : x.Holds n) : Refines (Function.update t rop x) (Function.update s rop n) := by
  constructor
  case holds => exact holds_update h.holds rop hx
  case prime_ne =>
    rw [Function.update_of_ne hrop.symm]
    exact h.prime_ne

theorem Refines.mpzInit (h : Refines t s) : Refines (t.mpzInit .tmp) (s.mpzInitSet .tmp 0) := by
  have htmp : (Mpz.tmp : Mpz ι) ≠ .prime := nofun
  refine h.update htmp ?_
  simpa using MiniGmp.holds_of_limbs (w := w) Limbs.normal_nil True

theorem Refines.mpzSet (h : Refines t s) {rop : Mpz ι} (hrop : rop ≠ .prime) (op : Mpz ι) :
    Refines (t.mpzSet rop op) (s.mpzSet rop op) :=
  h.update hrop (h.holds op)

variable (hw : MiniGmp.LimbBits w) {rop : Mpz ι} (hrop : rop ≠ .prime)

include hw hrop

theorem Refines.mpzAdd (h : Refines t s) (a b : Mpz ι) :
    ∃ t', t.mpzAdd rop a b = some t' ∧ Refines t' (s.mpzAdd rop a b) := by
  obtain ⟨r, hr, hholds⟩ := MiniGmp.mpzAdd_holds hw.pos (h.holds a) (h.holds b)
  refine ⟨Function.update t rop r, ?_, h.update hrop hholds⟩
  rw [LimbStore.mpzAdd, hr]
  rfl

theorem Refines.mpzMul (h : Refines t s) (a b : Mpz ι) :
    Refines (t.mpzMul rop a b) (s.mpzMul rop a b) :=
  h.update hrop (MiniGmp.mpzMul_holds hw (h.holds a) (h.holds b))

theorem Refines.mpzMod (h : Refines t s) (n : Mpz ι) :
    ∃ t', t.mpzMod rop n .prime = some t' ∧ Refines t' (s.mpzMod rop n .prime) := by
  obtain ⟨r, hr, hholds⟩ := MiniGmp.mpzMod_holds hw (h.holds n) (h.holds .prime) h.prime_ne
  refine ⟨Function.update t rop r, ?_, h.update hrop hholds⟩
  rw [LimbStore.mpzMod, hr]
  rfl

theorem Refines.modAdd (h : Refines t s) (a b : Mpz ι) :
    ∃ t', t.modAdd rop a b .prime = some t' ∧ Refines t' (s.modAdd rop a b .prime) := by
  obtain ⟨t1, ht1, h1⟩ := h.mpzAdd hw hrop a b
  obtain ⟨t2, ht2, h2⟩ := h1.mpzMod hw hrop rop
  exact ⟨t2, by simp [LimbStore.modAdd, ht1, ht2], h2⟩

omit hrop

theorem Refines.cube (h : Refines t s) (ciphertext : ι) :
    ∃ t', t.cube ciphertext = some t' ∧ Refines t' (s.cube ciphertext) := by
  have hvar : (Mpz.var ciphertext : Mpz ι) ≠ .prime := nofun
  have h1 := (h.mpzSet (by nofun : (Mpz.tmp : Mpz ι) ≠ .prime) (.var ciphertext)).mpzMul hw hvar
    (.var ciphertext) (.var ciphertext)
  obtain ⟨t2, ht2, h2⟩ := h1.mpzMod hw hvar (.var ciphertext)
  obtain ⟨t3, ht3, h3⟩ := (h2.mpzMul hw hvar (.var ciphertext) .tmp).mpzMod hw hvar
    (.var ciphertext)
  exact ⟨t3, by simp [LimbStore.cube, ht2, ht3], h3⟩

theorem Refines.mimc128Round (h : Refines t s) (ciphertext key : ι) (i : ℕ) :
    ∃ t', t.mimc128Round ciphertext key i = some t' ∧
      Refines t' (s.mimc128Round ciphertext key i) := by
  have hvar : (Mpz.var ciphertext : Mpz ι) ≠ .prime := nofun
  obtain ⟨t1, ht1, h1⟩ := h.cube hw ciphertext
  obtain ⟨t2, ht2, h2⟩ := h1.modAdd hw hvar (.var ciphertext) (.var key)
  obtain ⟨t3, ht3, h3⟩ := h2.modAdd hw hvar (.var ciphertext) (.constants i)
  exact ⟨t3, by simp [LimbStore.mimc128Round, ht1, ht2, ht3], h3⟩

/- The run on limbs follows the run over `ℤ`, round by round. -/
theorem Refines.mimc128Enc (h : Refines t s) (ciphertext key message : ι) :
    ∃ t', t.mimc128Enc ciphertext key message = some t' ∧
      Refines t' (s.mimc128Enc ciphertext key message) := by
  have hvar : (Mpz.var ciphertext : Mpz ι) ≠ .prime := nofun
  obtain ⟨t1, ht1, h1⟩ := h.modAdd hw hvar (.var message) (.var key)
  obtain ⟨t2, ht2, h2⟩ := forRangeM_some
    (fun n t => Refines t (forRange n (Store.mimc128Round ciphertext key)
      ((s.modAdd (.var ciphertext) (.var message) (.var key) .prime).mpzInitSet .tmp 0)))
    73 (LimbStore.mimc128Round ciphertext key) (t1.mpzInit .tmp) h1.mpzInit
    (fun i _ t ht => ht.mimc128Round hw ciphertext key i)
  obtain ⟨t3, ht3, h3⟩ := h2.modAdd hw hvar (.var ciphertext) (.var key)
  exact ⟨t3, by simp [LimbStore.mimc128Enc, ht1, ht2, ht3], h3⟩

end Steps

end LimbStore

end LimbStore

end Pobc.Mimc
