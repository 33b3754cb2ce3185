import Pobc.Mimc.PpmacRoundTrip

/-!
# HtMAC-MiMC (`mimc-gmp/htmac128_gmp.c`)

The blocks are masked as in PPMAC; the tag is one encryption of a BLAKE2s digest of the
associated data and the blocks, keyed with the nonce. The keyed hash is a parameter: a
function of the key bytes and of the bytes it is fed.

`hashed` is not in the source: it records what is fed to the hash. Positions in a
buffer do not wrap, since the buffer has an address; the position of the tag in
`encrypt` is an `unsigned int` and does.
-/

namespace Pobc.Mimc
open Pobc.Loop

structure CtrState where
  ctrM : ℤ
  dest : Buffer

/-- One round of `ctr` (`htmac128_gmp.c:40-57`). -/
def ctrStep (doEnc : Bool) (src : Buffer) (readLen writeLen : ℕ) (nonce eK1 key : ℤ) (i : ℕ)
    (s : CtrState) : CtrState :=
  let element := read src (readLen * i) readLen
  let keystream := mimc128Enc key (modAdd s.ctrM nonce)
  let element := if doEnc then modAdd element keystream else modSub element keystream
  { ctrM := modAdd s.ctrM eK1
    dest := write s.dest (writeLen * i) element writeLen }

/-- `ctr` (`htmac128_gmp.c:11-74`). -/
def ctr (dest src : Buffer) (srcLen : ℕ) (npub : Buffer) (eK1 key : ℤ) (doEnc : Bool) : Buffer :=
  let readLen := if doEnc then 15 else 16
  let writeLen := if doEnc then 16 else 15
  let nonce := read npub 0 15
  let body := ctrStep doEnc src readLen writeLen nonce eK1 key
  let s := forRange (srcLen / readLen) body ⟨eK1, dest⟩
  if doEnc = true ∧ srcLen % readLen ≠ 0 then
    let element := read src (srcLen - srcLen % readLen) (srcLen % readLen)
    let keystream := mimc128Enc key (modAdd s.ctrM nonce)
    write s.dest (writeLen * (srcLen / readLen)) (modAdd element keystream) writeLen
  else s.dest

/-- The tag of a digest (`htmac128_gmp.c:117-127`, `176-184`). -/
def htmacTag (key eK1 : ℤ) (hash : Buffer) : ℤ :=
  let element := read hash 0 16 % prime
  let ctrM := modMul 0x800000000000000000000000001b8000 eK1
  mimc128Enc key (modAdd element ctrM)

/-- What the two `blake2s_update` calls are given (`htmac128_gmp.c:107-112`, `166-171`). -/
def hashInput (ad : Buffer) (adlen : ℕ) (c : Buffer) (bytes len : ℕ) : List Byte :=
  (if 0 < adlen then bytesOf ad adlen else []) ++ if 0 < len then bytesOf c bytes else []

structure HtmacEncrypted where
  ret : Int
  c : Buffer
  hashed : List Byte

structure HtmacDecrypted where
  ret : Int
  m : Buffer
  hashed : List Byte

section Modes

variable (blake2s : List Byte → List Byte → Buffer)

/-- `htmac_mimc_128_crypto_aead_encrypt` (`htmac128_gmp.c:76-138`). -/
def htmacEncrypt (c₀ m : Buffer) (mlen : ℕ) (ad : Buffer) (adlen : ℕ) (npub k : Buffer) :
    HtmacEncrypted :=
  let key := read k 0 16
  let eK1 := mimc128Enc key 1
  let c := ctr c₀ m mlen npub eK1 key true
  let tagStart := mlen / 15 * 16 % 2^32
  let tagStart := if mlen % 15 ≠ 0 then (tagStart + 16) % 2^32 else tagStart
  let hashed := hashInput ad adlen c tagStart mlen
  let hash := blake2s (bytesOf npub 15) hashed
  ⟨0, write c tagStart (htmacTag key eK1 hash) 16, hashed⟩

/-- `htmac_mimc_128_crypto_aead_decrypt` (`htmac128_gmp.c:140-197`); `none` is the failed
assertion. -/
def htmacDecrypt (m₀ c : Buffer) (clen : ℕ) (ad : Buffer) (adlen : ℕ) (npub k : Buffer) :
    Option HtmacDecrypted :=
  if clen % 16 ≠ 0 then none
  else
    let key := read k 0 16
    let eK1 := mimc128Enc key 1
    let m := ctr m₀ c (minus16 clen) npub eK1 key false
    let hashed := hashInput ad adlen c (minus16 clen) (minus16 clen)
    let hash := blake2s (bytesOf npub 15) hashed
    let element := htmacTag key eK1 hash
    some ⟨if read c (minus16 clen) 16 = element then 0 else -1, m, hashed⟩

end Modes

theorem hashInput_eq (ad : Buffer) (adlen : ℕ) (c : Buffer) (bytes len : ℕ)
    (h : len = 0 → bytes = 0) :
    hashInput ad adlen c bytes len = bytesOf ad adlen ++ bytesOf c bytes := by
  have had : (if 0 < adlen then bytesOf ad adlen else []) = bytesOf ad adlen := by
    split_ifs with hpos
    · rfl
    · have hzero : adlen = 0 := by omega
      rw [hzero]
      rfl
  have hc : (if 0 < len then bytesOf c bytes else []) = bytesOf c bytes := by
    split_ifs with hpos
    · rfl
    · rw [h (by omega)]
      rfl
  rw [hashInput, had, hc]

/-! ### The blocks of `ctr` -/

section Blocks

variable (npub k : Buffer)

theorem ctrLoop_enc (dest src : Buffer) (srcLen n : ℕ) (hn : n ≤ srcLen / 15) :
    let S := aeadSetup npub k
    forRange n (ctrStep true src 15 16 S.nonce S.eK1 S.key) ⟨S.eK1, dest⟩ =
      ⟨counter S.eK1 n, writeBlocks 16 n (cipherValue S src srcLen) dest⟩ := by
  intro S
  induction n with
  | zero => rfl
  | succ n ih =>
    have hpiece := pieceValue_of_whole src srcLen n (by omega)
    rw [forRange_succ, ih (by omega), writeBlocks_succ, cipherValue, hpiece]
    rfl

theorem ctrLoop_dec (dest src : Buffer) (n : ℕ) :
    let S := aeadSetup npub k
    forRange n (ctrStep false src 16 15 S.nonce S.eK1 S.key) ⟨S.eK1, dest⟩ =
      ⟨counter S.eK1 n,
        writeBlocks 15 n (fun i => modSub (read src (16 * i) 16) (keystream S i)) dest⟩ := by
  intro S
  induction n with
  | zero => rfl
  | succ n ih =>
    rw [forRange_succ, ih]
    rfl

/- Encryption masks the pieces, the partial one included. -/
theorem ctr_enc (dest src : Buffer) (srcLen : ℕ) :
    let S := aeadSetup npub k
    ctr dest src srcLen npub S.eK1 S.key true =
      writeBlocks 16 (pieces srcLen) (cipherValue S src srcLen) dest := by
  intro S
  have hloop := ctrLoop_enc npub k dest src srcLen (srcLen / 15) (Nat.le_refl _)
  have hloop' : forRange (srcLen / 15)
      (ctrStep true src 15 16 (read npub 0 15) S.eK1 S.key) ⟨S.eK1, dest⟩ =
      ⟨counter S.eK1 (srcLen / 15),
        writeBlocks 16 (srcLen / 15) (cipherValue S src srcLen) dest⟩ := hloop
  by_cases htail : srcLen % 15 = 0
  · simp only [ctr, if_true, hloop', htail, ne_eq, not_true_eq_false, and_false, if_false,
      pieces_of_whole srcLen htail]
  · have hwrite : writeBlocks 16 (pieces srcLen) (cipherValue S src srcLen) dest =
        write (writeBlocks 16 (srcLen / 15) (cipherValue S src srcLen) dest)
          (16 * (srcLen / 15)) (cipherValue S src srcLen (srcLen / 15)) 16 := by
      rw [pieces_of_tail srcLen htail, writeBlocks_succ]
    simp only [ctr, if_true, hloop', htail, ne_eq, not_false_eq_true, and_self, hwrite,
      cipherValue, pieceValue_of_tail]
    rfl

theorem ctr_dec (dest src : Buffer) (n : ℕ) :
    let S := aeadSetup npub k
    ctr dest src (16 * n) npub S.eK1 S.key false =
      writeBlocks 15 n (fun i => modSub (read src (16 * i) 16) (keystream S i)) dest := by
  intro S
  have hblocks : 16 * n / 16 = n := Nat.mul_div_cancel_left n (by decide)
  have hloop : forRange n (ctrStep false src 16 15 (read npub 0 15) S.eK1 S.key) ⟨S.eK1, dest⟩ =
      ⟨counter S.eK1 n,
        writeBlocks 15 n (fun i => modSub (read src (16 * i) 16) (keystream S i)) dest⟩ :=
    ctrLoop_dec npub k dest src n
  simp only [ctr, Bool.false_eq_true, if_false, false_and, hblocks, hloop]

end Blocks

/-! ### The two functions -/

section Modes

variable (blake2s : List Byte → List Byte → Buffer)

def htmacTagOf (npub k : Buffer) (hashed : List Byte) : ℤ :=
  htmacTag (aeadSetup npub k).key (aeadSetup npub k).eK1 (blake2s (bytesOf npub 15) hashed)

/- The tag goes to the block whose number is left after 32 bits of its position. -/
theorem htmacEncrypt_eq (c₀ m : Buffer) (mlen : ℕ) (ad : Buffer) (adlen : ℕ) (npub k : Buffer) :
    let c := writeBlocks 16 (pieces mlen) (cipherValue (aeadSetup npub k) m mlen) c₀
    let tagStart := 16 * (pieces mlen % 2^28)
    let hashed := bytesOf ad adlen ++ bytesOf c tagStart
    htmacEncrypt blake2s c₀ m mlen ad adlen npub k =
      ⟨0, write c tagStart (htmacTagOf blake2s npub k hashed) 16, hashed⟩ := by
  intro c tagStart hashed
  have hctr : ctr c₀ m mlen npub (mimc128Enc (read k 0 16) 1) (read k 0 16) true = c :=
    ctr_enc npub k c₀ m mlen
  have hstart : (if mlen % 15 ≠ 0 then (mlen / 15 * 16 % 2^32 + 16) % 2^32
      else mlen / 15 * 16 % 2^32) = tagStart := by
    split_ifs with htail
    · simp only [tagStart, pieces_of_tail mlen htail]
      omega
    · simp only [tagStart, pieces_of_whole mlen (not_not.mp htail)]
      omega
  have hhashed : hashInput ad adlen c tagStart mlen = hashed := by
    refine hashInput_eq ad adlen c tagStart mlen fun hzero => ?_
    simp only [tagStart, hzero]
    rfl
  simp only [htmacEncrypt, hctr, hstart, hhashed]
  rfl

theorem htmacDecrypt_eq (m₀ c : Buffer) (n : ℕ) (ad : Buffer) (adlen : ℕ) (npub k : Buffer) :
    let S := aeadSetup npub k
    let hashed := bytesOf ad adlen ++ bytesOf c (16 * n)
    htmacDecrypt blake2s m₀ c (16 * n + 16) ad adlen npub k =
      some ⟨if read c (16 * n) 16 = htmacTagOf blake2s npub k hashed then 0 else -1,
        writeBlocks 15 n (fun i => modSub (read c (16 * i) 16) (keystream S i)) m₀, hashed⟩ := by
  intro S hashed
  have hassert : ¬ (16 * n + 16) % 16 ≠ 0 := by omega
  have hhashed := hashInput_eq ad adlen c (16 * n) (16 * n) id
  have hctr : ctr m₀ c (16 * n) npub (mimc128Enc (read k 0 16) 1) (read k 0 16) false =
      writeBlocks 15 n (fun i => modSub (read c (16 * i) 16) (keystream S i)) m₀ :=
    ctr_dec npub k m₀ c n
  simp only [htmacDecrypt, hassert, if_false, minus16_add, hhashed, hctr]
  rfl

end Modes

end Pobc.Mimc
