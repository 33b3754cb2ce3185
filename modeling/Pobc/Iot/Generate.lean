import Pobc.Iot.SivRoundTrip
import Pobc.Iot.PobcTag
import Pobc.Iot.AesGcmSiv
import Pobc.Iot.Htmac
import Pobc.Iot.Fixslice

/-!
# Test vectors (`generate.c`)

`generate` picks an encryption function by comparing the name with the known ones,
each over the length of the known name, and `generate_f` draws message, key and nonce
from one stream of random bytes. `jolteon_aes_128_encrypt` and
`espeon_aes_128_encrypt` are not part of the tree and are parameters.

A run that an `assert` stops is `none`, and so is one that reads bytes nobody wrote,
as `pmac` does where the message ends within a block.
-/

namespace Pobc.Iot

/-- The type `aead_enc_f`: return code, ciphertext buffer and tag buffer. -/
abbrev AeadEncF :=
  Buffer → Buffer → Buffer → ℕ → Buffer → ℕ → Buffer → Buffer → Option (Int × Buffer × Buffer)

/-- The type `aead_dec_f`: return code and message buffer. -/
abbrev AeadDecF :=
  Buffer → Buffer → ℕ → Buffer → Buffer → ℕ → Buffer → Buffer → Option (Int × Buffer)

/-- The functions that `jolteon.h` and `espeon.h` declare and no file defines. -/
structure MissingPrimitives where
  jolteonAes128Encrypt : AeadEncF
  espeonAes128Encrypt : AeadEncF

def blockIn (buf : Buffer) : Block := fun j => buf j
def nonceIn (buf : Buffer) : Nonce := fun j => buf j
def storeBlock (buf : Buffer) (b : Block) : Buffer := writeBytes buf 0 16 (byteAt b)

def bytesOfBlock (b : Block) : List Byte := bytesOf (byteAt b) 16

/-- One lane of `aes128_encrypt_ffs` under the schedule of a key. -/
def ffsCipher (key ptext : Block) : Block :=
  (Fixslice.aes128EncryptFfs ptext none (Fixslice.aes128KeyscheduleFfs (fun _ => 0) key)).1

/-- The `n` bytes of an array as memory. -/
def arrayMemory (buf : Buffer) (n : ℕ) : Memory := memoryOf (bytesOf buf n)

/-- The array after a call that wrote to its memory. -/
def arrayAfter (buf : Buffer) (mem : Memory) : Buffer := fun p => (mem p).getD (buf p)

section Adapters

variable (order : ByteOrder) (lib : Mbedtls)

/-- `aes_gcm_siv_128_encrypt` behind the function pointer. -/
def gcmSivEncryptF : AeadEncF := fun c tag m mlen ad adlen npub k =>
  let out := aesGcmSiv128Encrypt lib c (blockIn tag) m mlen ad adlen (nonceIn npub) (blockIn k)
  some (out.ret, out.c, storeBlock tag out.tag)

/-- `aes_gcm_128_encrypt` behind the function pointer. -/
def gcmEncryptF : AeadEncF := fun c tag m mlen ad adlen npub k =>
  let out := aesGcm128Encrypt ffsCipher c m mlen ad adlen (nonceIn npub) (blockIn k)
  some (out.ret, out.c, storeBlock tag out.tag)

/-- `aes_pobc_encrypt` behind the function pointer. -/
def pobcEncryptF : AeadEncF := fun c tag m mlen ad adlen npub k =>
  let out := aesPobcEncrypt order lib c (blockIn tag) m mlen ad adlen (nonceIn npub) (blockIn k)
  some (out.ret, out.c, storeBlock tag out.tag)

/-- `aead_pobc_siv_encrypt_wrapper` (`generate.c:66-77`). -/
def aeadPobcSivEncryptWrapper : AeadEncF := fun c tag m mlen ad adlen _ k =>
  let out := aesPobcSivEncrypt lib c (blockIn tag) m mlen ad adlen (blockIn k)
  some (out.ret, out.c, storeBlock tag out.iv)

/-- `aead_pobc_siv_decrypt_wrapper` (`generate.c:79-90`). -/
def aeadPobcSivDecryptWrapper : AeadDecF := fun m c clen tag ad adlen _ k =>
  let out := aesPobcSivDecrypt lib m c clen ad adlen (blockIn tag) (blockIn k)
  some (out.ret, out.m)

/-- An encryption function of `aes_modes.c` behind the function pointer. -/
def modesEncryptF (enc : Memory → Memory → ℕ → Block → Nonce → Option (Memory × Block)) :
    AeadEncF := fun c tag m mlen _ _ npub k => do
  let (ciphertext, computedTag) ←
    enc (arrayMemory c mlen) (arrayMemory m mlen) mlen (blockIn k) (nonceIn npub)
  return (0, arrayAfter c ciphertext, storeBlock tag computedTag)

/-- A decryption function of `aes_modes.c` behind the function pointer. -/
def modesDecryptF (dec : Memory → Memory → ℕ → Block → Block → Nonce → Option (Memory × Bool)) :
    AeadDecF := fun m c clen tag _ _ npub k => do
  let (message, valid) ←
    dec (arrayMemory m clen) (arrayMemory c clen) clen (blockIn tag) (blockIn k) (nonceIn npub)
  return (if valid then 0 else -1, arrayAfter m message)

/-- `aead_htmac_aes_wrapper` (`generate.c:93-110`). -/
def aeadHtmacAesWrapper : AeadEncF := modesEncryptF (encHtmacAes128 order ffsCipher)

/-- `aead_pmac_aes_wrapper` (`generate.c:112-129`). -/
def aeadPmacAesWrapper : AeadEncF := modesEncryptF (encPmacAes128 ffsCipher)

/-- `aead_htmac_aes_dec_wrapper` (`generate.c:131-151`). -/
def aeadHtmacAesDecWrapper : AeadDecF := modesDecryptF (decHtmacAes128 order ffsCipher)

/-- `aead_pmac_aes_dec_wrapper` (`generate.c:153-173`). -/
def aeadPmacAesDecWrapper : AeadDecF := modesDecryptF (decPmacAes128 ffsCipher)

end Adapters

/-! ### One run -/

structure TestVector where
  key : List Byte
  nonce : List Byte
  message : List Byte
  ciphertext : List Byte
  tag : List Byte

/-- What is printed: a whole line, or one that a failed check ends, or the refusal of
a check. -/
inductive Output where
  | vector (v : TestVector)
  | decryptionFailed (key nonce message : List Byte)
  | messageMismatch (key nonce message : List Byte)
  | checkNotSupported (primitive : List Char)

/-- The local variables of `generate_f`, with the number of random bytes drawn. -/
structure GenerateState where
  drawn : ℕ
  ciphertext : Buffer
  tag : Buffer
  decMessage : Buffer

section Run

variable (rand : ℕ → Byte) (mlen keylen noncelen taglen : ℕ)

/-- `fill_rand` (`generate.c:53-57`): `n` bytes of the stream. -/
def fillRand (drawn n : ℕ) : List Byte := bytesOf (fun i => rand (drawn + i)) n

/-- The loop of `generate_f` (`generate.c:185-220`), over the rounds that are left. -/
def generateLoop (aeadEnc : AeadEncF) (aeadDec : Option AeadDecF) (check : Bool) :
    ℕ → GenerateState → Option (Int × List Output)
  | 0, _ => some (0, [])
  | samples + 1, s =>
    let message := fillRand rand s.drawn mlen
    let key := fillRand rand (s.drawn + mlen) keylen
    let nonce := fillRand rand (s.drawn + mlen + keylen) noncelen
    let null : Buffer := fun _ => 0
    match aeadEnc s.ciphertext s.tag (bufferOf message) mlen null 0 (bufferOf nonce)
      (bufferOf key) with
    | none => none
    | some (ret, ciphertext, tag) =>
      if ret ≠ 0 then none
      else
        let line := Output.vector
          ⟨key, nonce, message, bytesOf ciphertext mlen, bytesOf tag taglen⟩
        let next (decMessage : Buffer) :=
          (generateLoop aeadEnc aeadDec check samples
            ⟨s.drawn + mlen + keylen + noncelen, ciphertext, tag, decMessage⟩).map
            fun rest => (rest.1, line :: rest.2)
        if check then
          match aeadDec.bind fun aeadDec => aeadDec s.decMessage ciphertext mlen tag null 0
            (bufferOf nonce) (bufferOf key) with
          | none => none
          | some (tagcheck, decMessage) =>
            if tagcheck ≠ 0 then some (-1, [.decryptionFailed key nonce message])
            else if bytesOf decMessage mlen ≠ message then
              some (-1, [.messageMismatch key nonce message])
            else next decMessage
        else next s.decMessage

/-- `generate_f` (`generate.c:175-221`). -/
def generateF (samples : ℕ) (aeadEnc : AeadEncF) (aeadDec : Option AeadDecF) (check : Bool) :
    Option (Int × List Output) :=
  generateLoop rand mlen keylen noncelen taglen aeadEnc aeadDec check samples
    ⟨0, fun _ => 0, fun _ => 0, fun _ => 0⟩

end Run

/-! ### The names -/

def htmacAes : List Char := "htmac_aes".toList
def pmacAes : List Char := "pmac_aes".toList
def gcmSivAes128 : List Char := "aes_gcm_siv_128".toList
def gcmAes128 : List Char := "aes_gcm_128".toList
def pobcAes : List Char := "aes_pobc".toList
def pobcSivAes : List Char := "aes_pobc_siv".toList
def jolteonAes128 : List Char := "jolteon_aes_128".toList
def espeonAes128 : List Char := "espeon_aes_128".toList

def sameName (name primitive : List Char) : Bool := name.isPrefixOf primitive

/-- `generate` (`generate.c:223-320`). -/
def generate (order : ByteOrder) (lib : Mbedtls) (missing : MissingPrimitives) (rand : ℕ → Byte)
    (primitive : List Char) (mlen samples : ℕ) (check : Bool) : Option (Int × List Output) :=
  if sameName gcmSivAes128 primitive then
    if check then some (-2, [.checkNotSupported gcmSivAes128])
    else generateF rand mlen 16 12 16 samples (gcmSivEncryptF lib) none check
  else if sameName gcmAes128 primitive then
    if check then some (-2, [.checkNotSupported gcmAes128])
    else generateF rand mlen 16 12 16 samples gcmEncryptF none check
  else if sameName pobcAes primitive then
    if check then some (-2, [.checkNotSupported pobcAes])
    else generateF rand mlen 16 12 16 samples (pobcEncryptF order lib) none check
  else if sameName pobcSivAes primitive then
    generateF rand mlen 16 16 16 samples (aeadPobcSivEncryptWrapper lib)
      (some (aeadPobcSivDecryptWrapper lib)) check
  else if sameName htmacAes primitive then
    generateF rand mlen 16 12 16 samples (aeadHtmacAesWrapper order)
      (some (aeadHtmacAesDecWrapper order)) check
  else if sameName pmacAes primitive then
    generateF rand mlen 16 12 16 samples aeadPmacAesWrapper
      (some aeadPmacAesDecWrapper) check
  else if sameName jolteonAes128 primitive then
    if check then some (-2, [.checkNotSupported jolteonAes128])
    else generateF rand mlen 32 14 16 samples missing.jolteonAes128Encrypt none check
  else if sameName espeonAes128 primitive then
    if check then some (-2, [.checkNotSupported espeonAes128])
    else generateF rand mlen 32 16 16 samples missing.espeonAes128Encrypt none check
  else none

def vectors : Option (Int × List Output) → List TestVector
  | none => []
  | some out => out.2.filterMap fun
    | .vector v => some v
    | _ => none

end Pobc.Iot
