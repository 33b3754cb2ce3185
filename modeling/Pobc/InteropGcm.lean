import Pobc.Iot.AesGcmSiv
import Pobc.Mpc.AesGcm
import Pobc.Mpc.AesGcmSiv

/-!
# AES-GCM and AES-GCM-SIV between microcontroller and circuit

In both modes the two sides compute the same function, so they meet at the mode:
what one sends, the other opens.
-/

namespace Pobc.Interop
open Pobc.Iot Pobc.Mpc Pobc.Aes Pobc.Mode Pobc.Gcm

/-- Ciphertext and tag of `aes_gcm_128_encrypt` without associated data, with an
`aes128_encrypt_ffs` that computes AES-128. -/
def gcmSend (c₀ : Buffer) (key : Block) (nonce : Nonce) (m : List Byte) : List Byte × Block :=
  let out := aesGcm128Encrypt aes128 c₀ (bufferOf m) m.length (bufferOf []) 0 nonce key
  (bytesOf out.c m.length, out.tag)

theorem gcmSend_eq (c₀ : Buffer) (key : Block) (nonce : Nonce) (m : List Byte) :
    gcmSend c₀ key nonce m = gcmEncrypt (aes128 key) nonce m [] := by
  rw [gcmSend, aesGcm128Encrypt_tag, aesGcm128Encrypt_ciphertext, bytesOf_bufferOf]
  rfl

/-- The circuit recovers the message, and returns one for the tag that was sent
and zero for every other tag. -/
theorem aesGcm_interoperates (c₀ : Buffer) (r : Run) (key : Block) (nonce : Nonce)
    (m : List Byte) (tag : Block) :
    let sent := gcmSend c₀ key nonce m
    (aesGcm128Decrypt (sent.1.map raw) (rawBlock tag) (rawBlock key) (fun j => raw (nonce j)) r).1 =
      (if tag = sent.2 then 1 else 0, m.map raw) := by
  intro sent
  let E := aes128 key
  let icb := inc32 (nonceCtrBlock nonce 1)
  have hc : sent.1 = gctr E icb m := congrArg Prod.fst (gcmSend_eq c₀ key nonce m)
  have htag : sent.2 = gcmTag E nonce (gctr E icb m) [] :=
    congrArg Prod.snd (gcmSend_eq c₀ key nonce m)
  have hback : gctr E icb (gctr E icb m) = m := xorStream_xorStream _ m
  rw [hc, htag, aesGcm128Decrypt_returns key nonce tag _ r, tagCheck_rawBlock_eq, hback]

/-! ### AES-GCM-SIV -/

/-- Ciphertext and tag of `aes_gcm_siv_128_encrypt` without associated data, with
an mbedTLS that computes AES-128. -/
def gcmSivSend (c₀ : Buffer) (tag₀ key : Block) (nonce : Nonce) (m : List Byte) :
    List Byte × Block :=
  let lib : Mbedtls := ⟨fun _ _ => 0, aes128⟩
  let out := aesGcmSiv128Encrypt lib c₀ tag₀ (bufferOf m) m.length (bufferOf []) 0 nonce key
  (bytesOf out.c m.length, out.tag)

theorem gcmSivSend_eq (c₀ : Buffer) (tag₀ key : Block) (nonce : Nonce) (m : List Byte) :
    gcmSivSend c₀ tag₀ key nonce m = gcmSivEncrypt aes128 key nonce m [] := by
  have h := (aesGcmSiv128Encrypt_spec ⟨fun _ _ => 0, aes128⟩ c₀ tag₀ (bufferOf m) m.length
    (bufferOf []) 0 nonce key rfl rfl).2.1
  rw [bytesOf_bufferOf] at h
  exact h

/-- The circuit recovers the message and returns one. -/
theorem aesGcmSiv_interoperates (c₀ : Buffer) (tag₀ : Block) (r : Run) (key : Block)
    (nonce : Nonce) (m : List Byte) :
    let sent := gcmSivSend c₀ tag₀ key nonce m
    (aesGcmSiv128Decrypt (sent.1.map raw) (rawBlock sent.2) (rawBlock key)
      (fun j => raw (nonce j)) r).1 = (1, m.map raw) := by
  intro sent
  let encKey := sivEncKey (aes128 key) nonce
  let tag := gcmSivTag aes128 key nonce m []
  have hsent : sent = (xorStream (sivCtrStream (aes128 encKey) tag) m, tag) :=
    gcmSivSend_eq c₀ tag₀ key nonce m
  rw [hsent, aesGcmSiv128Decrypt_returns key nonce tag _ r, xorStream_xorStream,
    tagCheck_rawBlock_eq]
  exact congrArg (·, m.map raw) (if_pos rfl)

end Pobc.Interop
