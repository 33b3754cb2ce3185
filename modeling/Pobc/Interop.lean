import Pobc.Iot.PobcTag
import Pobc.Mpc.AesPobc64

/-!
# The two AES-POBC implementations against each other

`aes_pobc_encrypt` counts behind the nonce and `aes_pobc64_128_decrypt` in front
of it, and the tags are different sums; on top of that the decryption circuit
works with embedded keystream bytes. Equal keystream blocks need equal counter
blocks, since AES-128 is injective: the first ones are equal for one nonce and
the second ones for none.
-/

namespace Pobc.Interop
open Pobc.Iot Pobc.Mpc Pobc.Aes Pobc.Mode

def aesLib : Mbedtls := ⟨fun _ _ => 0, aes128⟩

/-- Ciphertext and tag from the microcontroller, without associated data. -/
def iotEncrypt (order : ByteOrder) (key : Block) (nonce : Nonce) (m : List Byte) :
    List Byte × Block :=
  let out := aesPobcEncrypt order aesLib (fun _ => 0) zeroBlock (bufferOf m) m.length
    (bufferOf []) 0 nonce key
  (bytesOf out.c m.length, out.tag)

/-- The circuit accepts what the microcontroller sends and recovers the message. -/
def Interoperates (memory : MultiArray) (r : Run) (order : ByteOrder) (key : Block) (nonce : Nonce)
    (m : List Byte) : Prop :=
  let sent := iotEncrypt order key nonce m
  (aesPobc64128Decrypt memory (sent.1.map raw) (rawBlock sent.2) (rawBlock key)
    (fun j => raw (nonce j)) r).1 = (1, m.map raw)

/-- Byte `p` of the microcontroller's keystream. -/
def iotStream (order : ByteOrder) (key : Block) (nonce : Nonce) : ℕ → Byte :=
  ctrStream (nonceIncr order) (aes128 key) (streamStart nonce)

theorem iotEncrypt_eq (order : ByteOrder) (key : Block) (nonce : Nonce) (m : List Byte) :
    iotEncrypt order key nonce m = pobcEncrypt order (aes128 key) nonce [] m := by
  rw [iotEncrypt, aesPobcEncrypt_congr order aesLib (Mbedtls.ofCipher (aes128 key)) (fun _ => 0)
    zeroBlock (bufferOf m) m.length (bufferOf []) 0 nonce key zeroBlock rfl rfl, pobcEncrypt,
    List.length_nil]

theorem iotEncrypt_fst (order : ByteOrder) (key : Block) (nonce : Nonce) (m : List Byte) :
    (iotEncrypt order key nonce m).1 = xorStream (iotStream order key nonce) m := by
  rw [iotEncrypt_eq, pobcEncrypt_fst, iotStream]

theorem iotEncrypt_snd (order : ByteOrder) (key : Block) (nonce : Nonce) (m : List Byte)
    (j : Fin 16) : lane ((iotEncrypt order key nonce m).2 j) =
      tagColumn order (aes128 key) nonce [] (iotEncrypt order key nonce m).1 j := by
  rw [iotEncrypt_eq, pobcEncrypt_snd]

/-! ### The counter blocks -/

theorem nonce_of_first_block (nonce : Nonce) (h : ctrBlock 1 (tailOf nonce) = streamStart nonce) :
    nonce = fun j => if j.val % 4 = 3 then 1 else 0 := by
  have hbyte : ∀ i : Fin 16, ctrBlock 1 (tailOf nonce) i = streamStart nonce i := congrFun h
  -- the first four bytes are the counter, the others the nonce moved by four
  have h0 : 0 = nonce 0 := hbyte 0
  have h1 : 0 = nonce 1 := hbyte 1
  have h2 : 0 = nonce 2 := hbyte 2
  have h3 : 1 = nonce 3 := hbyte 3
  have h4 : nonce 0 = nonce 4 := hbyte 4
  have h5 : nonce 1 = nonce 5 := hbyte 5
  have h6 : nonce 2 = nonce 6 := hbyte 6
  have h7 : nonce 3 = nonce 7 := hbyte 7
  have h8 : nonce 4 = nonce 8 := hbyte 8
  have h9 : nonce 5 = nonce 9 := hbyte 9
  have h10 : nonce 6 = nonce 10 := hbyte 10
  have h11 : nonce 7 = nonce 11 := hbyte 11
  funext j
  fin_cases j <;> simp_all

theorem second_block_ne (order : ByteOrder) (nonce : Nonce)
    (h : ctrBlock 1 (tailOf nonce) = streamStart nonce) :
    ctrBlock 2 (tailOf nonce) ≠ nonceIncr order (streamStart nonce) := by
  rw [nonce_of_first_block nonce h]
  cases order <;> decide

/- Equal keystream blocks come from equal counter blocks. -/
theorem counter_eq (key : Block) (order : ByteOrder) (nonce : Nonce) (t : ℕ)
    (h : ∀ j < 16,
      pobcStream (aes128 key) nonce (16 * t + j) = iotStream order key nonce (16 * t + j)) :
    ctrBlock (1 + t) (tailOf nonce) = (nonceIncr order)^[t] (streamStart nonce) := by
  refine cipher_injective (keyExpansion key) (block_ext _ _ fun j hj => ?_)
  have hbyte := h j hj
  rw [pobcStream_block _ _ t j hj, iotStream, ctrStream_block _ _ _ t j hj] at hbyte
  exact hbyte

theorem short_of_streams (key : Block) (order : ByteOrder) (nonce : Nonce) (n : ℕ)
    (h : ∀ p < n, pobcStream (aes128 key) nonce p = iotStream order key nonce p) :
    n < 32 ∧ (16 ≤ n → nonce = fun j => if j.val % 4 = 3 then 1 else 0) := by
  have hfirst : 16 ≤ n → ctrBlock 1 (tailOf nonce) = streamStart nonce := fun hn =>
    counter_eq key order nonce 0 fun j hj => h (16 * 0 + j) (by omega)
  refine ⟨Nat.lt_of_not_le fun hn => ?_, fun hn => nonce_of_first_block nonce (hfirst hn)⟩
  exact second_block_ne order nonce (hfirst (by omega))
    (counter_eq key order nonce 1 fun j hj => h (16 * 1 + j) (by omega))

/-! ### When they interoperate -/

/- One run, as conditions on the two keystreams and the two tags. -/
theorem interoperates_iff_streams (memory : MultiArray) (r : Run) (order : ByteOrder) (key : Block)
    (nonce : Nonce) (m : List Byte) :
    Interoperates memory r order key nonce m ↔
      (iotEncrypt order key nonce m).2 =
        lowEmb (pobcTag (aes128 key) nonce (xorStream (iotStream order key nonce) m)) ∧
      ∀ p < m.length, pobcStream (aes128 key) nonce p = iotStream order key nonce p ∧
        ZeroOne (pobcStream (aes128 key) nonce p) := by
  have hback := xorStream_xorStream (iotStream order key nonce) m
  have hmessage := mixedStream_eq_iff (pobcStream (aes128 key) nonce) (iotStream order key nonce)
    (xorStream (iotStream order key nonce) m)
  rw [hback, length_xorStream] at hmessage
  simp only [Interoperates]
  rw [aesPobc64128Decrypt_returns memory key nonce _ _ r, Prod.mk.injEq, tagCheck_embBlock,
    iotEncrypt_fst, hmessage]

/-- The condition is on the two keystreams under the message and on the two tags
of the ciphertext. It excludes messages of 32 bytes and more. -/
theorem interoperates_iff (memory : MultiArray) (r : Run) (order : ByteOrder) (key : Block)
    (nonce : Nonce) (m : List Byte) :
    let c := xorStream (iotStream order key nonce) m
    Interoperates memory r order key nonce m ↔
      (m.length < 32 ∧ (16 ≤ m.length → nonce = fun j => if j.val % 4 = 3 then 1 else 0)) ∧
      (∀ p < m.length, pobcStream (aes128 key) nonce p = iotStream order key nonce p ∧
        ZeroOne (pobcStream (aes128 key) nonce p)) ∧
      ∀ j, tagColumn order (aes128 key) nonce [] c j =
        lane (lowEmb (pobcTag (aes128 key) nonce c) j) := by
  intro c
  have htag : (iotEncrypt order key nonce m).2 = lowEmb (pobcTag (aes128 key) nonce c) ↔
      ∀ j, tagColumn order (aes128 key) nonce [] c j =
        lane (lowEmb (pobcTag (aes128 key) nonce c) j) := by
    have hc : c = (iotEncrypt order key nonce m).1 := (iotEncrypt_fst order key nonce m).symm
    rw [funext_iff]
    refine forall_congr' fun j => ?_
    rw [hc, ← iotEncrypt_snd]
    exact ⟨congrArg lane, lane_inj⟩
  rw [interoperates_iff_streams, htag]
  constructor
  · rintro ⟨hcolumns, hstreams⟩
    exact ⟨short_of_streams key order nonce m.length fun p hp => (hstreams p hp).1, hstreams,
      hcolumns⟩
  · rintro ⟨_, hstreams, hcolumns⟩
    exact ⟨hcolumns, hstreams⟩

/-- One byte under the zero key and nonce does not arrive. -/
theorem zero_byte_lost : ¬ Interoperates (fun _ _ => 0) ⟨fun _ => false, 0, []⟩ .little zeroBlock
    zeroNonce [0] := by
  intro h
  have hzeroOne := (((interoperates_iff_streams _ _ _ _ _ _).mp h).2 0 Nat.one_pos).2
  rw [pobcStream_zero] at hzeroOne
  exact absurd hzeroOne (by decide)

end Pobc.Interop
