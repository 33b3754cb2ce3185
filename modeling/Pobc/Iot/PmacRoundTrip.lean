import Pobc.Iot.AesModes

/-!
# The AES-CTR-PMAC round trip and the length

Encryption rounds the number of MAC blocks up and decryption rounds it down. On
a partial last block encryption therefore reads past the ciphertext it has
written; on whole blocks both sides authenticate the same bytes.
-/

namespace Pobc.Iot

/-- `enc_pmac_aes128` reads written bytes only, and `dec_pmac_aes128` accepts
what it produced and returns the message. -/
def PmacRoundTrips (cipher : Block → Block → Block) (key : Block) (nonce : Nonce)
    (m : List Byte) : Prop :=
  ∃ c tag out,
    encPmacAes128 cipher unwritten (memoryOf m) m.length key nonce = some (c, tag) ∧
    decPmacAes128 cipher unwritten c m.length tag key nonce = some (out, true) ∧
    ∀ p < m.length, out p = m[p]?

theorem memoryOf_eq (m : List Byte) (p : ℕ) (hp : p < m.length) :
    memoryOf m p = some (bufferOf m p) := by
  simp [memoryOf, bufferOf, List.getD_eq_getElem?_getD, hp]

theorem exists_ciphertext (E : Block → Block) (counter : Block) (m : List Byte) :
    ∃ c, aesCtrDec E unwritten counter (memoryOf m) m.length = some c ∧
      ∀ p, c p = if p < m.length then some (bufferOf m p ^^^ modesStream E counter p) else none :=
  aesCtrDec_spec E unwritten counter (memoryOf m) (bufferOf m) m.length fun p hp =>
    memoryOf_eq m p hp

/- A fresh buffer filled by the stream loop reads back as the XOR with the stream. -/
theorem stream_readback (E : Block → Block) (counter : Block) (l : List Byte) :
    ∃ out bytes, aesCtrDec E unwritten counter (memoryOf l) l.length = some out ∧
      (∀ p < l.length, out p = some (bufferOf (xorStream (modesStream E counter) l) p)) ∧
      readBytes out 0 l.length = some bytes ∧
      bytesOf bytes l.length = xorStream (modesStream E counter) l := by
  obtain ⟨out, hout, hbytes⟩ := exists_ciphertext E counter l
  have hmem : ∀ p < l.length, out p = some (bufferOf (xorStream (modesStream E counter) l) p) := by
    intro p hp
    rw [hbytes, if_pos hp, bufferOf_xorStream _ _ _ hp]
  obtain ⟨bytes, hread, hval⟩ := readBytes_some out 0 l.length
    (bufferOf (xorStream (modesStream E counter) l)) fun j hj => by rw [Nat.zero_add, hmem j hj]
  refine ⟨out, bytes, hout, hmem, hread, ?_⟩
  rw [bytesOf_congr _ _ _ hval]
  have hlen : (xorStream (modesStream E counter) l).length = l.length := length_xorStream _ _
  rw [← hlen, bytesOf_bufferOf]

theorem whole_blocks_roundTrip (cipher : Block → Block → Block) (key : Block) (nonce : Nonce)
    (m : List Byte) (hlen : 16 ∣ m.length) : PmacRoundTrips cipher key nonce m := by
  let E := cipher key
  let ks := modesStream E (modesCounter nonce)
  obtain ⟨c, hc, hbytes⟩ := exists_ciphertext E (modesCounter nonce) m
  have hblocks : (m.length + 15) / 16 = m.length / 16 := by omega
  obtain ⟨tag, htag⟩ := pmac_some E c (m.length / 16) fun p hp => by
    rw [hbytes, if_pos (by omega)]
    rfl
  obtain ⟨out, hout, hrecovered⟩ := aesCtrDec_spec E unwritten (modesCounter nonce) c
    (fun p => bufferOf m p ^^^ ks p) m.length fun p hp => by rw [hbytes, if_pos hp]
  refine ⟨c, tag, out, ?_, ?_, fun p hp => ?_⟩
  · simp only [encPmacAes128]
    rw [hc, Option.bind_eq_bind, Option.bind_some, hblocks, htag]
    rfl
  · simp only [decPmacAes128]
    rw [hout, Option.bind_eq_bind, Option.bind_some, htag, Option.bind_eq_bind, Option.bind_some,
      tagCompare_self]
    rfl
  · rw [hrecovered, if_pos hp, BitVec.xor_assoc, BitVec.xor_self, BitVec.xor_zero]
    exact (memoryOf_eq m p hp).symm

/- Byte `m.length` of the ciphertext buffer is in the last MAC block and unwritten. -/
theorem partial_block_reads_unwritten (cipher : Block → Block → Block) (key : Block)
    (nonce : Nonce) (m : List Byte) (hlen : ¬ 16 ∣ m.length) :
    encPmacAes128 cipher unwritten (memoryOf m) m.length key nonce = none := by
  obtain ⟨c, hc, hbytes⟩ := exists_ciphertext (cipher key) (modesCounter nonce) m
  have hnone : c m.length = none := by rw [hbytes, if_neg (Nat.lt_irrefl _)]
  have hmac := pmac_none (cipher key) c ((m.length + 15) / 16) m.length (by omega) hnone
  simp only [encPmacAes128]
  rw [hc, Option.bind_eq_bind, Option.bind_some, hmac]
  rfl

theorem partial_block_fails (cipher : Block → Block → Block) (key : Block) (nonce : Nonce)
    (m : List Byte) (hlen : ¬ 16 ∣ m.length) : ¬ PmacRoundTrips cipher key nonce m := by
  rintro ⟨c, tag, out, henc, _⟩
  rw [partial_block_reads_unwritten cipher key nonce m hlen] at henc
  cases henc

theorem pmacRoundTrips_iff (cipher : Block → Block → Block) (key : Block) (nonce : Nonce)
    (m : List Byte) : PmacRoundTrips cipher key nonce m ↔ 16 ∣ m.length := by
  constructor
  · intro h
    by_contra hlen
    exact partial_block_fails cipher key nonce m hlen h
  · exact whole_blocks_roundTrip cipher key nonce m

theorem single_byte_fails :
    ¬ PmacRoundTrips (fun _ => id) zeroBlock (fun _ => 0) [0] :=
  partial_block_fails (fun _ => id) zeroBlock (fun _ => 0) [0] (by decide)

end Pobc.Iot
