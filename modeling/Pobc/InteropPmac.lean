import Pobc.Iot.Htmac
import Pobc.Mpc.AesModes

/-!
# AES-CTR-PMAC between microcontroller and circuit

The circuit runs both the counter mode and the tag under the key it reads, and
compares the tag in embedded cells with the bytes of the sender. What is left are
equations between values of AES-128: keys of bytes zero and one meet them for the
message, and most tags exclude them (`embShaped_of_pmacInteroperates`).
-/

namespace Pobc.Interop
open Pobc.Iot Pobc.Mpc Pobc.Aes Pobc.Mode

/-- `enc_pmac_aes128` with AES-128 into a fresh buffer, read back by the caller. -/
def pmacSend (key : Block) (nonce : Nonce) (m : List Byte) : Option (List Byte × Block) := do
  let (ciphertext, tag) ← encPmacAes128 aes128 unwritten (memoryOf m) m.length key nonce
  let bytes ← readBytes ciphertext 0 m.length
  return (bytesOf bytes m.length, tag)

/-- The circuit accepts what the microcontroller sends and recovers the message. -/
def PmacInteroperates (r : Run) (key : Block) (nonce : Nonce) (m : List Byte) : Prop :=
  ∃ c tag p, pmacSend key nonce m = some (c, tag) ∧
    decPmacAes128 (c.map raw) (rawBlock tag) (rawBlock key) (fun j => raw (nonce j)) = some p ∧
    (p r).1 = (1, m.map raw)

/-! ### The sender -/

/-- Byte `p` of the microcontroller's keystream. -/
def senderStream (key : Block) (nonce : Nonce) (p : ℕ) : Byte :=
  byteAt (aes128 key (nonceCtrBlock nonce (1 + p / 16))) (p % 16)

theorem modesStream_eq (E : Block → Block) (nonce : Nonce) (p : ℕ) :
    modesStream E (modesCounter nonce) p =
      byteAt (E (nonceCtrBlock nonce (1 + p / 16))) (p % 16) := by
  have hload : loadWord .big (modesCounter nonce) = 1 := by
    simp [loadWord, modesCounter, setByte, byteAt, nonceBlock]
  have hstore : ∀ w, storeWord .big (modesCounter nonce) w = nonceCtrBlock nonce w := by
    intro w
    funext j
    fin_cases j <;> rfl
  have hwrap : ∀ w, nonceCtrBlock nonce (w % 2^32) = nonceCtrBlock nonce w := by
    intro w
    funext j
    simp only [nonceCtrBlock, beByte_mod]
  rw [modesStream, hload, hstore, hwrap]

theorem pmacSend_eq (key : Block) (nonce : Nonce) (m : List Byte) (hlen : 16 ∣ m.length) :
    let c := xorStream (senderStream key nonce) m
    pmacSend key nonce m = some (c, pmacTag (aes128 key) (bufferOf c) (m.length / 16)) := by
  intro c
  have hstream : modesStream (aes128 key) (modesCounter nonce) = senderStream key nonce :=
    funext fun p => modesStream_eq (aes128 key) nonce p
  obtain ⟨out, bytes, hout, hmem, hread, hback⟩ :=
    stream_readback (aes128 key) (modesCounter nonce) m
  rw [hstream] at hmem hback
  have hblocks : (m.length + 15) / 16 = m.length / 16 := by omega
  have htag := Iot.pmac_eq (aes128 key) out (bufferOf c) (m.length / 16) fun p hp =>
    hmem p (by omega)
  have henc : encPmacAes128 aes128 unwritten (memoryOf m) m.length key nonce =
      some (out, pmacTag (aes128 key) (bufferOf c) (m.length / 16)) := by
    simp only [encPmacAes128]
    rw [hout, Option.bind_eq_bind, Option.bind_some, hblocks, htag]
    rfl
  rw [pmacSend, henc, Option.bind_eq_bind, Option.bind_some]
  show ((readBytes out 0 m.length).bind fun bytes => some (bytesOf bytes m.length, _)) = _
  rw [hread, Option.bind_some, hback]

/-! ### When they interoperate -/

/- One run, as conditions on the two keystreams and the two tags. -/
theorem pmacInteroperates_iff_streams (r : Run) (key : Block) (nonce : Nonce) (m : List Byte)
    (hpos : 0 < m.length) (hlen : 16 ∣ m.length) :
    let c := xorStream (senderStream key nonce) m
    PmacInteroperates r key nonce m ↔
      (∀ j, lowByte (outputCells key (circuitTag key c (m.length / 16)) j) =
        pmacTag (aes128 key) (bufferOf c) (m.length / 16) j) ∧
      ∀ p < m.length, circuitStream key nonce p = senderStream key nonce p := by
  intro c
  let tag := pmacTag (aes128 key) (bufferOf c) (m.length / 16)
  have hc : c.length = m.length := length_xorStream _ _
  have hsend : pmacSend key nonce m = some (c, tag) := pmacSend_eq key nonce m hlen
  have hback : xorStream (senderStream key nonce) c = m := xorStream_xorStream _ m
  obtain ⟨p, hp, hrun⟩ := decPmacAes128_returns key nonce tag c (by omega) (by rwa [hc])
  have hmessage : (xorStream (circuitStream key nonce) c).map raw = m.map raw ↔
      ∀ p < m.length, circuitStream key nonce p = senderStream key nonce p := by
    rw [(List.map_injective_iff.mpr raw_injective).eq_iff, ← hc, ← xorStream_eq_iff, hback]
  have hone : PmacInteroperates r key nonce m ↔ (p r).1 = (1, m.map raw) := by
    constructor
    · rintro ⟨c', tag', p', hsend', hp', hresult⟩
      rw [hsend, Option.some.injEq, Prod.mk.injEq] at hsend'
      obtain ⟨rfl, rfl⟩ := hsend'
      rw [hp, Option.some.injEq] at hp'
      rwa [hp']
    · exact fun hresult => ⟨c, tag, p, hsend, hp, hresult⟩
  rw [hone, hrun r, Prod.mk.injEq, tagCheck_low_bytes, hmessage, hc]
  simp only [rawBlock, lowByte_raw]
  exact Iff.rfl

/-- What the eight low coordinates of an embedded byte satisfy. -/
def EmbShaped (b : Byte) : Prop := (b.getLsbD 1 ^^ b.getLsbD 5 ^^ b.getLsbD 7) = false

theorem embShaped_lowByte (b : Byte) : EmbShaped (lowByte (emb b)) := by
  have htable : ∀ b : Byte, (((lowByte (emb b)).getLsbD 1 ^^ (lowByte (emb b)).getLsbD 5 ^^
      (lowByte (emb b)).getLsbD 7) = false) := by decide +kernel
  exact htable b

theorem lowByte_outputCells (key x : Block) (j : Fin 16) : lowByte (outputCells key x j) =
    lowByte (emb (x j ^^^ unembed (raw (carriedKey key j)))) ^^^ carriedKey key j := by
  rw [outputCells, lowByte_add, lowByte_raw]

theorem streams_iff_blocks (key : Block) (nonce : Nonce) (n : ℕ) :
    (∀ p < 16 * n, circuitStream key nonce p = senderStream key nonce p) ↔
      ∀ i < n, aes128 (readBlock key) (nonceCtrBlock nonce (1 + i)) =
        aes128 key (nonceCtrBlock nonce (1 + i)) := by
  constructor
  · intro h i hi
    apply block_ext
    intro j hj
    have hbyte := h (16 * i + j) (by omega)
    have hdiv : (16 * i + j) / 16 = i := by omega
    have hmod : (16 * i + j) % 16 = j := by omega
    rwa [circuitStream, senderStream, hdiv, hmod] at hbyte
  · intro h p hp
    rw [circuitStream, senderStream, h (p / 16) (by omega)]

/- One coordinate block of the comparison, with the last round key on the other side. -/
theorem lowByte_outputCells_eq_iff (key x : Block) (j : Fin 16) (t : Byte) :
    lowByte (outputCells key x j) = t ↔
      lowByte (emb (x j ^^^ unembed (raw (carriedKey key j)))) = t ^^^ carriedKey key j := by
  rw [lowByte_outputCells, xor_eq_iff]

/-- Equations between values of AES-128 under the key and under the key that is
read. -/
theorem pmacInteroperates_iff (r : Run) (key : Block) (nonce : Nonce) (m : List Byte)
    (hpos : 0 < m.length) (hlen : 16 ∣ m.length) :
    let c := xorStream (senderStream key nonce) m
    let tag := pmacTag (aes128 key) (bufferOf c) (m.length / 16)
    PmacInteroperates r key nonce m ↔
      (∀ i < m.length / 16, aes128 (readBlock key) (nonceCtrBlock nonce (1 + i)) =
        aes128 key (nonceCtrBlock nonce (1 + i))) ∧
      ∀ j, lowByte (emb (circuitTag key c (m.length / 16) j ^^^
        unembed (raw (carriedKey key j)))) = tag j ^^^ carriedKey key j := by
  intro c tag
  have hblocks : 16 * (m.length / 16) = m.length := Nat.mul_div_cancel' hlen
  have hstreams := streams_iff_blocks key nonce (m.length / 16)
  rw [hblocks] at hstreams
  have htag := fun j => lowByte_outputCells_eq_iff key (circuitTag key c (m.length / 16)) j (tag j)
  refine (pmacInteroperates_iff_streams r key nonce m hpos hlen).trans ?_
  rw [hstreams, forall_congr' htag]
  exact And.comm

theorem pmacInteroperates_iff_example :
    let key := blockOf 0x04000000000000000000000000000001#128
    let m := (List.range 48).map (BitVec.ofNat 8)
    let c := xorStream (senderStream key zeroNonce) m
    let tag := pmacTag (aes128 key) (bufferOf c) 3
    PmacInteroperates ⟨fun i => i % 3 == 0, 0, []⟩ key zeroNonce m ↔
      (∀ i < 3, aes128 (readBlock key) (nonceCtrBlock zeroNonce (1 + i)) =
        aes128 key (nonceCtrBlock zeroNonce (1 + i))) ∧
      ∀ j, lowByte (emb (circuitTag key c 3 j ^^^ unembed (raw (carriedKey key j)))) =
        tag j ^^^ carriedKey key j :=
  pmacInteroperates_iff _ (blockOf 0x04000000000000000000000000000001#128) zeroNonce
    ((List.range 48).map (BitVec.ofNat 8)) (by decide) (by decide)

/- Most tags exclude a message that arrives. -/
theorem embShaped_of_pmacInteroperates (r : Run) (key : Block) (nonce : Nonce) (m : List Byte)
    (hpos : 0 < m.length) (hlen : 16 ∣ m.length) (h : PmacInteroperates r key nonce m)
    (j : Fin 16) : EmbShaped (pmacTag (aes128 key) (bufferOf (xorStream (senderStream key nonce) m))
      (m.length / 16) j ^^^ carriedKey key j) := by
  have htags := ((pmacInteroperates_iff_streams r key nonce m hpos hlen).mp h).1 j
  rw [lowByte_outputCells_eq_iff] at htags
  rw [← htags]
  exact embShaped_lowByte _

/-! ### A key byte that is misread -/

def misreadKey : Block := blockOf 0x04000000000000000000000000000000#128

def misreadKeySchedule (p : ℕ) : Byte :=
  byteAt (blockOf ([0x04000000000000000000000000000000#128, 0x66636363666363636663636366636363#128,
    0x9f989850f9fbfb339f989850f9fbfb33#128, 0x94975bc96d6ca0faf2f438aa0b0fc399#128,
    0xeab9b5e287d5151875212db27e2eee2b#128, 0xcb9144114c44510939657cbb474b9290#128,
    0x58de24b1149a75b82dff09036ab49b93#128, 0x95caf8b381508d0bacaf8408c61b1f9b#128,
    0xba0aec073b5a610c97f5e50451eefa9f#128, 0x892737d6b27d56da2588b3de74664941#128,
    0x8c1cb4443e61e29e1be951406f8f1801#128].getD (p / 16) 0)) (p % 16)

/-- The states of the sender's cipher on the first counter block, before and
after `SubBytes`. -/
def senderTrace (n : ℕ) : Block :=
  blockOf ([0x04000000000000000000000000000001#128, 0x238eb096050000000500000005000000#128,
    0x76bebefc79639eb56864e0af0464ea32#128, 0x305924dde87e8b84c60b1d396fde02c3#128,
    0x669963e56140136b48aa09e05c5ec11a#128, 0x15118113c7b9925ef1ee1a1066a0f404#128,
    0x4024795139ab79841bc9b8a71483f184#128, 0x12ecaa18a9ca73f82f5d5106991040b6#128,
    0x300d3a7ef6a7006615c1badf3f626e29#128, 0x34396823d2864706c1360e79019d944d#128].getD n 0)

def senderTraceSub (n : ℕ) : Block :=
  blockOf ([0xf263636363636363636363636363637c#128, 0x2619e7906b6363636b6363636b636363#128,
    0x38aeaeb0b6fb0bd54543e179f2438723#128, 0x04cb36c19bf33d5fb42ba412a81d772e#128,
    0x33eefbd9ef097d7f52ac01e14a5878a2#128, 0x59820c7dc6564f58a128a2ca33e0bff2#128,
    0x0936b6d11262b65fafdd6c5cfaeca15f#128, 0xc9ceacadd3748f41154cd16feeca094e#128,
    0x04d780f3425c63335978f49e75aa9fa5#128].getD n 0)

/-- The states of the circuit's cipher on the same block. -/
def circuitTrace (n : ℕ) : Block :=
  blockOf ([0x00000000000000000000000000000001#128, 0x1e1f213e010000000100000001000000#128,
    0xdaeaea997556ef51585dc3155ada244b#128, 0x6b78404b44dd5bfb897317e47887dbaa#128,
    0x14477088311726e71f03f140926c27a3#128, 0x30dd66d8e8fe567f23dde9d268549304#128,
    0xded8c5d3dc392fe5541e04f1bc15a269#128, 0x26b8f7a9e81a481e7815350a1b222619#128,
    0x442406b6d951389d404d63c495fb3485#128, 0x83f75dd088f38de22f83891959357f36#128].getD n 0)

def circuitTraceSub (n : ℕ) : Block :=
  blockOf ([0x6363636363636363636363636363637c#128, 0x72c0fdb27c6363637c6363637c636363#128,
    0x578787ee9db1dfd16a4c2e59be5736b3#128, 0x7fbc09b31bc1390fa78ff069bc17b9ac#128,
    0xfaa051c4c7f0f794c07ba1094f50cc0a#128, 0x04c133619bbbb1d226c11eb54520dcf2#128,
    0x1d61a666861215d92072f2a165593af9#128, 0xf76c68d39ba25272bc599667af93f7d4#128,
    0x1b366f4e35d1075e09e3fb1c2a0f1897#128].getD n 0)

theorem senderTrace_first : aes128 misreadKey (blockOf 1#128) 0 = 0x94 := by
  rw [aes128_of_states misreadKey _ misreadKeySchedule senderTrace senderTraceSub (by decide)
    (by decide +kernel) (by decide +kernel) (by decide +kernel) (by decide +kernel)]
  decide +kernel

theorem circuitTrace_first : aes128 zeroBlock (blockOf 1#128) 0 = 0x58 := by
  rw [aes128_of_states zeroBlock _ zeroKeySchedule circuitTrace circuitTraceSub (by decide)
    zeroKeySchedule_step (by decide +kernel) (by decide +kernel) (by decide +kernel)]
  decide +kernel

/-- The byte `04` is read as `00`, and the message does not arrive. -/
theorem key_byte_misread : ¬ PmacInteroperates ⟨fun _ => false, 0, []⟩ misreadKey zeroNonce
    (List.replicate 16 0) := by
  intro h
  have hbyte := ((pmacInteroperates_iff_streams _ misreadKey zeroNonce (List.replicate 16 0)
    (by decide) (by decide)).mp h).2 0 (by decide)
  have hread : readBlock misreadKey = zeroBlock := by decide
  have hcounter : nonceCtrBlock zeroNonce 1 = blockOf 1#128 := by decide
  have hne : (0x58 : Byte) ≠ 0x94 := by decide
  refine hne ?_
  rw [← circuitTrace_first, ← senderTrace_first, ← hread, ← hcounter]
  exact hbyte

end Pobc.Interop
