import Pobc.Mpc.AesInverse
import Pobc.Mpc.AesModes
import Mathlib.Data.BitVec
import Mathlib.Data.Finite.Prod

/-!
# Encryption and decryption in the circuit

`decrypt_without_key_schedule` undoes `encrypt_without_key_schedule` (`aes_gf_long.py`), and
`dec_pmac_aes128` takes what `enc_pmac_aes128` (`aes_modes.py`) gives, whatever the random
bits of the runs. The tag it accepts is fixed in the low eight bits of each cell only.
-/

namespace Pobc.Mpc
open Pobc.Loop Pobc.Aes Pobc.Mode

/-! ### One block -/

/-- `decrypt_without_key_schedule` (`aes_gf_long.py:574-579`). -/
def decryptWithoutKeySchedule (expandedKey : ℕ → Gf2n) (ciphertext : Fin 16 → Gf2n) :
    Circuit (Fin 16 → Gf2n) := do
  let state ← invAesMain expandedKey (secretArrayEmbedd ciphertext)
  stateCollapse state

theorem encryptWithoutKeySchedule_raw (w : ℕ → Byte) (s : Block) :
    Returns (encryptWithoutKeySchedule (embKey w) (rawBlock s)) (rawBlock (cipher w s)) := by
  rw [encryptWithoutKeySchedule, secretArrayEmbedd_raw]
  exact returns_bind _ _ _ _ (aesMain_computes w s).returns (stateCollapse_computes _).returns

theorem decryptWithoutKeySchedule_raw (w : ℕ → Byte) (s : Block) :
    Returns (decryptWithoutKeySchedule (embKey w) (rawBlock s)) (rawBlock (invCipher w s)) := by
  obtain ⟨xs, hinv⟩ := invAesMain_computes w s
  rw [decryptWithoutKeySchedule, secretArrayEmbedd_raw]
  exact returns_bind _ _ _ _ hinv.returns (stateCollapse_computes _).returns

/- An injective map of the blocks to themselves has every block as a value. -/
theorem cipher_invCipher (w : ℕ → Byte) (s : Block) : cipher w (invCipher w s) = s := by
  have : Finite Byte := Finite.of_equiv _ BitVec.equivFin.symm.toEquiv
  obtain ⟨t, rfl⟩ := Finite.surjective_of_injective (cipher_injective w) s
  rw [invCipher_cipher]

/-- Encryption and decryption with one expanded key, in both orders. -/
theorem withoutKeySchedule_roundTrip (key s : Block) :
    Returns (do
      let expandedKey ← expandAESKey (embBlock key)
      let ciphertext ← encryptWithoutKeySchedule expandedKey (rawBlock s)
      decryptWithoutKeySchedule expandedKey ciphertext) (rawBlock s) ∧
    Returns (do
      let expandedKey ← expandAESKey (embBlock key)
      let plaintext ← decryptWithoutKeySchedule expandedKey (rawBlock s)
      encryptWithoutKeySchedule expandedKey plaintext) (rawBlock s) := by
  let w := keyExpansion key
  have hkey := (expandAESKey_computes key).returns
  constructor
  · have hdec := decryptWithoutKeySchedule_raw w (cipher w s)
    rw [invCipher_cipher] at hdec
    refine returns_bind _ _ _ _ hkey ?_
    exact returns_bind _ _ _ _ (encryptWithoutKeySchedule_raw w s) hdec
  · have henc := encryptWithoutKeySchedule_raw w (invCipher w s)
    rw [cipher_invCipher] at henc
    refine returns_bind _ _ _ _ hkey ?_
    exact returns_bind _ _ _ _ (decryptWithoutKeySchedule_raw w s) henc

/-! ### AES-CTR with PMAC -/

/-- `enc_pmac_aes128` (`aes_modes.py:143-158`). The compiler knows the number of blocks and
stops in `pmac` without one, so the value for `none` is never used. -/
def encPmacAes128 (message : List Gf2n) (key : Fin 16 → Gf2n) (nonce : Fin 12 → Gf2n) :
    Option (Circuit (List Gf2n × (Fin 16 → Gf2n))) :=
  if message.length % 16 ≠ 0 ∨ message.length = 0 then none
  else some do
    let expandedKey ← expandAESKey key
    let ciphertext ← aesCtrDec expandedKey (ctrInit nonce 1) message
    let ciphertextRevealed ← ciphertext.mapM reveal
    let tag ← (pmac (ciphertextBlocks ciphertext) key).getD (pure fun _ => cgf2n 0)
    let tagRevealed ← mapState reveal tag
    return (ciphertextRevealed, tagRevealed)

theorem returns_mapState_reveal (x : Fin 16 → Gf2n) : Returns (mapState reveal x) x := by
  let s (n : ℕ) : Fin 16 → Gf2n := forRange n (fun i out => setByte out i (byteAt x i)) x
  have hloop := returns_forRangeM 16 (fun i out => do
    let b ← reveal (byteAt x i)
    return setByte out i b) s fun i _ => returns_bind _ _ _ _ (returns_reveal _) (returns_pure _)
  have hend : s 16 = x := by
    funext j
    fin_cases j <;> rfl
  rwa [hend] at hloop

/- The cells an encryption reveals. -/
theorem encPmacAes128_returns (key : Block) (nonce : Nonce) (m : List Byte) (hpos : 0 < m.length)
    (hlen : 16 ∣ m.length) : ∃ p,
    encPmacAes128 (m.map raw) (rawBlock key) (fun j => raw (nonce j)) = some p ∧
      Returns p ((xorStream (circuitStream key nonce) m).map raw, outputCells key
        (circuitTag key (xorStream (circuitStream key nonce) m) (m.length / 16))) := by
  let c := xorStream (circuitStream key nonce) m
  have hc : c.length = m.length := length_xorStream _ _
  have h16 := Nat.le_of_dvd hpos hlen
  obtain ⟨p, hp, htag⟩ := pmac_returns key c (by omega)
  have hstop : ¬ ((m.map raw).length % 16 ≠ 0 ∨ (m.map raw).length = 0) := by
    rw [List.length_map]
    omega
  have hctr := aesCtrDec_returns (keyExpansion (readBlock key)) (defectWords key)
    (unembed_defectWords key) nonce 1 (by omega) m
  have hrevealed := returns_mapM (c.map raw) reveal id fun x _ => returns_reveal x
  rw [List.map_id] at hrevealed
  rw [hc] at htag
  rw [encPmacAes128, if_neg hstop]
  refine ⟨_, rfl, ?_⟩
  refine returns_bind _ _ _ _ (expandAESKey_raw_returns key) ?_
  refine returns_bind _ _ (c.map raw) _ hctr ?_
  refine returns_bind _ _ (c.map raw) _ hrevealed ?_
  rw [hp]
  refine returns_bind _ _ _ _ htag ?_
  exact returns_bind _ _ _ _ (returns_mapState_reveal _) (returns_pure _)

/- Decryption with any cells for the tag. -/
theorem decPmacAes128_cells (key : Block) (nonce : Nonce) (tag : Fin 16 → Gf2n) (c : List Byte)
    (hpos : 0 < c.length) (hlen : 16 ∣ c.length) : ∃ p,
    decPmacAes128 (c.map raw) tag (rawBlock key) (fun j => raw (nonce j)) = some p ∧
      Returns p (tagCheck (List.ofFn tag)
        (List.ofFn (outputCells key (circuitTag key c (c.length / 16)))) (bitDecompose 8),
        (xorStream (circuitStream key nonce) c).map raw) := by
  obtain ⟨p, hp, htag⟩ := pmac_returns key c (Nat.le_of_dvd hpos hlen)
  have hmod : ¬ c.length % 16 ≠ 0 := fun h => h (Nat.mod_eq_zero_of_dvd hlen)
  let message := (xorStream (circuitStream key nonce) c).map raw
  have hctr := aesCtrDec_returns (keyExpansion (readBlock key)) (defectWords key)
    (unembed_defectWords key) nonce 1 (by omega) c
  have hrevealed := returns_mapM message reveal id fun x _ => returns_reveal x
  rw [List.map_id] at hrevealed
  have hbits : ∀ x, Returns (bitDecomposeEmbedding x (List.range 8)) (bitDecompose 8 x) := fun x =>
    (bitDecomposeEmbedding_computes x (List.range 8)
      (fun w hw => (List.mem_range.mp hw).trans (by omega)) List.nodup_range).returns
  have hcheck := tagCheckM_returns (List.ofFn tag)
    (List.ofFn (outputCells key (circuitTag key c (c.length / 16)))) _ _ hbits
  rw [decPmacAes128, List.length_map, if_neg hmod, hp]
  refine ⟨_, rfl, ?_⟩
  refine returns_bind _ _ _ _ (expandAESKey_raw_returns key) ?_
  refine returns_bind _ _ message _ hctr ?_
  refine returns_bind _ _ message _ hrevealed ?_
  refine returns_bind _ _ _ _ htag ?_
  refine returns_bind _ _ _ _ hcheck ?_
  exact returns_bind _ _ _ _ (returns_reveal _) (returns_pure _)

/-- The message comes back whatever the tag is; the check is one exactly for the tags with
the low bytes of the one that encryption revealed. -/
theorem decPmacAes128_encPmacAes128 (key : Block) (nonce : Nonce) (m : List Byte)
    (hpos : 0 < m.length) (hlen : 16 ∣ m.length) : ∃ e c tag,
    encPmacAes128 (m.map raw) (rawBlock key) (fun j => raw (nonce j)) = some e ∧
    Returns e (c, tag) ∧
    ∀ tag', ∃ d check, decPmacAes128 c tag' (rawBlock key) (fun j => raw (nonce j)) = some d ∧
      Returns d (check, m.map raw) ∧ (check = 1 ↔ ∀ j, lowByte (tag j) = lowByte (tag' j)) := by
  obtain ⟨e, he, henc⟩ := encPmacAes128_returns key nonce m hpos hlen
  let c := xorStream (circuitStream key nonce) m
  have hc : c.length = m.length := length_xorStream _ _
  refine ⟨e, _, _, he, henc, fun tag' => ?_⟩
  obtain ⟨d, hd, hdec⟩ := decPmacAes128_cells key nonce tag' c (by omega) (hc ▸ hlen)
  rw [xorStream_xorStream, hc] at hdec
  exact ⟨d, _, hd, hdec, tagCheck_low_bytes tag' _⟩

theorem decPmacAes128_encPmacAes128_zeros : ∃ e c tag,
    encPmacAes128 ((List.replicate 32 0).map raw) (rawBlock zeroBlock) (fun _ => raw 0) = some e ∧
    Returns e (c, tag) ∧
    ∀ tag', ∃ d check, decPmacAes128 c tag' (rawBlock zeroBlock) (fun _ => raw 0) = some d ∧
      Returns d (check, (List.replicate 32 0).map raw) ∧
      (check = 1 ↔ ∀ j, lowByte (tag j) = lowByte (tag' j)) :=
  decPmacAes128_encPmacAes128 zeroBlock (fun _ => 0) (List.replicate 32 0) (by decide) (by decide)

end Pobc.Mpc
