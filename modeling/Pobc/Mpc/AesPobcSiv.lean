import Pobc.Mpc.BlockArray

/-!
# AES-POBC-SIV decryption (`MPC/code/aes_pobc_siv.py`)

The keystream and the inner tag come from `aes_encrypt_block` and stay embedded;
only the last call, `AES(temp)`, is un-embedded. It reads the low byte of each
embedded inner value, so a defect in the inner tag goes through the cipher once
more and can be told from the mode's tag exactly because the cipher is injective.
-/

namespace Pobc.Mpc
open Pobc.Loop Pobc.Aes Pobc.Mode

/-- The assignments to `temp_c` (`aes_pobc_siv.py:97-102`). -/
def ctrWrites (mBlocks : ℕ) (nonce : Fin 12 → Gf2n) : List Write :=
  let mCtrs := incrCtrBeVec 0 mBlocks
  (List.range mBlocks).flatMap fun i =>
    rowWrites i 0 12 (tailOf nonce) ++ rowWrites i 12 4 (mCtrs.getD i 0)

/-- `aes_pobc_siv_128_decrypt` (`aes_pobc_siv.py:70-176`). `memoryC` and `memoryT`
are what `temp_c` and `temp_t` hold before they are filled. -/
def aesPobcSiv128Decrypt (memoryC memoryT : MultiArray) (c : List Gf2n)
    (tagExpected k : Fin 16 → Gf2n) (nonce : Fin 12 → Gf2n) : Circuit (Gf2n × List Gf2n) := do
  let expandedKey ← expandAESKey (secretArrayEmbedd k)
  let roundKeys := createRoundKey expandedKey
  let mBlocks := (c.length + 15) / 16
  let tempC := (ctrWrites mBlocks nonce).foldl assign memoryC
  let output ← encryptRows tempC mBlocks roundKeys
  let message ← messageBlocks c output
  let tBlocks := message.length / 12 + 1
  let tempT := (tagWrites 0 c.length message).foldl assign memoryT
  let output ← encryptRows tempT tBlocks roundKeys
  let first ← revealArray (output 0)
  let tempInner ← forRangeM (tBlocks - 1) (fun i tempInner => do
    let row ← revealArray (output (1 + i))
    return fun j => tempInner j + row j) first
  let tempInner := setByte tempInner 15 (land (byteAt tempInner 15) (cgf2n 0xFC))
  let tag ← encryptWithoutKeySchedule expandedKey tempInner
  let check ← reveal (tagCheck (List.ofFn tag) (List.ofFn tagExpected) (bitDecompose 8))
  return (check, message)

/-! ### The two block arrays -/

def ctrCell (nonce : Fin 12 → Gf2n) : MultiArray :=
  fun i j => if j < 12 then tailOf nonce j else raw (beByte i (j - 12))

theorem agrees_ctrWrites (mBlocks : ℕ) (nonce : Fin 12 → Gf2n) :
    Agrees (ctrCell nonce) (ctrWrites mBlocks nonce) := by
  refine agrees_flatMap _ _ _ fun i hi => agrees_append _ _ _
    (agrees_rowWrites _ _ _ _ _ fun j hj => ?_) (agrees_rowWrites _ _ _ _ _ fun j hj => ?_)
  · have hcol : 0 + j < 12 := by omega
    rw [ctrCell, if_pos hcol, Nat.zero_add]
  · have hcol : ¬ 12 + j < 12 := by omega
    rw [incrCtrBeVec_getD 0 _ i j hi hj, Nat.zero_add, ctrCell, if_neg hcol,
      Nat.add_sub_cancel_left]

theorem lowByte_ctrArray (memory : MultiArray) (mBlocks : ℕ) (nonce : Nonce) (i : ℕ)
    (hi : i < mBlocks) :
    (fun j : Fin 16 => lowByte
      ((ctrWrites mBlocks fun j => raw (nonce j)).foldl assign memory i j)) =
      nonceCtrBlock nonce i := by
  funext j
  obtain ⟨w, hw, hcell⟩ := exists_row i (tailOf fun j => raw (nonce j))
    ((incrCtrBeVec 0 mBlocks).getD i 0) 12 j (by omega) j.isLt
  have hmem : w ∈ ctrWrites mBlocks fun j => raw (nonce j) :=
    List.mem_flatMap.mpr ⟨i, List.mem_range.mpr hi, hw⟩
  rw [foldl_assign _ i j _ memory (agrees_ctrWrites mBlocks _) (Or.inr ⟨w, hmem, hcell⟩), ctrCell,
    apply_ite lowByte, lowByte_raw, tailOf, lowByte_raw, nonceCtrBlock, tailOf]

theorem lowByte_tagArray (memory : MultiArray) (data : List Gf2n) (i : ℕ)
    (hi : i < chunkCount data.length) :
    (fun j : Fin 16 => lowByte ((tagWrites 0 data.length data).foldl assign memory i j)) =
      ctrBlock (2^31 + i) (chunk (data.map lowByte) i) := by
  have hcells : ∀ j : Fin 16, (tagWrites 0 data.length data).foldl assign memory i j =
      tagCell data i j := by
    intro j
    have hagrees := agrees_tagWrites (tagCell data) 0 data fun i _ j _ => by rw [Nat.zero_add]
    obtain ⟨w, hw, hrow, hcol⟩ := exists_tagWrites 0 data i j hi j.isLt
    exact foldl_assign _ i j _ memory hagrees (Or.inr ⟨w, hw, by omega, hcol⟩)
  simp only [hcells]
  exact lowByte_tagCell data i

/-! ### One run -/

theorem encryptWithoutKeySchedule_returns (key : Block) (row : Fin 16 → Gf2n) :
    Returns (encryptWithoutKeySchedule (embKey (keyExpansion key)) row)
      (rawBlock (aes128 key fun j => lowByte (row j))) := by
  rw [encryptWithoutKeySchedule, secretArrayEmbedd_eq]
  exact returns_bind _ _ _ _ (aesMain_computes _ _).returns (stateCollapse_computes _).returns

theorem lowByte_masked (y : Block) : (fun j => lowByte (setByte (embBlock y) 15
    (land (byteAt (embBlock y) 15) (cgf2n 0xFC)) j)) = clearLow (lowEmb y) := by
  have hland : ∀ x : Gf2n, lowByte (land x (cgf2n 0xFC)) = lowByte x &&& 0xFC :=
    fun x => BitVec.setWidth_and
  funext j
  simp only [setByte, clearLow]
  by_cases hj : j.val = 15
  · rw [if_pos hj, if_pos hj, ← hj, byteAt_val, hland]
    rfl
  · rw [if_neg hj, if_neg hj]
    rfl

/-- The low bytes of the message the circuit hands to its tag pass. -/
def lowMessage (ks : ℕ → Byte) (c : List Byte) : List Byte :=
  xorStream (fun p => lowByte (emb (ks p))) c

theorem map_lowByte_mixedStream (ks : ℕ → Byte) (c : List Byte) :
    (mixedStream ks c).map lowByte = lowMessage ks c := by
  rw [mixedStream, List.map_map, lowMessage, xorStream, bytesOf]
  refine List.map_congr_left fun p _ => ?_
  rw [Function.comp_apply, lowByte_add, lowByte_raw]

/- The loop starts with the first row, so one round less is left. -/
theorem innerLoop_returns (E : Block → Block) (l : List Byte) (t : ℕ → Fin 16 → Gf2n)
    (ht : ∀ i < chunkCount l.length, t i = embBlock (E (ctrBlock (2^31 + i) (chunk l i)))) :
    Returns (forRangeM (chunkCount l.length - 1) (fun i tempInner => do
      let row ← revealArray (t (1 + i))
      return fun j => tempInner j + row j) (t 0)) (embBlock (chunkSum E l)) := by
  let f (i : ℕ) : Block := E (ctrBlock (2^31 + i) (chunk l i))
  have hloop := tagLoop_returns 1 (chunkCount l.length - 1) t (f 0) (fun i => f (1 + i))
    fun i hi => ht (1 + i) (by omega)
  have hsum : xorBlocks (f 0) (xorSum (chunkCount l.length - 1) fun i => f (1 + i)) =
      chunkSum E l := by
    rw [← xorSum_head, chunkSum]
    rfl
  have hbody : (fun i tempInner => do
      let row ← revealArray (t (1 + i))
      return fun j => tempInner j + row j : ℕ → (Fin 16 → Gf2n) → Circuit (Fin 16 → Gf2n)) =
      fun i tag => do
        let row ← revealArray (t (1 + i))
        return fun j => row j + tag j := by
    simp only [add_comm]
  rw [hsum, ← ht 0 (by rw [chunkCount]; omega)] at hloop
  rw [hbody]
  exact hloop

theorem aesPobcSiv128Decrypt_returns (memoryC memoryT : MultiArray) (key : Block) (nonce : Nonce)
    (tag : Block) (c : List Byte) :
    Returns (aesPobcSiv128Decrypt memoryC memoryT (c.map raw) (rawBlock tag) (rawBlock key)
      fun j => raw (nonce j))
      (tagCheck (List.ofFn (rawBlock (aes128 key (clearLow (lowEmb (chunkSum (aes128 key)
        (lowMessage (sivStream (aes128 key) nonce) c))))))) (List.ofFn (rawBlock tag))
        (bitDecompose 8),
      mixedStream (sivStream (aes128 key) nonce) c) := by
  let m := (c.length + 15) / 16
  let ks := sivStream (aes128 key) nonce
  let f (i : ℕ) : Block := aes128 key (ctrBlock (2^31 + i) (chunk (lowMessage ks c) i))
  let out (i : ℕ) : Fin 16 → Gf2n :=
    if i < m then embBlock (aes128 key (nonceCtrBlock nonce i)) else fun _ => 0
  let t (i : ℕ) : Fin 16 → Gf2n := if i < chunkCount c.length then embBlock (f i) else fun _ => 0
  have hlen : (c.map raw).length = c.length := List.length_map _
  have hmlen : (mixedStream ks c).length = c.length := length_mixedStream ks c
  have hcount : chunkCount (lowMessage ks c).length = chunkCount c.length := by
    rw [lowMessage, length_xorStream]
  have hstream : ∀ i < m, ∀ j < 16, byteAt (out i) j = emb (ks (16 * i + j)) := by
    intro i hi j hj
    simp only [out, if_pos hi, ks]
    rw [sivStream_block _ _ _ _ hj]
    rfl
  have ht : ∀ i < chunkCount c.length, t i = embBlock (f i) := fun i hi => if_pos hi
  have hrows : ∀ i < chunkCount c.length,
      (fun j : Fin 16 => lowByte
        ((tagWrites 0 c.length (mixedStream ks c)).foldl assign memoryT i j)) =
        ctrBlock (2^31 + i) (chunk (lowMessage ks c) i) := by
    intro i hi
    have h := lowByte_tagArray memoryT (mixedStream ks c) i (by rwa [hmlen])
    rwa [hmlen, map_lowByte_mixedStream] at h
  simp only [aesPobcSiv128Decrypt, hlen, secretArrayEmbedd_raw]
  refine returns_bind _ _ (embKey (keyExpansion key)) _ (expandAESKey_computes key).returns ?_
  refine returns_bind _ _ out _ (encryptRows_returns key _ _ (nonceCtrBlock nonce)
    fun i hi => lowByte_ctrArray memoryC m nonce i hi) ?_
  refine returns_bind _ _ _ _ (messageBlocks_returns ks c out hstream) ?_
  rw [hmlen]
  refine returns_bind _ _ t _ (encryptRows_returns key _ _ _ hrows) ?_
  refine returns_bind _ _ _ _ (returns_revealArray _) ?_
  have hloop := innerLoop_returns (aes128 key) (lowMessage ks c) t fun i hi => ht i (hcount ▸ hi)
  rw [hcount] at hloop
  refine returns_bind _ _ _ _ hloop ?_
  have htag := encryptWithoutKeySchedule_returns key (setByte (embBlock (chunkSum (aes128 key)
    (lowMessage ks c))) 15 (land (byteAt (embBlock (chunkSum (aes128 key) (lowMessage ks c))) 15)
      (cgf2n 0xFC)))
  rw [lowByte_masked] at htag
  refine returns_bind _ _ _ _ htag ?_
  exact returns_bind _ _ _ _ (returns_reveal _) (returns_pure _)

/-! ### Where the mode is computed -/

/-- On this input the circuit returns the message of the mode, and one exactly
when the tag is the mode's. -/
def SivDecryptsMode (memoryC memoryT : MultiArray) (r : Run) (key : Block) (nonce : Nonce)
    (tag : Block) (c : List Byte) : Prop :=
  let out := (aesPobcSiv128Decrypt memoryC memoryT (c.map raw) (rawBlock tag) (rawBlock key)
    (fun j => raw (nonce j)) r).1
  let m := xorStream (sivStream (aes128 key) nonce) c
  out.2 = m.map raw ∧ (out.1 = 1 ↔ tag = sivTag (aes128 key) m)

theorem tagCheck_rawBlock (t tag : Block) :
    tagCheck (List.ofFn (rawBlock t)) (List.ofFn (rawBlock tag)) (bitDecompose 8) = 1 ↔
      tag = t := by
  rw [tagCheck_low_bytes, funext_iff]
  refine forall_congr' fun j => ?_
  rw [rawBlock, rawBlock, lowByte_raw, lowByte_raw]

/- The two halves: the message, and the two tags that are compared. -/
theorem sivDecryptsMode_iff_tags (memoryC memoryT : MultiArray) (r : Run) (key : Block)
    (nonce : Nonce) (tag : Block) (c : List Byte) :
    let y := chunkSum (aes128 key) (xorStream (sivStream (aes128 key) nonce) c)
    SivDecryptsMode memoryC memoryT r key nonce tag c ↔
      (∀ p < c.length, ZeroOne (sivStream (aes128 key) nonce p)) ∧
      (tag = aes128 key (clearLow (lowEmb y)) ↔ tag = aes128 key (clearLow y)) := by
  intro y
  simp only [SivDecryptsMode]
  rw [aesPobcSiv128Decrypt_returns memoryC memoryT key nonce tag c r, mixedStream_eq_self_iff,
    tagCheck_rawBlock, sivTag]
  refine and_congr_right fun hzeroOne => ?_
  have hlow : lowMessage (sivStream (aes128 key) nonce) c =
      xorStream (sivStream (aes128 key) nonce) c :=
    (xorStream_eq_iff _ _ c).mpr fun p hp => (lowByte_emb_iff _).mpr (hzeroOne p hp)
  rw [hlow]

/-- The circuit computes its mode where the keystream bytes are zero or one, and
the inner tag survives the embedding up to its cleared bits or neither form of
the tag is expected. -/
theorem sivDecryptsMode_iff (memoryC memoryT : MultiArray) (r : Run) (key : Block) (nonce : Nonce)
    (tag : Block) (c : List Byte) :
    let y := chunkSum (aes128 key) (xorStream (sivStream (aes128 key) nonce) c)
    SivDecryptsMode memoryC memoryT r key nonce tag c ↔
      (∀ p < c.length, ZeroOne (sivStream (aes128 key) nonce p)) ∧
      (clearLow (lowEmb y) = clearLow y ∨
        tag ≠ aes128 key (clearLow y) ∧ tag ≠ aes128 key (clearLow (lowEmb y))) := by
  intro y
  refine (sivDecryptsMode_iff_tags memoryC memoryT r key nonce tag c).trans ?_
  refine and_congr_right fun _ => ?_
  constructor
  · intro h
    by_cases htag : tag = aes128 key (clearLow y)
    · have hcipher : aes128 key (clearLow (lowEmb y)) = aes128 key (clearLow y) :=
        (h.mpr htag).symm.trans htag
      exact Or.inl (cipher_injective _ hcipher)
    · exact Or.inr ⟨htag, fun hlow => htag (h.mp hlow)⟩
  · rintro (h | ⟨h1, h2⟩)
    · rw [h]
    · exact iff_of_false h2 h1

/-- For every expected tag at once, the keystream and the inner tag decide. -/
theorem sivDecryptsMode_every_tag_iff (memoryC memoryT : MultiArray) (r : Run) (key : Block)
    (nonce : Nonce) (c : List Byte) :
    let y := chunkSum (aes128 key) (xorStream (sivStream (aes128 key) nonce) c)
    (∀ tag, SivDecryptsMode memoryC memoryT r key nonce tag c) ↔
      (∀ p < c.length, ZeroOne (sivStream (aes128 key) nonce p)) ∧
      clearLow (lowEmb y) = clearLow y := by
  intro y
  simp only [sivDecryptsMode_iff_tags]
  constructor
  · intro h
    have hcipher := (h (aes128 key (clearLow y))).2.mpr rfl
    exact ⟨(h zeroBlock).1, (cipher_injective _ hcipher).symm⟩
  · rintro ⟨hstream, hinner⟩ tag
    have hsame : aes128 key (clearLow (lowEmb y)) = aes128 key (clearLow y) := by rw [hinner]
    exact ⟨hstream, by rw [hsame]⟩

/-- One byte under the zero key is not decrypted. -/
theorem siv_zero_byte_not_decrypted : ¬ SivDecryptsMode (fun _ _ => 0) (fun _ _ => 0)
    ⟨fun _ => false, 0, []⟩ zeroBlock (fun j => if j = 3 then 1 else 0) zeroBlock [0] := by
  intro h
  have hzeroOne := ((sivDecryptsMode_iff_tags _ _ _ _ _ _ _).mp h).1 0 Nat.one_pos
  have hblock : nonceCtrBlock (fun j => if j = 3 then 1 else 0) 0 =
      blockOf 0x00000001000000000000000000000000#128 := by decide
  rw [sivStream, hblock, aes128_zero_one] at hzeroOne
  exact absurd hzeroOne (by decide)

end Pobc.Mpc
