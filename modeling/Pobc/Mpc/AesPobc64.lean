import Pobc.Mpc.BlockArray

/-!
# AES-POBC decryption (`MPC/code/aes_pobc64.py`)

`aes_encrypt_block` returns the embedded state, and nothing in the decryption
circuit undoes the embedding: the message is a raw ciphertext byte plus an
embedded keystream byte, and the tag is compared with the low byte of an
embedded one. The circuit computes its mode exactly where that does not show.
-/

namespace Pobc.Mpc
open Pobc.Loop Pobc.Aes Pobc.Mode

/-- The assignments to `a` (`aes_pobc64.py:94-128`). -/
def blockWrites (c : List Gf2n) (nonce : Fin 12 → Gf2n) : List Write :=
  let mBlocks := (c.length + 15) / 16
  let iv0 := incrCtrBeVec 0 1
  let mCtrs := incrCtrBeVec 1 mBlocks
  (rowWrites 0 0 4 (iv0.getD 0 0) ++ rowWrites 0 4 12 (tailOf nonce)) ++
    (List.range mBlocks).flatMap (fun i =>
      rowWrites (i + 1) 0 4 (mCtrs.getD i 0) ++ rowWrites (i + 1) 4 12 (tailOf nonce)) ++
    tagWrites (mBlocks + 1) c.length c

/-- `aes_pobc64_128_decrypt` (`aes_pobc64.py:70-161`). `memory` is what the
block array holds before it is filled. -/
def aesPobc64128Decrypt (memory : MultiArray) (c : List Gf2n) (tagExpected k : Fin 16 → Gf2n)
    (nonce : Fin 12 → Gf2n) : Circuit (Gf2n × List Gf2n) := do
  let mBlocks := (c.length + 15) / 16
  let tBlocks := c.length / 12 + 1
  let blocksNum := 1 + mBlocks + tBlocks
  let expandedKey ← expandAESKey (secretArrayEmbedd k)
  let roundKeys := createRoundKey expandedKey
  let a := (blockWrites c nonce).foldl assign memory
  let b ← encryptRows a blocksNum roundKeys
  let message ← messageBlocks c fun i => b (i + 1)
  let tag ← forRangeM tBlocks (fun i tag => do
    let row ← revealArray (b (1 + mBlocks + i))
    return fun j => row j + tag j) (b 0)
  let check ← reveal (tagCheck (List.ofFn tag) (List.ofFn tagExpected) (bitDecompose 8))
  return (check, message)

/-! ### The block array -/

/-- The value of each cell: counter and nonce in the first rows, then the tag rows. -/
def blockCell (c : List Gf2n) (nonce : Fin 12 → Gf2n) : MultiArray := fun i j =>
  let mBlocks := (c.length + 15) / 16
  if i ≤ mBlocks then (if j < 4 then raw (beByte i j) else tailOf nonce (j - 4))
  else tagCell c (i - (mBlocks + 1)) j

theorem agrees_nonceRow (c : List Gf2n) (nonce : Fin 12 → Gf2n) (i : ℕ) (ctr : ℕ → Gf2n)
    (hi : i ≤ (c.length + 15) / 16) (hctr : ∀ j < 4, ctr j = raw (beByte i j)) :
    Agrees (blockCell c nonce) (rowWrites i 0 4 ctr ++ rowWrites i 4 12 (tailOf nonce)) := by
  refine agrees_append _ _ _ (agrees_rowWrites _ _ _ _ _ fun j hj => ?_)
    (agrees_rowWrites _ _ _ _ _ fun j hj => ?_)
  · rw [hctr j hj, Nat.zero_add]
    simp only [blockCell, if_pos hi, if_pos hj]
  · have hcol : ¬ 4 + j < 4 := by omega
    have hoff : 4 + j - 4 = j := by omega
    simp only [blockCell, if_pos hi, if_neg hcol, hoff]

theorem agrees_blockWrites (c : List Gf2n) (nonce : Fin 12 → Gf2n) :
    Agrees (blockCell c nonce) (blockWrites c nonce) := by
  refine agrees_append _ _ _ (agrees_append _ _ _ ?_ ?_) (agrees_tagWrites _ _ c fun i _ j _ => ?_)
  · exact agrees_nonceRow c nonce 0 _ (by omega) fun j hj => incrCtrBeVec_getD 0 1 0 j (by omega) hj
  · refine agrees_flatMap _ _ _ fun i hi => ?_
    refine agrees_nonceRow c nonce (i + 1) _ (by omega) fun j hj => ?_
    rw [incrCtrBeVec_getD 1 _ i j hi hj, Nat.add_comm]
  · have hrow : ¬ (c.length + 15) / 16 + 1 + i ≤ (c.length + 15) / 16 := by omega
    have hoff : (c.length + 15) / 16 + 1 + i - ((c.length + 15) / 16 + 1) = i := by omega
    simp only [blockCell, if_neg hrow, hoff]

theorem exists_blockWrites (c : List Gf2n) (nonce : Fin 12 → Gf2n) (i j : ℕ)
    (hi : i < 1 + (c.length + 15) / 16 + chunkCount c.length) (hj : j < 16) :
    ∃ w ∈ blockWrites c nonce, w.row = i ∧ w.col = j := by
  simp only [blockWrites]
  apply exists_append
  by_cases htag : (c.length + 15) / 16 < i
  · right
    obtain ⟨w, hw, hrow, hcol⟩ := exists_tagWrites ((c.length + 15) / 16 + 1) c
      (i - ((c.length + 15) / 16 + 1)) j (by omega) hj
    exact ⟨w, hw, by omega, hcol⟩
  · left
    apply exists_append
    cases i with
    | zero => exact Or.inl (exists_row 0 _ _ 4 j (by omega) hj)
    | succ i =>
      right
      obtain ⟨w, hw, hcell⟩ := exists_row (i + 1)
        ((incrCtrBeVec 1 ((c.length + 15) / 16)).getD i 0) (tailOf nonce) 4 j (by omega) hj
      exact ⟨w, List.mem_flatMap.mpr ⟨i, List.mem_range.mpr (by omega), hw⟩, hcell⟩

def blockRow (nonce : Nonce) (c : List Byte) (i : ℕ) : Block :=
  let mBlocks := (c.length + 15) / 16
  if i ≤ mBlocks then ctrBlock i (tailOf nonce)
  else ctrBlock (2^31 + (i - (mBlocks + 1))) (chunk c (i - (mBlocks + 1)))

/- Whatever the memory held, the rows are the blocks of the mode. -/
theorem lowByte_blockArray (memory : MultiArray) (nonce : Nonce) (c : List Byte) (i : ℕ)
    (hi : i < 1 + (c.length + 15) / 16 + chunkCount c.length) :
    (fun j : Fin 16 => lowByte
      ((blockWrites (c.map raw) fun j => raw (nonce j)).foldl assign memory i j)) =
      blockRow nonce c i := by
  have hlen : (c.map raw).length = c.length := List.length_map _
  have hcells : ∀ j : Fin 16,
      (blockWrites (c.map raw) fun j => raw (nonce j)).foldl assign memory i j =
        blockCell (c.map raw) (fun j => raw (nonce j)) i j := fun j =>
    foldl_assign _ i j _ memory (agrees_blockWrites _ _)
      (Or.inr (exists_blockWrites _ _ i j (by rwa [hlen]) j.isLt))
  have hback : (c.map raw).map lowByte = c := by
    rw [List.map_map]
    exact List.map_id'' lowByte_raw c
  simp only [hcells, blockCell, blockRow, hlen]
  by_cases hrow : i ≤ (c.length + 15) / 16
  · funext j
    simp only [if_pos hrow, apply_ite lowByte, lowByte_raw, tailOf, ctrBlock]
  · simp only [if_neg hrow]
    rw [lowByte_tagCell, hback]

/-! ### One run -/

theorem aesPobc64128Decrypt_returns (memory : MultiArray) (key : Block) (nonce : Nonce)
    (tag : Block) (c : List Byte) :
    Returns (aesPobc64128Decrypt memory (c.map raw) (rawBlock tag) (rawBlock key)
      fun j => raw (nonce j))
      (tagCheck (List.ofFn (embBlock (pobcTag (aes128 key) nonce c))) (List.ofFn (rawBlock tag))
        (bitDecompose 8), mixedStream (pobcStream (aes128 key) nonce) c) := by
  let m := (c.length + 15) / 16
  let b (i : ℕ) : Fin 16 → Gf2n :=
    if i < 1 + m + chunkCount c.length then embBlock (aes128 key (blockRow nonce c i))
    else fun _ => 0
  have hlen : (c.map raw).length = c.length := List.length_map _
  have hb : ∀ i < 1 + m + chunkCount c.length, b i = embBlock (aes128 key (blockRow nonce c i)) :=
    fun i hi => if_pos hi
  have hiv : b 0 = embBlock (aes128 key (ctrBlock 0 (tailOf nonce))) := by
    rw [hb 0 (by omega), blockRow]
    rfl
  have hstream : ∀ i < m, ∀ j < 16,
      byteAt (b (i + 1)) j = emb (pobcStream (aes128 key) nonce (16 * i + j)) := by
    intro i hi j hj
    have hrow : i + 1 ≤ (c.length + 15) / 16 := hi
    rw [hb (i + 1) (by omega), blockRow, pobcStream_block _ _ _ _ hj, Nat.add_comm 1 i]
    simp only [if_pos hrow]
    rfl
  have htag : ∀ i < chunkCount c.length, b (1 + m + i) =
      embBlock (aes128 key (ctrBlock (2^31 + i) (chunk c i))) := by
    intro i hi
    have hrow : ¬ 1 + m + i ≤ (c.length + 15) / 16 := by omega
    have hoff : 1 + m + i - ((c.length + 15) / 16 + 1) = i := by omega
    rw [hb (1 + m + i) (by omega), blockRow]
    simp only [if_neg hrow, hoff]
  simp only [aesPobc64128Decrypt, hlen, secretArrayEmbedd_raw]
  refine returns_bind _ _ (embKey (keyExpansion key)) _ (expandAESKey_computes key).returns ?_
  refine returns_bind _ _ b _ (encryptRows_returns key _ _ (blockRow nonce c)
    fun i hi => lowByte_blockArray memory nonce c i hi) ?_
  refine returns_bind _ _ _ _ (messageBlocks_returns _ c (fun i => b (i + 1)) hstream) ?_
  have hloop := tagLoop_returns (1 + m) (chunkCount c.length) b
    (aes128 key (ctrBlock 0 (tailOf nonce))) _ htag
  rw [← hiv] at hloop
  refine returns_bind _ _ _ _ hloop ?_
  exact returns_bind _ _ _ _ (returns_reveal _) (returns_pure _)

/-! ### Where the mode is computed -/

/-- On this input the circuit returns the message of the mode, and one exactly
when the tag is the mode's. -/
def DecryptsMode (memory : MultiArray) (r : Run) (key : Block) (nonce : Nonce) (tag : Block)
    (c : List Byte) : Prop :=
  let out := (aesPobc64128Decrypt memory (c.map raw) (rawBlock tag) (rawBlock key)
    (fun j => raw (nonce j)) r).1
  out.2 = (xorStream (pobcStream (aes128 key) nonce) c).map raw ∧
    (out.1 = 1 ↔ tag = pobcTag (aes128 key) nonce c)

/- The two halves: the message, and the tag against its embedded form. -/
theorem decryptsMode_iff_tags (memory : MultiArray) (r : Run) (key : Block) (nonce : Nonce)
    (tag : Block) (c : List Byte) : DecryptsMode memory r key nonce tag c ↔
      (∀ p < c.length, ZeroOne (pobcStream (aes128 key) nonce p)) ∧
      (tag = lowEmb (pobcTag (aes128 key) nonce c) ↔ tag = pobcTag (aes128 key) nonce c) := by
  simp only [DecryptsMode]
  rw [aesPobc64128Decrypt_returns memory key nonce tag c r, mixedStream_eq_self_iff,
    tagCheck_embBlock]

/-- The circuit computes its mode where the keystream bytes are zero or one, and
so are the bytes of the mode's tag or neither form of that tag is expected. -/
theorem decryptsMode_iff (memory : MultiArray) (r : Run) (key : Block) (nonce : Nonce) (tag : Block)
    (c : List Byte) : DecryptsMode memory r key nonce tag c ↔
      (∀ p < c.length, ZeroOne (pobcStream (aes128 key) nonce p)) ∧
      ((∀ j, ZeroOne (pobcTag (aes128 key) nonce c j)) ∨
        tag ≠ pobcTag (aes128 key) nonce c ∧ tag ≠ lowEmb (pobcTag (aes128 key) nonce c)) := by
  rw [decryptsMode_iff_tags, ← lowEmb_eq_iff]
  generalize pobcTag (aes128 key) nonce c = t
  refine and_congr_right fun _ => ?_
  constructor
  · intro h
    by_cases ht : tag = t
    · exact Or.inl ((h.mpr ht).symm.trans ht)
    · exact Or.inr ⟨ht, fun hlow => ht (h.mp hlow)⟩
  · rintro (h | ⟨h1, h2⟩)
    · rw [h]
    · exact iff_of_false h2 h1

/-- For every expected tag at once, the bytes of the keystream and of the mode's
tag decide. -/
theorem decryptsMode_every_tag_iff (memory : MultiArray) (r : Run) (key : Block) (nonce : Nonce)
    (c : List Byte) : (∀ tag, DecryptsMode memory r key nonce tag c) ↔
      (∀ p < c.length, ZeroOne (pobcStream (aes128 key) nonce p)) ∧
      ∀ j, ZeroOne (pobcTag (aes128 key) nonce c j) := by
  simp only [decryptsMode_iff_tags]
  rw [← lowEmb_eq_iff]
  constructor
  · intro h
    exact ⟨(h zeroBlock).1, ((h (pobcTag (aes128 key) nonce c)).2.mpr rfl).symm⟩
  · rintro ⟨hstream, htag⟩ tag
    exact ⟨hstream, by rw [htag]⟩

theorem pobcStream_zero : pobcStream (aes128 zeroBlock) zeroNonce 0 = 0xee := by
  have hblock : ctrBlock 1 (tailOf zeroNonce) = blockOf 0x00000001000000000000000000000000#128 := by
    decide
  rw [pobcStream, hblock, aes128_zero_one]
  decide

/-- One byte under the zero key and nonce is not decrypted. -/
theorem zero_byte_not_decrypted : ¬ DecryptsMode (fun _ _ => 0) ⟨fun _ => false, 0, []⟩ zeroBlock
    zeroNonce zeroBlock [0] := by
  intro h
  have hzeroOne := ((decryptsMode_iff_tags _ _ _ _ _ _).mp h).1 0 Nat.one_pos
  rw [pobcStream_zero] at hzeroOne
  exact absurd hzeroOne (by decide)

end Pobc.Mpc
