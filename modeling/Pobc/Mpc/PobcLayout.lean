import Pobc.Mpc.AesPobc64

/-!
# The layout of the block array (`MPC/code/aes_pobc64.py`)

The loops that fill `a` write every cell once. The counters in the first four cells
tell all rows apart, and the rows under the tag hold the nonce and the chunks of the
ciphertext under counters that say where they belong.
-/

namespace Pobc.Mpc
open Pobc.Mode

/-! ### Counting assignments -/

/-- How often a program of assignments writes a cell. -/
def writeCount (ws : List Write) (i j : ℕ) : ℕ := ws.countP fun w => w.row = i ∧ w.col = j

theorem writeCount_append (ws us : List Write) (i j : ℕ) :
    writeCount (ws ++ us) i j = writeCount ws i j + writeCount us i j := List.countP_append

theorem writeCount_rowWrites (row col n : ℕ) (f : ℕ → Gf2n) (i j : ℕ) :
    writeCount (rowWrites row col n f) i j =
      if i = row ∧ col ≤ j ∧ j < col + n then 1 else 0 := by
  induction n with
  | zero =>
    have hout : ¬ (i = row ∧ col ≤ j ∧ j < col + 0) := by omega
    rw [if_neg hout]
    rfl
  | succ n ih =>
    have hlast : writeCount [⟨row, col + n, f n⟩] i j = if row = i ∧ col + n = j then 1 else 0 := by
      rw [writeCount, List.countP_singleton]
      simp only [decide_eq_true_eq]
    have hsplit : rowWrites row col (n + 1) f = rowWrites row col n f ++ [⟨row, col + n, f n⟩] := by
      rw [rowWrites, List.range_succ, List.map_append]
      rfl
    rw [hsplit, writeCount_append, ih, hlast]
    split_ifs <;> omega

/- Two runs of assignments that fill a row. -/
theorem writeCount_row (row : ℕ) (f g : ℕ → Gf2n) (i j : ℕ) :
    writeCount (rowWrites row 0 4 f ++ rowWrites row 4 12 g) i j =
      if i = row ∧ j < 16 then 1 else 0 := by
  rw [writeCount_append, writeCount_rowWrites, writeCount_rowWrites]
  split_ifs <;> omega

/- A loop over rows that fills one row in each round. -/
theorem writeCount_rows (base n : ℕ) (f : ℕ → List Write) (i j : ℕ)
    (hf : ∀ k, writeCount (f k) i j = if i = base + k ∧ j < 16 then 1 else 0) :
    writeCount ((List.range n).flatMap f) i j =
      if base ≤ i ∧ i < base + n ∧ j < 16 then 1 else 0 := by
  induction n with
  | zero =>
    have hout : ¬ (base ≤ i ∧ i < base + 0 ∧ j < 16) := by omega
    rw [if_neg hout]
    rfl
  | succ n ih =>
    rw [List.range_succ, List.flatMap_append, List.flatMap_singleton, writeCount_append, ih, hf]
    split_ifs <;> omega

/- The ragged last row: counter, rest of the data, padding. -/
theorem writeCount_tagWrites (base : ℕ) (data : List Gf2n) (i j : ℕ) :
    writeCount (tagWrites base data.length data) i j =
      if base ≤ i ∧ i < base + chunkCount data.length ∧ j < 16 then 1 else 0 := by
  have hlast : data.length / 12 + 1 - 1 = data.length / 12 := rfl
  have hcount : chunkCount data.length = data.length / 12 + 1 := rfl
  simp only [tagWrites, hlast]
  rw [writeCount_append, writeCount_append, writeCount_append, writeCount_rowWrites,
    writeCount_rowWrites, writeCount_rowWrites,
    writeCount_rows base (data.length / 12) _ i j fun k => writeCount_row (base + k) _ _ i j]
  split_ifs <;> omega

def blocksNum (len : ℕ) : ℕ := 1 + (len + 15) / 16 + chunkCount len

theorem writeCount_blockWrites (c : List Gf2n) (nonce : Fin 12 → Gf2n) (i j : ℕ) :
    writeCount (blockWrites c nonce) i j = if i < blocksNum c.length ∧ j < 16 then 1 else 0 := by
  have hnum : blocksNum c.length = 1 + (c.length + 15) / 16 + chunkCount c.length := rfl
  simp only [blockWrites]
  rw [writeCount_append, writeCount_append, writeCount_row, writeCount_tagWrites,
    writeCount_rows 1 ((c.length + 15) / 16) _ i j fun k => by
      rw [writeCount_row, Nat.add_comm k 1]]
  split_ifs <;> omega

/-! ### The rows -/

/-- Row `i` of `a` once it is filled. -/
def arrayRow (memory : MultiArray) (nonce : Nonce) (c : List Byte) (i : ℕ) : Fin 16 → Gf2n :=
  fun j => (blockWrites (c.map raw) fun j => raw (nonce j)).foldl assign memory i j

/-- Row 0 and the last `len(c) / 12 + 1` rows. -/
def tagRows (memory : MultiArray) (nonce : Nonce) (c : List Byte) : Set (Fin 16 → Gf2n) :=
  {row | ∃ i < blocksNum c.length, (i = 0 ∨ (c.length + 15) / 16 < i) ∧
    row = arrayRow memory nonce c i}

/-- Fewer than `2^31` blocks and at most `2^31` chunks. -/
structure CountersFit (len : ℕ) : Prop where
  blocks : (len + 15) / 16 < 2^31
  chunks : chunkCount len ≤ 2^31

/-- The counter in row `i`. -/
def rowCounter (len i : ℕ) : ℕ :=
  if i ≤ (len + 15) / 16 then i else 2^31 + (i - ((len + 15) / 16 + 1))

def rowTail (nonce : Nonce) (c : List Byte) (i : ℕ) : ℕ → Byte :=
  if i ≤ (c.length + 15) / 16 then tailOf nonce else chunk c (i - ((c.length + 15) / 16 + 1))

theorem blockRow_eq (nonce : Nonce) (c : List Byte) (i : ℕ) :
    blockRow nonce c i = ctrBlock (rowCounter c.length i) (rowTail nonce c i) := by
  simp only [blockRow, rowCounter, rowTail]
  split <;> rfl

theorem rowCounter_lt (len i : ℕ) (h : CountersFit len) (hi : i < blocksNum len) :
    rowCounter len i < 2^32 := by
  have hblocks := h.blocks
  have hchunks := h.chunks
  rw [blocksNum] at hi
  rw [rowCounter]
  split <;> omega

theorem rowCounter_inj (len i i' : ℕ) (h : CountersFit len)
    (heq : rowCounter len i = rowCounter len i') : i = i' := by
  have hblocks := h.blocks
  simp only [rowCounter] at heq
  split at heq <;> split at heq <;> omega

theorem blockRow_of_arrayRow (memory memory' : MultiArray) (nonce nonce' : Nonce)
    (c c' : List Byte) (i i' : ℕ) (hi : i < blocksNum c.length) (hi' : i' < blocksNum c'.length)
    (h : arrayRow memory nonce c i = arrayRow memory' nonce' c' i') :
    blockRow nonce c i = blockRow nonce' c' i' := by
  rw [← lowByte_blockArray memory nonce c i hi, ← lowByte_blockArray memory' nonce' c' i' hi']
  funext j
  exact congrArg lowByte (congrFun h j)

theorem arrayRow_inj (memory : MultiArray) (nonce : Nonce) (c : List Byte)
    (h : CountersFit c.length) (i i' : ℕ) (hi : i < blocksNum c.length)
    (hi' : i' < blocksNum c.length)
    (heq : arrayRow memory nonce c i = arrayRow memory nonce c i') : i = i' := by
  have hrow := blockRow_of_arrayRow memory memory nonce nonce c c i i' hi hi' heq
  rw [blockRow_eq, blockRow_eq, ctrBlock_eq_iff _ _ _ _ (rowCounter_lt _ i h hi)
    (rowCounter_lt _ i' h hi')] at hrow
  exact rowCounter_inj c.length i i' h hrow.1

/-! ### What the rows under the tag determine -/

/- A row of one set is a row of the other with the same counter and tail. -/
theorem row_of_tagRows (memory memory' : MultiArray) (nonce nonce' : Nonce) (c c' : List Byte)
    (h : CountersFit c.length) (h' : CountersFit c'.length)
    (heq : tagRows memory nonce c = tagRows memory' nonce' c') (i : ℕ) (hi : i < blocksNum c.length)
    (htag : i = 0 ∨ (c.length + 15) / 16 < i) :
    ∃ i' < blocksNum c'.length, (i' = 0 ∨ (c'.length + 15) / 16 < i') ∧
      rowCounter c.length i = rowCounter c'.length i' ∧
      ∀ j < 12, rowTail nonce c i j = rowTail nonce' c' i' j := by
  have hmem : arrayRow memory nonce c i ∈ tagRows memory' nonce' c' := by
    rw [← heq]
    exact ⟨i, hi, htag, rfl⟩
  obtain ⟨i', hi', htag', hrow⟩ := hmem
  have hblock := blockRow_of_arrayRow memory memory' nonce nonce' c c' i i' hi hi' hrow
  rw [blockRow_eq, blockRow_eq, ctrBlock_eq_iff _ _ _ _ (rowCounter_lt _ i h hi)
    (rowCounter_lt _ i' h' hi')] at hblock
  exact ⟨i', hi', htag', hblock⟩

theorem chunkCount_le_of_tagRows (memory memory' : MultiArray) (nonce nonce' : Nonce)
    (c c' : List Byte) (h : CountersFit c.length) (h' : CountersFit c'.length)
    (heq : tagRows memory nonce c = tagRows memory' nonce' c') :
    chunkCount c.length ≤ chunkCount c'.length := by
  have hpos : 0 < chunkCount c.length := Nat.succ_pos _
  -- the last row has the greatest counter
  obtain ⟨i', hi', htag', hcounter, _⟩ := row_of_tagRows memory memory' nonce nonce' c c' h h' heq
    ((c.length + 15) / 16 + chunkCount c.length) (by rw [blocksNum]; omega) (Or.inr (by omega))
  rw [blocksNum] at hi'
  simp only [rowCounter] at hcounter
  split at hcounter <;> split at hcounter <;> omega

theorem nonce_of_tagRows (memory memory' : MultiArray) (nonce nonce' : Nonce) (c c' : List Byte)
    (h : CountersFit c.length) (h' : CountersFit c'.length)
    (heq : tagRows memory nonce c = tagRows memory' nonce' c') : nonce = nonce' := by
  obtain ⟨i', hi', htag', hcounter, htail⟩ := row_of_tagRows memory memory' nonce nonce' c c' h h'
    heq 0 (by rw [blocksNum]; omega) (Or.inl rfl)
  have hzero : i' = 0 := by
    simp only [rowCounter] at hcounter
    split at hcounter <;> split at hcounter <;> omega
  funext j
  have hj := htail j.val j.isLt
  simp only [hzero, rowTail, Nat.zero_le, if_true, tailOf, Fin.ofNat_val_eq_self] at hj
  exact hj

theorem ciphertext_of_tagRows (memory memory' : MultiArray) (nonce nonce' : Nonce)
    (c c' : List Byte) (h : CountersFit c.length) (h' : CountersFit c'.length)
    (heq : tagRows memory nonce c = tagRows memory' nonce' c') : c = c' := by
  have hcount : chunkCount c.length = chunkCount c'.length :=
    Nat.le_antisymm (chunkCount_le_of_tagRows memory memory' nonce nonce' c c' h h' heq)
      (chunkCount_le_of_tagRows memory' memory nonce' nonce c' c h' h heq.symm)
  refine chunk_inj c c' hcount fun i hi j hj => ?_
  obtain ⟨i', hi', htag', hcounter, htail⟩ := row_of_tagRows memory memory' nonce nonce' c c' h h'
    heq ((c.length + 15) / 16 + 1 + i) (by rw [blocksNum]; omega) (Or.inr (by omega))
  have hblocks := h'.blocks
  have hrow : ¬ (c.length + 15) / 16 + 1 + i ≤ (c.length + 15) / 16 := by omega
  have hoff : (c.length + 15) / 16 + 1 + i - ((c.length + 15) / 16 + 1) = i := by omega
  have hrow' : ¬ i' ≤ (c'.length + 15) / 16 := by
    intro hle
    rw [rowCounter, rowCounter, if_neg hrow, if_pos hle] at hcounter
    omega
  have hoff' : i' - ((c'.length + 15) / 16 + 1) = i := by
    rw [rowCounter, rowCounter, if_neg hrow, if_neg hrow', hoff] at hcounter
    omega
  have hbyte := htail j hj
  rwa [rowTail, rowTail, if_neg hrow, if_neg hrow', hoff, hoff'] at hbyte

/-- Every cell is written once, no two rows are equal, and the rows under the tag determine
nonce and ciphertext, whatever the array held before. -/
theorem blockArray_layout (memory : MultiArray) (nonce : Nonce) (c : List Byte)
    (h : CountersFit c.length) :
    (∀ i j, writeCount (blockWrites (c.map raw) fun j => raw (nonce j)) i j =
      if i < blocksNum c.length ∧ j < 16 then 1 else 0) ∧
    (∀ i < blocksNum c.length, ∀ i' < blocksNum c.length,
      arrayRow memory nonce c i = arrayRow memory nonce c i' → i = i') ∧
    ∀ (memory' : MultiArray) (nonce' : Nonce) (c' : List Byte), CountersFit c'.length →
      tagRows memory nonce c = tagRows memory' nonce' c' → nonce = nonce' ∧ c = c' := by
  refine ⟨fun i j => ?_, fun i hi i' hi' => arrayRow_inj memory nonce c h i i' hi hi',
    fun memory' nonce' c' h' heq => ?_⟩
  · rw [writeCount_blockWrites, List.length_map]
  · exact ⟨nonce_of_tagRows memory memory' nonce nonce' c c' h h' heq,
      ciphertext_of_tagRows memory memory' nonce nonce' c c' h h' heq⟩

theorem blockArray_layout_example :
    let memory : MultiArray := fun i j => cgf2n (i + j)
    let nonce : Nonce := fun j => BitVec.ofNat 8 (j + 1)
    let c : List Byte := (List.range 29).map (BitVec.ofNat 8)
    (∀ i j, writeCount (blockWrites (c.map raw) fun j => raw (nonce j)) i j =
      if i < blocksNum c.length ∧ j < 16 then 1 else 0) ∧
    (∀ i < blocksNum c.length, ∀ i' < blocksNum c.length,
      arrayRow memory nonce c i = arrayRow memory nonce c i' → i = i') ∧
    ∀ (memory' : MultiArray) (nonce' : Nonce) (c' : List Byte), CountersFit c'.length →
      tagRows memory nonce c = tagRows memory' nonce' c' → nonce = nonce' ∧ c = c' :=
  blockArray_layout (fun i j => cgf2n (i + j)) (fun j => BitVec.ofNat 8 (j + 1))
    ((List.range 29).map (BitVec.ofNat 8)) ⟨by decide, by decide⟩

end Pobc.Mpc
