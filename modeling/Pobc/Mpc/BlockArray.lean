import Pobc.Mode
import Pobc.Mpc.AesCorrect
import Pobc.Mpc.Utils
import Mathlib.Data.List.GetD

/-!
# The blocks the POBC circuits assemble

Both circuits fill a `MultiArray` cell by cell and encrypt its rows. The
assignments are kept as a list in program order; a row is read off once every
assignment is known to carry the value its cell should have.
-/

namespace Pobc.Mpc
open Pobc.Loop Pobc.Aes Pobc.Mode

abbrev MultiArray := ℕ → ℕ → Gf2n

structure Write where
  row : ℕ
  col : ℕ
  value : Gf2n

def assign (a : MultiArray) (w : Write) : MultiArray :=
  fun i j => if i = w.row ∧ j = w.col then w.value else a i j

/-- `for j in range(n): a[row][col + j] = f(j)`. -/
def rowWrites (row col n : ℕ) (f : ℕ → Gf2n) : List Write :=
  (List.range n).map fun j => ⟨row, col + j, f j⟩

def valPart (ctr j : ℕ) : Gf2n :=
  let bits := (List.range 32).map fun k => ofBit (ctr.testBit k)
  let partBits := (bits.drop (8 * (3 - j))).take 8
  (partBits.zipIdx.map fun b => cgf2n (2^b.2) * b.1).sum

/-- `incr_ctr_be_vec` (`aes_pobc64.py:36-48`, `aes_pobc_siv.py:36-48`). -/
def incrCtrBeVec (baseCtr count : ℕ) : List (ℕ → Gf2n) :=
  (List.range count).map fun i => valPart (baseCtr + i)

/-- The rows under the tag, from row `base` on (`aes_pobc64.py:114-128`,
`aes_pobc_siv.py:123-143`). `len` is `len(c)`, which places the padding. -/
def tagWrites (base len : ℕ) (data : List Gf2n) : List Write :=
  let tBlocks := data.length / 12 + 1
  let pad := cgf2n 0x80 :: List.replicate (12 * tBlocks - data.length - 1) (cgf2n 0)
  let tCtrs := incrCtrBeVec (2^31) tBlocks
  (List.range (tBlocks - 1)).flatMap (fun i =>
    rowWrites (base + i) 0 4 (tCtrs.getD i 0) ++
      rowWrites (base + i) 4 12 fun j => data.getD (i * 12 + j) 0) ++
    (rowWrites (base + (tBlocks - 1)) 0 4 (tCtrs.getLastD 0) ++
      rowWrites (base + (tBlocks - 1)) 4 (data.length - 12 * (tBlocks - 1))
        (fun i => data.getD (12 * (tBlocks - 1) + i) 0) ++
      rowWrites (base + (tBlocks - 1)) (4 + len - 12 * (tBlocks - 1)) (12 * tBlocks - data.length)
        fun i => pad.getD i 0)

/-- `aes_encrypt_block` (`aes_pobc64.py:51-67`, `aes_pobc_siv.py:51-67`). -/
def aesEncryptBlock (state : Fin 16 → Gf2n) (roundKeys : ℕ → Fin 16 → Gf2n) :
    Circuit (Fin 16 → Gf2n) := do
  let state := secretArrayEmbedd state
  let state := addRoundKey (roundKeys 0) state
  let state ← forRangeM 9 (fun n state => aesRound (roundKeys (n + 1)) state) state
  let state ← subBytes state
  let state := shiftRows state
  return addRoundKey (roundKeys 10) state

/-- The loops that encrypt the rows of `a` (`aes_pobc64.py:134-143`,
`aes_pobc_siv.py:104-111` and `149-155`). -/
def encryptRows (a : MultiArray) (blocksNum : ℕ) (roundKeys : ℕ → Fin 16 → Gf2n) :
    Circuit (ℕ → Fin 16 → Gf2n) :=
  forRangeM blocksNum (fun i b => do
    let outputBlock ← aesEncryptBlock (fun j => a i j) roundKeys
    return Function.update b i outputBlock) fun _ _ => 0

/-- The loops that decrypt `c` with one row a block (`aes_pobc64.py:145-148`,
`aes_pobc_siv.py:113-116`). -/
def messageBlocks (c : List Gf2n) (stream : ℕ → Fin 16 → Gf2n) : Circuit (List Gf2n) :=
  forRangeM ((c.length + 15) / 16) (fun i message => do
    let mblock ← ((List.range 16).filter fun j => i * 16 + j < c.length).mapM fun j => do
      let s ← reveal (byteAt (stream i) j)
      return c.getD (i * 16 + j) 0 + s
    return message ++ mblock) []

/-! ### Counters -/

theorem raw_eq_sum (b : Byte) :
    ((List.range 8).map fun k => if b.getLsbD k then cgf2n (2^k) else 0).sum = raw b := by
  simp only [← mul_ofBit]
  exact sum_bits_raw b

theorem valPart_eq (ctr j : ℕ) (hj : j < 4) : valPart ctr j = raw (beByte ctr j) := by
  have hpart : (((List.range 32).map fun k => ofBit (ctr.testBit k)).drop (8 * (3 - j))).take 8 =
      (List.range 8).map fun k => ofBit ((beByte ctr j).getLsbD k) := by
    apply List.ext_getElem
    · simp
      omega
    · intro k h1 h2
      have hk : k < 8 := by simpa using h2
      simp [beByte, BitVec.getLsbD_ofNat, hk, Nat.testBit_div_two_pow, Nat.add_comm]
  rw [valPart, hpart, ← raw_eq_sum, zipIdx_eq_map_range _ 0, List.map_map, List.length_map,
    List.length_range]
  refine congrArg List.sum (List.map_congr_left fun k hk => ?_)
  have hlt := List.mem_range.mp hk
  simp [mul_ofBit, List.getD_eq_getElem?_getD, hlt]

theorem incrCtrBeVec_getD (baseCtr count i j : ℕ) (hi : i < count) (hj : j < 4) :
    (incrCtrBeVec baseCtr count).getD i 0 j = raw (beByte (baseCtr + i) j) := by
  rw [← valPart_eq _ j hj]
  simp [incrCtrBeVec, List.getD_eq_getElem?_getD, hi]

theorem incrCtrBeVec_getLastD (baseCtr count j : ℕ) (hj : j < 4) :
    (incrCtrBeVec baseCtr (count + 1)).getLastD 0 j = raw (beByte (baseCtr + count) j) := by
  rw [← valPart_eq _ j hj]
  simp [incrCtrBeVec, List.range_succ]

/-! ### Reading an array back -/

/- Later assignments to a cell repeat its value. -/
theorem foldl_assign (v : MultiArray) (i j : ℕ) (ws : List Write) (a : MultiArray)
    (hvalue : ∀ w ∈ ws, w.value = v w.row w.col)
    (hcell : a i j = v i j ∨ ∃ w ∈ ws, w.row = i ∧ w.col = j) : ws.foldl assign a i j = v i j := by
  induction ws generalizing a with
  | nil =>
    rcases hcell with h | ⟨w, hw, _⟩
    · exact h
    · exact absurd hw List.not_mem_nil
  | cons w ws ih =>
    refine ih (assign a w) (fun u hu => hvalue u (List.mem_cons_of_mem _ hu)) ?_
    by_cases hhere : i = w.row ∧ j = w.col
    · left
      rw [assign, if_pos hhere, hvalue w List.mem_cons_self, ← hhere.1, ← hhere.2]
    · rw [assign, if_neg hhere]
      refine hcell.imp_right fun hex => ?_
      obtain ⟨u, hu, hrow, hcol⟩ := hex
      rcases List.mem_cons.mp hu with rfl | hrest
      · exact absurd ⟨hrow.symm, hcol.symm⟩ hhere
      · exact ⟨u, hrest, hrow, hcol⟩

/-- Every assignment carries the value of its cell in `v`. -/
def Agrees (v : MultiArray) (ws : List Write) : Prop := ∀ w ∈ ws, w.value = v w.row w.col

theorem agrees_append (v : MultiArray) (ws us : List Write) (hws : Agrees v ws)
    (hus : Agrees v us) : Agrees v (ws ++ us) := by
  intro w hw
  rcases List.mem_append.mp hw with h | h
  · exact hws w h
  · exact hus w h

theorem agrees_flatMap (v : MultiArray) (n : ℕ) (f : ℕ → List Write)
    (h : ∀ i < n, Agrees v (f i)) : Agrees v ((List.range n).flatMap f) := by
  intro w hw
  obtain ⟨i, hi, hmem⟩ := List.mem_flatMap.mp hw
  exact h i (List.mem_range.mp hi) w hmem

theorem agrees_rowWrites (v : MultiArray) (row col n : ℕ) (f : ℕ → Gf2n)
    (h : ∀ j < n, f j = v row (col + j)) : Agrees v (rowWrites row col n f) := by
  intro w hw
  obtain ⟨j, hj, rfl⟩ := List.mem_map.mp hw
  exact h j (List.mem_range.mp hj)

theorem exists_rowWrites (row col n j : ℕ) (f : ℕ → Gf2n) (hlo : col ≤ j) (hhi : j < col + n) :
    ∃ w ∈ rowWrites row col n f, w.row = row ∧ w.col = j := by
  refine ⟨⟨row, col + (j - col), f (j - col)⟩, ?_, rfl, by simp only; omega⟩
  exact List.mem_map.mpr ⟨j - col, List.mem_range.mpr (by omega), rfl⟩

theorem exists_append (ws us : List Write) (P : Write → Prop)
    (h : (∃ w ∈ ws, P w) ∨ ∃ w ∈ us, P w) : ∃ w ∈ ws ++ us, P w := by
  rcases h with ⟨w, hw, hP⟩ | ⟨w, hw, hP⟩
  · exact ⟨w, List.mem_append_left _ hw, hP⟩
  · exact ⟨w, List.mem_append_right _ hw, hP⟩

/- Two runs of assignments fill a row. -/
theorem exists_row (row : ℕ) (f g : ℕ → Gf2n) (k j : ℕ) (hk : k ≤ 16) (hj : j < 16) :
    ∃ w ∈ rowWrites row 0 k f ++ rowWrites row k (16 - k) g, w.row = row ∧ w.col = j := by
  apply exists_append
  by_cases h : j < k
  · exact Or.inl (exists_rowWrites row 0 k j f (by omega) (by omega))
  · exact Or.inr (exists_rowWrites row k (16 - k) j g (by omega) (by omega))

/-! ### The rows under the tag -/

/-- Cell `j` of row `i`: counter, then chunk `i` of the padded data. -/
def tagCell (data : List Gf2n) (i j : ℕ) : Gf2n :=
  if j < 4 then raw (beByte (2^31 + i) j) else (data ++ [cgf2n 0x80]).getD (12 * i + (j - 4)) 0

theorem agrees_tagWrites (v : MultiArray) (base : ℕ) (data : List Gf2n)
    (hv : ∀ i < chunkCount data.length, ∀ j < 16, v (base + i) j = tagCell data i j) :
    Agrees v (tagWrites base data.length data) := by
  have hctr : ∀ i < chunkCount data.length, ∀ j < 4,
      raw (beByte (2^31 + i) j) = v (base + i) (0 + j) := by
    intro i hi j hj
    rw [Nat.zero_add, hv i hi j (by omega), tagCell, if_pos hj]
  have hdata : ∀ i < chunkCount data.length, ∀ j < 12, 12 * i + j < data.length →
      data.getD (12 * i + j) 0 = v (base + i) (4 + j) := by
    intro i hi j hj hlt
    have hcol : ¬ 4 + j < 4 := by omega
    have hoff : 4 + j - 4 = j := by omega
    rw [hv i hi (4 + j) (by omega), tagCell, if_neg hcol, hoff, List.getD_append _ _ _ _ hlt]
  simp only [chunkCount] at hctr hdata hv
  have hlast : data.length / 12 + 1 - 1 = data.length / 12 := rfl
  simp only [tagWrites, hlast]
  refine agrees_append v _ _ (agrees_flatMap v _ _ fun i hi => agrees_append v _ _ ?_ ?_)
    (agrees_append v _ _ (agrees_append v _ _ ?_ ?_) ?_)
  · refine agrees_rowWrites v _ _ _ _ fun j hj => ?_
    rw [incrCtrBeVec_getD _ _ i j (by omega) hj]
    exact hctr i (by omega) j hj
  · refine agrees_rowWrites v _ _ _ _ fun j hj => ?_
    rw [Nat.mul_comm]
    exact hdata i (by omega) j hj (by omega)
  · refine agrees_rowWrites v _ _ _ _ fun j hj => ?_
    rw [incrCtrBeVec_getLastD _ _ j hj]
    exact hctr (data.length / 12) (by omega) j hj
  · refine agrees_rowWrites v _ _ _ _ fun j hj => ?_
    exact hdata (data.length / 12) (by omega) j (by omega) (by omega)
  · refine agrees_rowWrites v _ _ _ _ fun j hj => ?_
    -- the padding starts right behind the data
    have hcol : ¬ 4 + data.length - 12 * (data.length / 12) + j < 4 := by omega
    have hpos : 12 * (data.length / 12) + (4 + data.length - 12 * (data.length / 12) + j - 4) =
        data.length + j := by omega
    rw [hv (data.length / 12) (by omega) _ (by omega), tagCell, if_neg hcol, hpos,
      List.getD_append_right _ _ _ _ (by omega), Nat.add_sub_cancel_left]
    cases j with
    | zero => rfl
    | succ j =>
      rw [List.getD_cons_succ, List.getD_cons_succ, List.getD_nil]
      have hzero : cgf2n 0 = 0 := rfl
      rw [hzero, List.getD_eq_getElem?_getD, List.getElem?_getD_replicate_default_eq]

theorem exists_tagWrites (base : ℕ) (data : List Gf2n) (i j : ℕ) (hi : i < chunkCount data.length)
    (hj : j < 16) : ∃ w ∈ tagWrites base data.length data, w.row = base + i ∧ w.col = j := by
  simp only [chunkCount] at hi
  have hlast : data.length / 12 + 1 - 1 = data.length / 12 := rfl
  simp only [tagWrites, hlast]
  apply exists_append
  by_cases hfull : i < data.length / 12
  · left
    obtain ⟨w, hw, hcell⟩ := exists_row (base + i)
      ((incrCtrBeVec (2^31) (data.length / 12 + 1)).getD i 0) (fun j => data.getD (i * 12 + j) 0)
      4 j (by omega) hj
    exact ⟨w, List.mem_flatMap.mpr ⟨i, List.mem_range.mpr hfull, hw⟩, hcell⟩
  · right
    have heq : i = data.length / 12 := by omega
    subst heq
    apply exists_append
    by_cases hpad : j < 4 + data.length - 12 * (data.length / 12)
    · left
      apply exists_append
      by_cases hctr : j < 4
      · exact Or.inl (exists_rowWrites _ 0 4 j _ (by omega) (by omega))
      · exact Or.inr (exists_rowWrites _ 4 _ j _ (by omega) (by omega))
    · exact Or.inr (exists_rowWrites _ _ _ j _ (by omega) (by omega))

theorem lowByte_tagCell (data : List Gf2n) (i : ℕ) :
    (fun j : Fin 16 => lowByte (tagCell data i j)) =
      ctrBlock (2^31 + i) (chunk (data.map lowByte) i) := by
  have hpad : data.map lowByte ++ [0x80] = (data ++ [cgf2n 0x80]).map lowByte := by
    rw [List.map_append]
    rfl
  have hzero : (0 : Byte) = lowByte 0 := rfl
  funext j
  rw [tagCell, ctrBlock, apply_ite lowByte, lowByte_raw, chunk, hpad, hzero, List.getD_map]

/-! ### Encrypted rows -/

theorem aesEncryptBlock_returns (key : Block) (row : Fin 16 → Gf2n) :
    Returns (aesEncryptBlock row (createRoundKey (embKey (keyExpansion key))))
      (embBlock (aes128 key fun j => lowByte (row j))) := by
  have h := (aesMain_computes (keyExpansion key) fun j => lowByte (row j)).returns
  rwa [← secretArrayEmbedd_eq] at h

theorem encryptRows_returns (key : Block) (a : MultiArray) (n : ℕ) (rows : ℕ → Block)
    (ha : ∀ i < n, (fun j : Fin 16 => lowByte (a i j)) = rows i) :
    Returns (encryptRows a n (createRoundKey (embKey (keyExpansion key))))
      (fun i => if i < n then embBlock (aes128 key (rows i)) else fun _ => 0) := by
  -- the rows below `m` have been encrypted
  let s (m i : ℕ) : Fin 16 → Gf2n := if i < m then embBlock (aes128 key (rows i)) else fun _ => 0
  have hstart : s 0 = fun _ _ => 0 := by
    funext i
    exact if_neg (Nat.not_lt_zero i)
  rw [encryptRows, ← hstart]
  refine returns_forRangeM n _ s fun i hi => ?_
  have hnext : Function.update (s i) i (embBlock (aes128 key (rows i))) = s (i + 1) := by
    funext k
    by_cases hk : k = i
    · subst hk
      rw [Function.update_self]
      exact (if_pos (Nat.lt_succ_self k)).symm
    · rw [Function.update_of_ne hk]
      have hiff : k < i ↔ k < i + 1 := by omega
      simp only [s, hiff]
  have hblock := aesEncryptBlock_returns key fun j => a i j
  rw [ha i hi] at hblock
  rw [← hnext]
  exact returns_bind _ _ _ _ hblock (returns_pure _)

/-! ### The message -/

/-- Raw ciphertext bytes plus embedded keystream bytes. -/
def mixedStream (ks : ℕ → Byte) (c : List Byte) : List Gf2n :=
  (List.range c.length).map fun p => raw (bufferOf c p) + emb (ks p)

theorem length_mixedStream (ks : ℕ → Byte) (c : List Byte) :
    (mixedStream ks c).length = c.length := by
  rw [mixedStream, List.length_map, List.length_range]

theorem filter_lt_range (n k : ℕ) :
    ((List.range n).filter fun j => j < k) = List.range (min n k) := by
  induction n with
  | zero => simp
  | succ n ih =>
    rw [List.range_succ, List.filter_append, ih]
    by_cases h : n < k
    · have h1 : min n k = n := by omega
      have h2 : min (n + 1) k = n + 1 := by omega
      rw [h1, h2, List.range_succ]
      simp [h]
    · have h1 : min n k = min (n + 1) k := by omega
      simp [h, h1]

/- The text up to round `i` and the piece of that round. -/
theorem text_append_piece (g : ℕ → Gf2n) (len i : ℕ) (hi : 16 * i ≤ len) :
    (List.range (min (16 * i) len)).map g ++
        (List.range (min 16 (len - 16 * i))).map (fun j => g (16 * i + j)) =
      (List.range (min (16 * (i + 1)) len)).map g := by
  have h1 : min (16 * i) len = 16 * i := by omega
  have h2 : min (16 * (i + 1)) len = 16 * i + min 16 (len - 16 * i) := by omega
  simp only [h1, h2, List.range_add, List.map_append, List.map_map, Function.comp_def]

theorem getD_map_raw (c : List Byte) (p : ℕ) : (c.map raw).getD p 0 = raw (bufferOf c p) := by
  have hzero : raw 0 = 0 := rfl
  rw [bufferOf, ← hzero, List.getD_map]

theorem map_raw_xorStream (ks : ℕ → Byte) (c : List Byte) : (xorStream ks c).map raw =
    (List.range c.length).map fun p => raw (bufferOf c p) + raw (ks p) := by
  rw [xorStream, bytesOf, List.map_map]
  exact List.map_congr_left fun p _ => raw_xor _ _

theorem messageBlocks_returns (ks : ℕ → Byte) (c : List Byte) (stream : ℕ → Fin 16 → Gf2n)
    (hs : ∀ i < (c.length + 15) / 16, ∀ j < 16, byteAt (stream i) j = emb (ks (16 * i + j))) :
    Returns (messageBlocks (c.map raw) stream) (mixedStream ks c) := by
  let g (p : ℕ) : Gf2n := raw (bufferOf c p) + emb (ks p)
  -- after `n` blocks the message has `min (16 n) len` bytes
  let s (n : ℕ) : List Gf2n := (List.range (min (16 * n) c.length)).map g
  have hlen : (c.map raw).length = c.length := List.length_map _
  have hend : s ((c.length + 15) / 16) = mixedStream ks c := by
    have h : min (16 * ((c.length + 15) / 16)) c.length = c.length := by omega
    simp only [s, h, mixedStream, g]
  rw [messageBlocks, hlen, ← hend]
  refine returns_forRangeM _ _ s fun i hi => ?_
  have hpart : ((List.range 16).filter fun j => i * 16 + j < c.length) =
      List.range (min 16 (c.length - 16 * i)) := by
    rw [← filter_lt_range]
    refine List.filter_congr fun j _ => ?_
    rw [decide_eq_decide]
    omega
  have hnext : s i ++ (List.range (min 16 (c.length - 16 * i))).map (fun j => g (16 * i + j)) =
      s (i + 1) := text_append_piece g c.length i (by omega)
  rw [hpart, ← hnext]
  refine returns_bind _ _ _ _ (returns_mapM _ _ _ fun j hj => ?_) (returns_pure _)
  have hlt := List.mem_range.mp hj
  rw [getD_map_raw, Nat.mul_comm i 16, hs i hi j (by omega)]
  exact returns_bind _ _ _ _ (returns_reveal _) (returns_pure _)

/- The circuit's sum is the byte sum where the keystream byte is zero or one. -/
theorem mixedStream_eq_iff (ks ks' : ℕ → Byte) (c : List Byte) :
    mixedStream ks c = (xorStream ks' c).map raw ↔
      ∀ p < c.length, ks p = ks' p ∧ ZeroOne (ks p) := by
  rw [mixedStream, map_raw_xorStream, List.map_inj_left]
  refine forall_congr' fun p => ?_
  rw [List.mem_range, add_right_inj, emb_eq_raw_iff]

theorem mixedStream_eq_self_iff (ks : ℕ → Byte) (c : List Byte) :
    mixedStream ks c = (xorStream ks c).map raw ↔ ∀ p < c.length, ZeroOne (ks p) := by
  rw [mixedStream_eq_iff]
  exact forall₂_congr fun p _ => and_iff_right rfl

/-! ### The tag -/

theorem tagLoop_returns (t n : ℕ) (b : ℕ → Fin 16 → Gf2n) (start : Block) (f : ℕ → Block)
    (hb : ∀ i < n, b (t + i) = embBlock (f i)) :
    Returns (forRangeM n (fun i tag => do
      let row ← revealArray (b (t + i))
      return fun j => row j + tag j) (embBlock start))
      (embBlock (xorBlocks start (xorSum n f))) := by
  let s (i : ℕ) : Fin 16 → Gf2n := embBlock (xorBlocks start (xorSum i f))
  have hstart : s 0 = embBlock start := by
    have hzero : xorBlocks start (xorSum 0 f) = start := funext fun j => BitVec.xor_zero
    simp only [s, hzero]
  rw [← hstart]
  refine returns_forRangeM n _ s fun i hi => ?_
  have hnext : (fun j => embBlock (f i) j + s i j) = s (i + 1) := by
    have hxor : xorBlocks start (xorSum (i + 1) f) =
        xorBlocks (f i) (xorBlocks start (xorSum i f)) :=
      xorBlocks_left_comm start (f i) (xorSum i f)
    simp only [s, hxor]
    exact (embBlock_xor (f i) (xorBlocks start (xorSum i f))).symm
  rw [← hnext, ← hb i hi]
  exact returns_bind _ _ _ _ (returns_revealArray _) (returns_pure _)

def lowEmb (t : Block) : Block := fun j => lowByte (emb (t j))

theorem lowEmb_eq_iff (t : Block) : lowEmb t = t ↔ ∀ j, ZeroOne (t j) := by
  rw [funext_iff]
  exact forall_congr' fun j => lowByte_emb_iff (t j)

theorem tagCheck_embBlock (t tag : Block) :
    tagCheck (List.ofFn (embBlock t)) (List.ofFn (rawBlock tag)) (bitDecompose 8) = 1 ↔
      tag = lowEmb t := by
  rw [tagCheck_low_bytes, funext_iff]
  refine forall_congr' fun j => ?_
  rw [rawBlock, lowByte_raw]
  rfl

theorem tagCheck_rawBlock_eq (t tag : Block) :
    tagCheck (List.ofFn (rawBlock t)) (List.ofFn (rawBlock tag)) (bitDecompose 8) =
      if t = tag then 1 else 0 := by
  have hiff : (∀ j, lowByte (rawBlock tag j) = lowByte (rawBlock t j)) ↔ t = tag := by
    rw [funext_iff]
    refine forall_congr' fun j => ?_
    rw [rawBlock, rawBlock, lowByte_raw, lowByte_raw]
    exact eq_comm
  rw [tagCheck_low_bytes_eq]
  exact if_congr hiff rfl rfl

end Pobc.Mpc
