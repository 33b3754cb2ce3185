import Pobc.Mpc.CounterMode

/-!
# AES-CTR with PMAC in the circuit (`MPC/code/aes_modes.py`)

Keys and blocks enter the cipher as they come, without `SecretArrayEmbedd`, and
the output is compared without `state_collapse`. The circuit therefore runs
AES-128 under another key (`readBlock`), and its blocks carry a part of that key
that no S-box ever sees (`outputCells`).
-/

namespace Pobc.Mpc
open Pobc.Loop Pobc.Aes Pobc.Mode

/-- `double` (`aes_modes.py:96-107`). -/
def double (block : Fin 16 → Gf2n) : Fin 16 → Gf2n :=
  let (res, carry) := forRange 16 (fun n (s : (Fin 16 → Gf2n) × Gf2n) =>
    let i := 15 - n
    let b := byteAt block i
    let msb := (bitDecompose 8 b).getD 7 0
    (setByte s.1 i ((b + b) + s.2), msb)) (fun _ => 0, cgf2n 0)
  setByte res 15 (byteAt res 15 + cgf2n 0x87 * carry)

/-- `masks` (`aes_modes.py:110-112`). -/
def pmacMasks (L : Fin 16 → Gf2n) (nBlocks : ℕ) : List (Fin 16 → Gf2n) :=
  forRange (nBlocks - 1) (fun _ masks => masks ++ [double (masks.getLastD 0)]) [L]

/-- `pmac` (`aes_modes.py:76-140`). Without a block the compiler stops at
`message_blocks[-1]`. A block has sixteen cells, so `is_full` holds. -/
def pmac (messageBlocks : List (Fin 16 → Gf2n)) (key : Fin 16 → Gf2n) :
    Option (Circuit (Fin 16 → Gf2n)) :=
  messageBlocks.getLast?.map fun lastBlock => do
    let nBlocks := messageBlocks.length
    let expandedKey ← expandAESKey key
    let L ← aesMain expandedKey fun _ => cgf2n 0
    let masks := pmacMasks L nBlocks
    let acc ← forRangeM (nBlocks - 1) (fun i acc => do
      let cipherOut ← aesMain expandedKey fun j => messageBlocks.getD i 0 j + masks.getD i 0 j
      return fun j => acc j + cipherOut j) fun _ => cgf2n 0
    let lastMask := double (masks.getD (nBlocks - 1) 0)
    let cipherOut ← aesMain expandedKey fun j => lastBlock j + lastMask j
    aesMain expandedKey fun j => acc j + cipherOut j

/-- `[ciphertext[i:i+16] for i in range(0, len(ciphertext), 16)]`, of a multiple of
sixteen cells. -/
def ciphertextBlocks (ciphertext : List Gf2n) : List (Fin 16 → Gf2n) :=
  (List.range (ciphertext.length / 16)).map fun i j => ciphertext.getD (i * 16 + j) 0

/-- `dec_pmac_aes128` (`aes_modes.py:160-177`). The length is asserted by the
compiler. -/
def decPmacAes128 (ciphertext : List Gf2n) (tag key : Fin 16 → Gf2n) (nonce : Fin 12 → Gf2n) :
    Option (Circuit (Gf2n × List Gf2n)) :=
  if ciphertext.length % 16 ≠ 0 then none
  else (pmac (ciphertextBlocks ciphertext) key).map fun computeTag => do
    let expandedKey ← expandAESKey key
    let message ← aesCtrDec expandedKey (ctrInit nonce 1) ciphertext
    let messageRevealed ← message.mapM reveal
    let computedTag ← computeTag
    let check ← tagCheckM (List.ofFn tag) (List.ofFn computedTag) fun x =>
      bitDecomposeEmbedding x (List.range 8)
    let check ← reveal check
    return (check, messageRevealed)

/-! ### The key that is read -/

/-- The bytes that raw bytes are taken for. -/
def readBlock (b : Block) : Block := unembedBlock (rawBlock b)

/-- What a raw byte has besides the embedded byte it is taken for. -/
def keyDefect (b : Byte) : Gf2n := raw b + emb (unembed (raw b))

theorem emb_add_keyDefect (b : Byte) : emb (unembed (raw b)) + keyDefect b = raw b := by
  rw [keyDefect, add_comm, add_assoc, Gf.add_self, add_zero]

theorem unembed_keyDefect (b : Byte) : unembed (keyDefect b) = 0 := by
  rw [keyDefect, unembed_add, unembed_emb]
  exact BitVec.xor_self

theorem keyDefect_xor (a b : Byte) : keyDefect (a ^^^ b) = keyDefect a + keyDefect b := by
  simp only [keyDefect, raw_xor, unembed_add, emb_xor]
  abel

/-- The part of the key schedule that no S-box sees. -/
def defectWords (key : Block) : ℕ → Gf2n :=
  forRange 40 defectStep (keyBytes (fun j => keyDefect (key j)) 0)

theorem expandAESKey_raw_returns (key : Block) : Returns (expandAESKey (rawBlock key))
    (offEmb (keyExpansion (readBlock key)) (defectWords key)) := by
  have hcells : (fun j => emb (readBlock key j) + keyDefect (key j)) = rawBlock key :=
    funext fun j => emb_add_keyDefect (key j)
  have h := expandAESKey_returns (readBlock key) (fun j => keyDefect (key j)) fun j =>
    unembed_keyDefect (key j)
  rwa [hcells] at h

theorem unembed_defectWords (key : Block) (p : ℕ) : unembed (defectWords key p) = 0 := by
  refine unembed_iterate_defectStep 40 _ (fun p => ?_) p
  rw [keyBytes]
  split
  · exact unembed_keyDefect _
  · exact unembed_zero

/-! ### The last round key -/

/-- One column of `defectWords`. -/
def DefectColumn (x : ℕ → Gf2n) : Prop :=
  ∀ n < 40, x (n + 4) = x n + if (n + 4) % 4 = 0 then 0 else x (n + 3)

/- Two rounds add the first two words to the last two. -/
theorem defect_two_rounds (x : ℕ → Gf2n) (hx : DefectColumn x) (r k : ℕ) (hr : r ≤ 8)
    (hk : k < 4) : x (4 * r + 8 + k) =
      x (4 * r + k) + if k < 2 then 0 else x (4 * r + (k - 2)) := by
  have hfirst : ∀ n, n < 10 → x (4 * n + 4) = x (4 * n) := by
    intro n hn
    have hmod : (4 * n + 4) % 4 = 0 := by omega
    rw [hx (4 * n) (by omega), if_pos hmod, add_zero]
  have hnext : ∀ n c, n < 10 → 1 ≤ c → c < 4 →
      x (4 * n + c + 4) = x (4 * n + c) + x (4 * n + c + 3) := by
    intro n c hn h1 h4
    have hmod : ¬ (4 * n + c + 4) % 4 = 0 := by omega
    rw [hx (4 * n + c) (by omega), if_neg hmod]
  have h4 := hfirst r (by omega)
  have h5 := hnext r 1 (by omega) (by omega) (by omega)
  have h6 := hnext r 2 (by omega) (by omega) (by omega)
  have h7 := hnext r 3 (by omega) (by omega) (by omega)
  have h8 := hfirst (r + 1) (by omega)
  have h9 := hnext (r + 1) 1 (by omega) (by omega) (by omega)
  have h10 := hnext (r + 1) 2 (by omega) (by omega) (by omega)
  have h11 := hnext (r + 1) 3 (by omega) (by omega) (by omega)
  simp only [Nat.mul_add, Nat.mul_one, Nat.add_assoc, Nat.reduceAdd] at h4 h5 h6 h7 h8 h9 h10 h11
  have hcases : k = 0 ∨ k = 1 ∨ k = 2 ∨ k = 3 := by omega
  rcases hcases with rfl | rfl | rfl | rfl
  · show x (4 * r + 8) = x (4 * r) + _
    rw [if_pos Nat.two_pos, add_zero, h8, h4]
  · have hlt : 1 < 2 := Nat.one_lt_two
    rw [if_pos hlt, h9, h8, h5, h4]
    linear_combination Gf.add_self (x (4 * r))
  · rw [if_neg (Nat.lt_irrefl 2), h10, h9, h8, h6, h5, h4]
    linear_combination Gf.add_self (x (4 * r + 1)) + Gf.add_self (x (4 * r))
  · have hge : ¬ 3 < 2 := by omega
    rw [if_neg hge, h11, h10, h9, h8, h7, h6, h5, h4]
    linear_combination Gf.add_self (x (4 * r + 2)) + Gf.add_self (x (4 * r + 1)) +
      2 * Gf.add_self (x (4 * r))

theorem defect_four_rounds (x : ℕ → Gf2n) (hx : DefectColumn x) (r k : ℕ) (hr : r ≤ 6)
    (hk : k < 4) : x (4 * (r + 4) + k) = x (4 * r + k) := by
  have hpos : 4 * (r + 4) = 4 * (r + 2) + 8 := by omega
  have hpos' : 4 * (r + 2) = 4 * r + 8 := by omega
  rw [hpos, defect_two_rounds x hx (r + 2) k (by omega) hk, hpos',
    defect_two_rounds x hx r k (by omega) hk]
  by_cases h2 : k < 2
  · rw [if_pos h2, if_pos h2, add_zero, add_zero]
  · rw [if_neg h2, defect_two_rounds x hx r (k - 2) (by omega) (by omega)]
    have hlow : k - 2 < 2 := by omega
    rw [if_neg h2, if_pos hlow, add_zero, add_assoc, Gf.add_self, add_zero]

/-- The key bytes in the last round key that no S-box has seen. -/
def carriedKey (key : Block) : Block := fun j =>
  if j.val < 8 then key j else key j ^^^ byteAt key (j.val - 8)

theorem defectWords_last (key : Block) (j : Fin 16) :
    defectWords key (160 + j) = keyDefect (carriedKey key j) := by
  let d : Fin 16 → Gf2n := fun j => keyDefect (key j)
  let c : Fin 4 := ⟨j.val % 4, Nat.mod_lt _ (by omega)⟩
  let x (n : ℕ) : Gf2n := word (defectWords key) n c
  have hx : DefectColumn x := by
    intro n hn
    have h := word_forRange_recurrence
      (fun n d j => word d n j + if (n + 4) % 4 = 0 then 0 else word d (n + 3) j)
      (fun n w w' h => by rw [h n (by omega), h (n + 3) (by omega)]) (keyBytes d 0) 40 n hn
    exact congrFun h c
  have hkey : ∀ k < 4, x k = keyDefect (byteAt key (4 * k + j % 4)) := by
    intro k hk
    have h := word_forRange_setWord
      (fun n d j => word d n j + if (n + 4) % 4 = 0 then 0 else word d (n + 3) j)
      (keyBytes d 0) 0 40 k (by omega)
    have hpos : 4 * k + j.val % 4 < 16 := by omega
    exact (congrFun h c).trans (if_pos hpos)
  have h32 : ∀ k < 4, x (4 * 8 + k) = x k := by
    intro k hk
    have h := defect_four_rounds x hx 0 k (by omega) hk
    rw [Nat.mul_zero, Nat.zero_add, Nat.zero_add] at h
    exact (defect_four_rounds x hx 4 k (by omega) hk).trans h
  have hj := j.isLt
  have hpos : defectWords key (160 + j) = x (4 * 8 + 8 + j / 4) := by
    have heq : 160 + j.val = 4 * (4 * 8 + 8 + j.val / 4) + j.val % 4 := by omega
    exact congrArg (defectWords key) heq
  have hsame : 4 * (j.val / 4) + j.val % 4 = j.val := by omega
  rw [hpos, defect_two_rounds x hx 8 (j / 4) (by omega) (by omega), h32 _ (by omega),
    hkey _ (by omega), hsame, byteAt_val, carriedKey]
  by_cases hlow : j.val < 8
  · have hword : j.val / 4 < 2 := by omega
    rw [if_pos hlow, if_pos hword, add_zero]
  · have hword : ¬ j.val / 4 < 2 := by omega
    have hback : 4 * (j.val / 4 - 2) + j.val % 4 = j.val - 8 := by omega
    rw [if_neg hlow, if_neg hword, h32 _ (by omega), hkey _ (by omega), hback, keyDefect_xor]

/-! ### Blocks behind the cipher -/

/-- The cells in which the circuit has the block `x`. -/
def outputCells (key x : Block) : Fin 16 → Gf2n := fun j =>
  emb (x j ^^^ unembed (raw (carriedKey key j))) + raw (carriedKey key j)

theorem unembedBlock_outputCells (key x : Block) : unembedBlock (outputCells key x) = x := by
  funext j
  rw [unembedBlock, outputCells, unembed_add, unembed_emb, BitVec.xor_assoc, BitVec.xor_self,
    BitVec.xor_zero]

/- The cipher under the key that is read. -/
theorem aesMain_raw_returns (key : Block) (s : Fin 16 → Gf2n) :
    Returns (aesMain (offEmb (keyExpansion (readBlock key)) (defectWords key)) s)
      (outputCells key (aes128 (readBlock key) (unembedBlock s))) := by
  have hcells : (fun j : Fin 16 => emb (cipher (keyExpansion (readBlock key)) (unembedBlock s) j) +
      defectWords key (160 + j)) = outputCells key (aes128 (readBlock key) (unembedBlock s)) := by
    funext j
    rw [defectWords_last, keyDefect, outputCells, emb_xor, aes128, add_comm (raw _), add_assoc]
  rw [← hcells]
  exact aesMain_returns _ _ (unembed_defectWords key) s

/-! ### The tag -/

/-- The mask of block `i` out of `n`, as in `pmac`: the last one is doubled once more. -/
def circuitMask (key : Block) (n i : ℕ) : Fin 16 → Gf2n :=
  double^[if i = n - 1 then i + 1 else i] (outputCells key (aes128 (readBlock key) zeroBlock))

theorem circuitMask_of_ne (key : Block) (n i : ℕ) (hi : i ≠ n - 1) : circuitMask key n i =
    double^[i] (outputCells key (aes128 (readBlock key) zeroBlock)) := by
  rw [circuitMask, if_neg hi]

theorem circuitMask_last (key : Block) (n : ℕ) : circuitMask key (n + 1) n =
    double (double^[n] (outputCells key (aes128 (readBlock key) zeroBlock))) := by
  rw [circuitMask, Nat.add_sub_cancel, if_pos rfl, Function.iterate_succ_apply']

/-- What the cipher reads of block `i` and its mask. -/
def circuitInput (key : Block) (c : List Byte) (n i : ℕ) : Block :=
  unembedBlock fun j => raw (bufferOf c (i * 16 + j)) + circuitMask key n i j

def circuitTag (key : Block) (c : List Byte) (n : ℕ) : Block :=
  aes128 (readBlock key) (xorSum n fun i => aes128 (readBlock key) (circuitInput key c n i))

theorem pmacMasks_getD (L : Fin 16 → Gf2n) (n i : ℕ) (hi : i ≤ n - 1) :
    (pmacMasks L n).getD i 0 = double^[i] L := by
  have hall : pmacMasks L n = (List.range (n - 1 + 1)).map fun i => double^[i] L := by
    rw [pmacMasks]
    induction n - 1 with
    | zero => rfl
    | succ k ih =>
      have hlast : ((List.range (k + 1)).map fun i => double^[i] L).getLastD 0 = double^[k] L := by
        rw [List.range_succ, List.map_append, List.map_singleton, List.getLastD_concat]
      rw [forRange_succ, ih, hlast, ← Function.iterate_succ_apply' double,
        List.range_succ (n := k + 1), List.map_append, List.map_singleton]
  have hlt : i < n - 1 + 1 := by omega
  rw [hall, List.getD_eq_getElem?_getD, List.getElem?_map, List.getElem?_range hlt]
  rfl

/-- The accumulator after `n` blocks. -/
def accCells (key : Block) (f : ℕ → Block) (n : ℕ) : Fin 16 → Gf2n :=
  forRange n (fun i acc j => acc j + outputCells key (f i) j) fun _ => 0

theorem unembedBlock_accCells (key : Block) (f : ℕ → Block) (n : ℕ) :
    unembedBlock (accCells key f n) = xorSum n f := by
  induction n with
  | zero => exact funext fun _ => unembed_zero
  | succ n ih =>
    have hout := unembedBlock_outputCells key (f n)
    funext j
    show unembed (accCells key f n j + outputCells key (f n) j) = f n j ^^^ xorSum n f j
    rw [unembed_add, BitVec.xor_comm, ← congrFun hout j, ← ih]
    rfl

def rawCells (c : List Byte) (i : ℕ) : Fin 16 → Gf2n := fun j => raw (bufferOf c (i * 16 + j))

theorem ciphertextBlocks_raw (c : List Byte) :
    ciphertextBlocks (c.map raw) = (List.range (c.length / 16)).map (rawCells c) := by
  have hzero : (0 : Gf2n) = raw 0 := rfl
  rw [ciphertextBlocks, List.length_map, hzero]
  refine List.map_congr_left fun i _ => funext fun j => ?_
  rw [List.getD_map]
  rfl

theorem pmac_returns (key : Block) (c : List Byte) (hlen : 16 ≤ c.length) : ∃ p,
    pmac (ciphertextBlocks (c.map raw)) (rawBlock key) = some p ∧
      Returns p (outputCells key (circuitTag key c (c.length / 16))) := by
  let E := aes128 (readBlock key)
  obtain ⟨n, hn⟩ : ∃ n, c.length / 16 = n + 1 := ⟨c.length / 16 - 1, by omega⟩
  let f (i : ℕ) : Block := E (circuitInput key c (n + 1) i)
  have hblocks : ciphertextBlocks (c.map raw) = (List.range (n + 1)).map (rawCells c) := by
    rw [ciphertextBlocks_raw, hn]
  have hlast : ((List.range (n + 1)).map (rawCells c)).getLast? = some (rawCells c n) := by
    rw [List.range_succ, List.map_append, List.map_singleton, List.getLast?_concat]
  have hcount : ((List.range (n + 1)).map (rawCells c)).length = n + 1 := by
    rw [List.length_map, List.length_range]
  rw [hn, hblocks, pmac, hlast]
  refine ⟨_, rfl, ?_⟩
  simp only [hcount]
  refine returns_bind _ _ _ _ (expandAESKey_raw_returns key) ?_
  have hzero : unembedBlock (fun _ => cgf2n 0) = zeroBlock := funext fun _ => unembed_zero
  have hL := aesMain_raw_returns key fun _ => cgf2n 0
  rw [hzero] at hL
  refine returns_bind _ _ _ _ hL ?_
  simp only [Nat.add_sub_cancel]
  refine returns_bind _ _ (accCells key f n) _ ?_ ?_
  · refine returns_forRangeM n _ (accCells key f) fun i hi => ?_
    have hblock : ((List.range (n + 1)).map (rawCells c)).getD i 0 = rawCells c i := by
      simp [List.getD_eq_getElem?_getD, Nat.lt_succ_of_lt hi]
    have hmask := circuitMask_of_ne key (n + 1) i (by omega)
    have hout := aesMain_raw_returns key fun j => rawCells c i j + circuitMask key (n + 1) i j
    rw [hblock, pmacMasks_getD _ _ _ (by omega), ← hmask]
    exact returns_bind _ _ (outputCells key (f i)) _ hout (returns_pure _)
  have hmask := circuitMask_last key n
  have hout := aesMain_raw_returns key fun j => rawCells c n j + circuitMask key (n + 1) n j
  have hfinal := aesMain_raw_returns key (accCells key f (n + 1))
  rw [unembedBlock_accCells] at hfinal
  rw [pmacMasks_getD _ _ _ (by omega), ← hmask]
  exact returns_bind _ _ (outputCells key (f n)) _ hout hfinal

/-! ### One run -/

def circuitStream (key : Block) (nonce : Nonce) (p : ℕ) : Byte :=
  byteAt (aes128 (readBlock key) (nonceCtrBlock nonce (1 + p / 16))) (p % 16)

theorem decPmacAes128_returns (key : Block) (nonce : Nonce) (tag : Block) (c : List Byte)
    (hpos : 0 < c.length) (hlen : 16 ∣ c.length) : ∃ p,
    decPmacAes128 (c.map raw) (rawBlock tag) (rawBlock key) (fun j => raw (nonce j)) = some p ∧
      Returns p (tagCheck (List.ofFn (rawBlock tag))
        (List.ofFn (outputCells key (circuitTag key c (c.length / 16)))) (bitDecompose 8),
        (xorStream (circuitStream key nonce) c).map raw) := by
  obtain ⟨p, hp, htag⟩ := pmac_returns key c (Nat.le_of_dvd hpos hlen)
  have hmod : ¬ c.length % 16 ≠ 0 := fun h => h (Nat.mod_eq_zero_of_dvd hlen)
  let message := (xorStream (circuitStream key nonce) c).map raw
  have hctr := aesCtrDec_returns (keyExpansion (readBlock key)) (defectWords key)
    (unembed_defectWords key) nonce 1 (by omega) c
  have hrevealed := returns_mapM message reveal id fun x _ => returns_reveal x
  rw [List.map_id] at hrevealed
  have hbits : ∀ x, Returns (bitDecomposeEmbedding x (List.range 8)) (bitDecompose 8 x) := fun x =>
    (bitDecomposeEmbedding_computes x (List.range 8)
      (fun w hw => (List.mem_range.mp hw).trans (by omega)) List.nodup_range).returns
  have hcheck := tagCheckM_returns (List.ofFn (rawBlock tag))
    (List.ofFn (outputCells key (circuitTag key c (c.length / 16)))) _ _ hbits
  rw [decPmacAes128, List.length_map, if_neg hmod, hp]
  refine ⟨_, rfl, ?_⟩
  refine returns_bind _ _ _ _ (expandAESKey_raw_returns key) ?_
  refine returns_bind _ _ message _ hctr ?_
  refine returns_bind _ _ message _ hrevealed ?_
  refine returns_bind _ _ _ _ htag ?_
  refine returns_bind _ _ _ _ hcheck ?_
  exact returns_bind _ _ _ _ (returns_reveal _) (returns_pure _)

end Pobc.Mpc
