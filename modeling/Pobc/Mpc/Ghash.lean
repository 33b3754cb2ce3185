import Pobc.Gcm
import Pobc.Mpc.Unembed
import Mathlib.Data.List.GetD

/-!
# GHASH in the circuits (`aes_gcm.py`, `aes_gcm_siv.py`)

Sixteen bytes are one element of the field the circuits compute in: the highest
bit of the first byte is the coefficient of `y^0`. `ghash` and `polyval` run
Horner's rule over the blocks of a string and differ in the byte order of the
length block and in the form of the result.
-/

namespace Pobc.Mpc
open Pobc.Loop Pobc.Aes Pobc.Gcm

/-- `into_gf2_128_bits` (`aes_gcm.py:95-98`). -/
def intoGf2128Bits (bits : List ℕ) : ℕ :=
  let bytes := (List.range 16).map fun i => ((bits.drop (8 * i)).take 8).reverse
  (bytes.flatten.zipIdx.map fun b => 2^b.2 * b.1).sum

/-- `into_gf2_128` (`aes_gcm.py:99-113`). -/
def intoGf2128 (block : List Gf2n) : Gf2n :=
  let block := block ++ List.replicate (16 - block.length) (cgf2n 0)
  let bits := block.flatMap fun cell => (bitDecompose 8 cell).reverse
  (bits.zipIdx.map fun b => cgf2n (2^b.2) * b.1).sum

/-- `from_gf2_128` (`aes_gcm.py:115-123`). -/
def fromGf2128 (x : Gf2n) : Fin 16 → Gf2n :=
  let bits := bitDecompose 128 x
  fun i => ((List.range 8).map fun j => cgf2n (2^(7 - j)) * bits.getD (8 * i.val + j) 0).sum

def uint64Bits (x : ℕ) : List ℕ :=
  (List.range 64).map fun i => if (x >>> i) &&& 0x1 > 0 then 1 else 0

/-- `be_uint64` (`aes_gcm.py:162-165`). -/
def beUint64 (x : ℕ) : List ℕ :=
  let bits := uint64Bits x
  (List.range 8).flatMap fun i => (bits.drop (8 * (7 - i))).take 8

/-- `le_uint64` (`aes_gcm_siv.py:101-103`). -/
def leUint64 (x : ℕ) : List ℕ := uint64Bits x

/-- The loop over the blocks of `plaintext` and the remaining block
(`aes_gcm.py:171-182`, `aes_gcm_siv.py:108-116`). -/
def hashBlocks (key : Gf2n) (plaintext : List Gf2n) : Gf2n :=
  let nBlocks := plaintext.length / 16
  let tag := forRange nBlocks (fun i tag =>
    (tag + intoGf2128 ((plaintext.drop (16 * i)).take 16)) * key) (cgf2n 0)
  if plaintext.length % 16 ≠ 0 then (tag + intoGf2128 (plaintext.drop (16 * nBlocks))) * key
  else tag

/-- `ghash` (`aes_gcm.py:167-194`). -/
def ghash (plaintext : List Gf2n) (key : Fin 16 → Gf2n) : Circuit (Fin 16 → Gf2n) := do
  let collapsed ← stateCollapse key
  let key := intoGf2128 (List.ofFn collapsed)
  let tag := hashBlocks key plaintext
  let lengthBlockBits := beUint64 0 ++ beUint64 (plaintext.length * 8)
  let lengthBlock := cgf2n (intoGf2128Bits lengthBlockBits)
  return fromGf2128 ((tag + lengthBlock) * key)

/-- `polyval` (`aes_gcm_siv.py:105-125`). -/
def polyval (plaintext : List Gf2n) (key : Fin 16 → Gf2n) : Circuit (Fin 16 → Gf2n) := do
  let collapsed ← stateCollapse key
  let key := intoGf2128 (List.ofFn collapsed)
  let tag := hashBlocks key plaintext
  let lengthBlockBits := leUint64 0 ++ leUint64 (plaintext.length * 8)
  let lengthBlock := cgf2n (intoGf2128Bits lengthBlockBits)
  return secretArrayEmbedd (fromGf2128 ((tag + lengthBlock) * key))

/-! ### Bytes and field elements -/

/- Pieces of one length, read position by position. -/
theorem range_flatMap {α : Type*} (f : ℕ → ℕ → α) (k m : ℕ) :
    ((List.range m).flatMap fun t => (List.range k).map (f t)) =
      (List.range (k * m)).map fun i => f (i / k) (i % k) := by
  induction m with
  | zero => simp
  | succ m ih =>
    rw [List.range_succ, List.flatMap_append, List.flatMap_singleton, ih, Nat.mul_succ,
      List.range_add, List.map_append, List.map_map]
    refine congrArg (_ ++ ·) (List.map_congr_left fun i hi => ?_)
    have hlt := List.mem_range.mp hi
    have hk : 0 < k := by omega
    rw [Function.comp_apply, Nat.mul_add_div hk, Nat.div_eq_of_lt hlt, Nat.mul_add_mod,
      Nat.mod_eq_of_lt hlt, Nat.add_zero]

theorem flatMap_eq_range {α β : Type*} (l : List α) (d : α) (f : α → List β) :
    l.flatMap f = (List.range l.length).flatMap fun t => f (l.getD t d) := by
  induction l with
  | nil => rfl
  | cons a l ih =>
    rw [List.flatMap_cons, List.length_cons, List.range_succ_eq_map, List.flatMap_cons,
      List.flatMap_map, ih]
    rfl

theorem intoGf2128_eq (l : List Gf2n) (hl : l.length ≤ 16) :
    intoGf2128 l = fieldOf fun j => lowByte (l.getD j.val 0) := by
  have hpiece : ∀ cell : Gf2n, (bitDecompose 8 cell).reverse =
      (List.range 8).map fun j => ofBit (cell.bits.getLsbD (7 - j)) := fun _ => rfl
  have hlen : (l ++ List.replicate (16 - l.length) (cgf2n 0)).length = 16 := by
    rw [List.length_append, List.length_replicate]
    omega
  apply Gf.ext
  apply BitVec.eq_of_getLsbD_eq
  intro i hi
  simp only [intoGf2128, hpiece]
  rw [flatMap_eq_range _ 0, hlen, range_flatMap]
  have hbits := getLsbD_sum_zipIdx (fun i => ((l ++ List.replicate (16 - l.length) (cgf2n 0)).getD
    (i / 8) 0).bits.getLsbD (7 - i % 8)) (8 * 16) i (by omega)
  have hcell : (l ++ List.replicate (16 - l.length) (cgf2n 0)).getD (i / 8) 0 = l.getD (i / 8) 0 :=
    Pad.getD_append_replicate l _ _ 0
  have hmod : i / 8 % 16 = i / 8 := by omega
  have hlt : 7 - i % 8 < 8 := by omega
  rw [hbits, hcell, getLsbD_fieldOf _ i hi, decide_eq_true hi, Bool.true_and, byteAt,
    Fin.val_ofNat, hmod, lowByte, BitVec.getLsbD_setWidth, decide_eq_true hlt, Bool.true_and]

theorem fromGf2128_fieldOf (y : Block) : fromGf2128 (fieldOf y) = rawBlock y := by
  funext i
  have hi := i.isLt
  have hbit : ∀ j < 8, (bitDecompose 128 (fieldOf y)).getD (8 * i.val + j) 0 =
      ofBit ((y i).getLsbD (7 - j)) := by
    intro j hj
    have hlt : 8 * i.val + j < 128 := by omega
    have hdiv : (8 * i.val + j) / 8 = i.val := by omega
    have hmod : (8 * i.val + j) % 8 = j := by omega
    have hread : (bitDecompose 128 (fieldOf y)).getD (8 * i.val + j) 0 =
        ofBit ((fieldOf y).bits.getLsbD (8 * i.val + j)) := by
      simp [bitDecompose, List.getD_eq_getElem?_getD, hlt]
    rw [hread, getLsbD_fieldOf y _ hlt, hdiv, hmod, byteAt_val]
  have hsum : fromGf2128 (fieldOf y) i =
      ((List.range 8).map fun j => cgf2n (2^(7 - j)) * ofBit ((y i).getLsbD (7 - j))).sum := by
    refine congrArg List.sum (List.map_congr_left fun j hj => ?_)
    rw [hbit j (List.mem_range.mp hj)]
  -- the bits of a byte, highest first
  have hreverse : (List.range 8).map (fun j => 7 - j) = (List.range 8).reverse := rfl
  have hback : ((List.range 8).map fun j => cgf2n (2^(7 - j)) * ofBit ((y i).getLsbD (7 - j))) =
      ((List.range 8).map fun k => cgf2n (2^k) * ofBit ((y i).getLsbD k)).reverse := by
    rw [← List.map_reverse, ← hreverse, List.map_map]
    rfl
  rw [hsum, hback, List.sum_reverse, sum_bits_raw, rawBlock]

/-! ### The length block -/

/- A sum of bits times powers of two, as a number. -/
theorem testBit_sum_bits (f : ℕ → Bool) (n : ℕ) :
    ((List.range n).map fun i => 2^i * (f i).toNat).sum < 2^n ∧
      ∀ k, ((List.range n).map fun i => 2^i * (f i).toNat).sum.testBit k =
        (decide (k < n) && f k) := by
  induction n with
  | zero => simp
  | succ n ih =>
    obtain ⟨hlt, hbits⟩ := ih
    have hsum : ((List.range (n + 1)).map fun i => 2^i * (f i).toNat).sum =
        2^n * (f n).toNat + ((List.range n).map fun i => 2^i * (f i).toNat).sum := by
      rw [List.range_succ, List.map_append, List.sum_append, List.map_singleton,
        List.sum_singleton, Nat.add_comm]
    rw [hsum]
    constructor
    · have hle : 2^n * (f n).toNat ≤ 2^n * 1 := Nat.mul_le_mul_left _ (Bool.toNat_le (f n))
      rw [pow_succ]
      omega
    · intro k
      rw [Nat.testBit_two_pow_mul_add _ hlt]
      by_cases hk : k < n
      · have hin : k < n + 1 := by omega
        rw [if_pos hk, hbits, decide_eq_true hk, decide_eq_true hin]
      · by_cases heq : k = n
        · subst heq
          rw [if_neg hk, Nat.sub_self, decide_eq_true (Nat.lt_succ_self k)]
          cases f k <;> rfl
        · have hout : ¬ k < n + 1 := by omega
          have hpos : k - n ≠ 0 := by omega
          rw [if_neg hk, decide_eq_false hout, Bool.false_and]
          cases f n
          · exact Nat.zero_testBit _
          · exact Nat.testBit_lt_two_pow (Nat.one_lt_two_pow hpos)

theorem uint64Bits_eq (x : ℕ) :
    uint64Bits x = (List.range 64).map fun i => (x.testBit i).toNat := by
  refine List.map_congr_left fun i _ => ?_
  rw [Nat.toNat_testBit, Nat.shiftRight_eq_div_pow, Nat.and_one_is_mod]
  split <;> omega

theorem take_drop_range {α : Type*} (f : ℕ → α) (n a k : ℕ) (h : a + k ≤ n) :
    (((List.range n).map f).drop a).take k = (List.range k).map fun j => f (a + j) := by
  apply List.ext_getElem
  · simp
    omega
  · intro j h1 h2
    simp

theorem beUint64_eq (x : ℕ) : beUint64 x =
    (List.range 64).map fun p => (x.testBit (8 * (7 - p / 8) + p % 8)).toNat := by
  rw [beUint64, uint64Bits_eq, ← range_flatMap
    (fun i j => (x.testBit (8 * (7 - i) + j)).toNat) 8 8]
  refine List.flatMap_congr fun i hi => ?_
  have hlt := List.mem_range.mp hi
  exact take_drop_range _ 64 _ 8 (by omega)

/- Each byte is turned round. -/
theorem intoGf2128Bits_eq (f : ℕ → ℕ) : intoGf2128Bits ((List.range 128).map f) =
    ((List.range 128).map fun i => 2^i * f (8 * (i / 8) + (7 - i % 8))).sum := by
  have hbytes : ((List.range 16).map fun i =>
      ((((List.range 128).map f).drop (8 * i)).take 8).reverse).flatten =
      (List.range 128).map fun i => f (8 * (i / 8) + (7 - i % 8)) := by
    rw [← range_flatMap (fun t j => f (8 * t + (7 - j))) 8 16, List.flatMap_def]
    refine congrArg List.flatten (List.map_congr_left fun i hi => ?_)
    have hlt := List.mem_range.mp hi
    rw [take_drop_range f 128 _ 8 (by omega)]
    rfl
  rw [intoGf2128Bits, hbytes, zipIdx_eq_map_range _ 0, List.map_map, List.length_map,
    List.length_range]
  refine congrArg List.sum (List.map_congr_left fun i hi => ?_)
  have hlt := List.mem_range.mp hi
  simp [List.getD_eq_getElem?_getD, hlt]

/- Two 64-bit words written bit by bit, as a field element. -/
theorem cgf2n_intoGf2128Bits (b c : ℕ → Bool) (y : Block)
    (hb : ∀ j < 8, ∀ k < 8, (byteAt y j).getLsbD k = b (8 * j + k))
    (hc : ∀ j < 8, ∀ k < 8, (byteAt y (8 + j)).getLsbD k = c (8 * j + k)) :
    cgf2n (intoGf2128Bits ((List.range 64).map (fun p => (b p).toNat) ++
      (List.range 64).map fun p => (c p).toNat)) = fieldOf y := by
  let g (p : ℕ) : Bool := if p < 64 then b p else c (p - 64)
  have happend : ((List.range 64).map (fun p => (b p).toNat) ++
      (List.range 64).map fun p => (c p).toNat) = (List.range 128).map fun p => (g p).toNat := by
    have hsplit : List.range 128 = List.range 64 ++ (List.range 64).map (64 + ·) :=
      @List.range_add 64 64
    rw [hsplit, List.map_append, List.map_map]
    refine congrArg₂ (· ++ ·) (List.map_congr_left fun p hp => ?_)
      (List.map_congr_left fun p _ => ?_)
    · simp only [g, if_pos (List.mem_range.mp hp)]
    · have hout : ¬ 64 + p < 64 := by omega
      simp only [Function.comp_apply, g, if_neg hout, Nat.add_sub_cancel_left]
  rw [happend, intoGf2128Bits_eq]
  apply Gf.ext
  apply BitVec.eq_of_getLsbD_eq
  intro i hi
  have hsum := (testBit_sum_bits (fun i => g (8 * (i / 8) + (7 - i % 8))) 128).2 i
  rw [getLsbD_fieldOf y i hi, cgf2n, BitVec.getLsbD_ofNat, hsum, decide_eq_true hi, Bool.true_and,
    Bool.true_and]
  by_cases hlow : i / 8 < 8
  · have hin : 8 * (i / 8) + (7 - i % 8) < 64 := by omega
    simp only [g, if_pos hin]
    exact (hb (i / 8) hlow _ (by omega)).symm
  · have hout : ¬ 8 * (i / 8) + (7 - i % 8) < 64 := by omega
    have hbyte : i / 8 = 8 + (i / 8 - 8) := by omega
    have hpos : 8 * (i / 8) + (7 - i % 8) - 64 = 8 * (i / 8 - 8) + (7 - i % 8) := by omega
    simp only [g, if_neg hout, hpos]
    rw [← hc (i / 8 - 8) (by omega) _ (by omega), ← hbyte]

theorem getLsbD_ofNat_div (n k i : ℕ) (hi : i < 8) :
    (BitVec.ofNat 8 (n / 2^k)).getLsbD i = n.testBit (k + i) := by
  rw [BitVec.getLsbD_ofNat, decide_eq_true hi, Bool.true_and, Nat.testBit_div_two_pow, Nat.add_comm]

/- Bit `8 * j + k` of a word whose bytes are written from the most significant one on. -/
theorem getLsbD_bePosition (n j k : ℕ) (hk : k < 8) :
    (BitVec.ofNat 8 (n / 2^(8 * (7 - j)))).getLsbD k =
      n.testBit (8 * (7 - (8 * j + k) / 8) + (8 * j + k) % 8) := by
  have hdiv : (8 * j + k) / 8 = j := by omega
  have hmod : (8 * j + k) % 8 = k := by omega
  rw [getLsbD_ofNat_div _ _ _ hk, hdiv, hmod]

theorem beLengthBlock_eq (len : ℕ) :
    cgf2n (intoGf2128Bits (beUint64 0 ++ beUint64 (len * 8))) = fieldOf (lengthBlock 0 len) := by
  rw [beUint64_eq, beUint64_eq, Nat.mul_comm]
  apply cgf2n_intoGf2128Bits
  · intro j hj k hk
    have hbyte : byteAt (lengthBlock 0 len) j = BitVec.ofNat 8 (0 / 2^(8 * (7 - j))) := by
      have hmod : j % 16 = j := by omega
      rw [byteAt, lengthBlock, Fin.val_ofNat, hmod, if_pos hj]
    rw [hbyte, getLsbD_bePosition 0 j k hk]
  · intro j hj k hk
    have hbyte : byteAt (lengthBlock 0 len) (8 + j) =
        BitVec.ofNat 8 (8 * len / 2^(8 * (7 - j))) := by
      have hmod : (8 + j) % 16 = 8 + j := by omega
      have hhigh : ¬ 8 + j < 8 := by omega
      have hpos : 15 - (8 + j) = 7 - j := by omega
      rw [byteAt, lengthBlock, Fin.val_ofNat, hmod, if_neg hhigh, hpos]
    rw [hbyte, getLsbD_bePosition (8 * len) j k hk]

theorem leLengthBlock_eq (len : ℕ) :
    cgf2n (intoGf2128Bits (leUint64 0 ++ leUint64 (len * 8))) = fieldOf (sivLengthBlock 0 len) := by
  rw [leUint64, leUint64, uint64Bits_eq, uint64Bits_eq, Nat.mul_comm]
  apply cgf2n_intoGf2128Bits
  · intro j hj k hk
    have hbyte : byteAt (sivLengthBlock 0 len) j = BitVec.ofNat 8 (0 / 2^(8 * j)) := by
      have hmod : j % 16 = j := by omega
      rw [byteAt, sivLengthBlock, Fin.val_ofNat, hmod, if_pos hj]
    rw [hbyte, getLsbD_ofNat_div _ _ _ hk]
  · intro j hj k hk
    have hbyte : byteAt (sivLengthBlock 0 len) (8 + j) = BitVec.ofNat 8 (8 * len / 2^(8 * j)) := by
      have hmod : (8 + j) % 16 = 8 + j := by omega
      have hhigh : ¬ 8 + j < 8 := by omega
      have hpos : 8 + j - 8 = j := by omega
      rw [byteAt, sivLengthBlock, Fin.val_ofNat, hmod, if_neg hhigh, hpos]
    rw [hbyte, getLsbD_ofNat_div _ _ _ hk]

/-! ### The hash -/

theorem lowByte_getD_drop (c : List Byte) (a j : ℕ) :
    lowByte (((c.map raw).drop a).getD j 0) = bufferOf c (a + j) := by
  have hread : ((c.map raw).drop a).getD j 0 = (c.map raw).getD (a + j) 0 := by
    rw [List.getD_eq_getElem?_getD, List.getD_eq_getElem?_getD, List.getElem?_drop]
  have hzero : raw 0 = 0 := rfl
  rw [hread, ← hzero, List.getD_map, lowByte_raw, bufferOf]

theorem hashBlocks_eq (h : Block) (c : List Byte) :
    hashBlocks (fieldOf h) (c.map raw) = fieldOf (Gcm.ghash h (padBlocks c)) := by
  let block (i : ℕ) : Block := fun j => bufferOf c (i * 16 + j)
  have hlen : (c.map raw).length = c.length := List.length_map _
  have hrun := forRange_inv
    (fun n tag => tag = fieldOf (Gcm.ghash h ((List.range n).map block))) (c.length / 16)
    (fun i tag => (tag + intoGf2128 (((c.map raw).drop (16 * i)).take 16)) * fieldOf h) (cgf2n 0)
    fieldOf_zeroBlock.symm fun i hi tag htag => by
      have hpiece : intoGf2128 (((c.map raw).drop (16 * i)).take 16) = fieldOf (block i) := by
        rw [intoGf2128_eq _ (by rw [List.length_take]; omega)]
        refine congrArg fieldOf (funext fun j => ?_)
        have hread : (((c.map raw).drop (16 * i)).take 16).getD j.val 0 =
            ((c.map raw).drop (16 * i)).getD j.val 0 := by
          rw [List.getD_eq_getElem?_getD, List.getD_eq_getElem?_getD,
            List.getElem?_take_of_lt j.isLt]
        rw [hread, lowByte_getD_drop, Nat.mul_comm]
      rw [hpiece, htag, List.range_succ, List.map_append, List.map_singleton,
        fieldOf_ghash_append]
  rw [hashBlocks, hlen, padBlocks]
  by_cases hrest : c.length % 16 = 0
  · have hcount : (c.length + 15) / 16 = c.length / 16 := by omega
    rw [if_neg (not_not.mpr hrest), hcount]
    exact hrun
  · have hcount : (c.length + 15) / 16 = c.length / 16 + 1 := by omega
    have hlast : intoGf2128 ((c.map raw).drop (16 * (c.length / 16))) =
        fieldOf (block (c.length / 16)) := by
      rw [intoGf2128_eq _ (by rw [List.length_drop, hlen]; omega)]
      refine congrArg fieldOf (funext fun j => ?_)
      rw [lowByte_getD_drop, Nat.mul_comm]
    rw [if_pos hrest, hcount, hrun, hlast, List.range_succ, List.map_append, List.map_singleton,
      fieldOf_ghash_append]

/- The key a circuit hashes with. -/
theorem intoGf2128_rawBlock (h : Block) : intoGf2128 (List.ofFn (rawBlock h)) = fieldOf h := by
  rw [intoGf2128_eq _ (by rw [List.length_ofFn])]
  refine congrArg fieldOf (funext fun j => ?_)
  have hlt : j.val < (List.ofFn (rawBlock h)).length := by
    rw [List.length_ofFn]
    exact j.isLt
  rw [List.getD_eq_getElem?_getD, List.getElem?_eq_getElem hlt, Option.getD_some,
    List.getElem_ofFn, rawBlock, lowByte_raw]

theorem ghash_returns (key : Fin 16 → Gf2n) (c : List Byte) :
    Returns (ghash (c.map raw) key) (rawBlock (Gcm.ghash (unembedBlock key)
      (padBlocks c ++ [lengthBlock 0 c.length]))) := by
  have hlen : (c.map raw).length = c.length := List.length_map _
  have hvalue : fromGf2128 ((hashBlocks (intoGf2128 (List.ofFn (rawBlock (unembedBlock key))))
      (c.map raw) + cgf2n (intoGf2128Bits (beUint64 0 ++ beUint64 ((c.map raw).length * 8)))) *
      intoGf2128 (List.ofFn (rawBlock (unembedBlock key)))) =
      rawBlock (Gcm.ghash (unembedBlock key) (padBlocks c ++ [lengthBlock 0 c.length])) := by
    rw [intoGf2128_rawBlock, hashBlocks_eq, hlen, beLengthBlock_eq, ← fieldOf_ghash_append,
      fromGf2128_fieldOf]
  rw [← hvalue]
  exact returns_bind _ _ _ _ (stateCollapse_returns key) (returns_pure _)

theorem polyval_returns (key : Fin 16 → Gf2n) (m : List Byte) :
    Returns (polyval (m.map raw) key) (embBlock (Gcm.ghash (unembedBlock key)
      (padBlocks m ++ [sivLengthBlock 0 m.length]))) := by
  have hlen : (m.map raw).length = m.length := List.length_map _
  have hvalue : fromGf2128 ((hashBlocks (intoGf2128 (List.ofFn (rawBlock (unembedBlock key))))
      (m.map raw) + cgf2n (intoGf2128Bits (leUint64 0 ++ leUint64 ((m.map raw).length * 8)))) *
      intoGf2128 (List.ofFn (rawBlock (unembedBlock key)))) =
      rawBlock (Gcm.ghash (unembedBlock key) (padBlocks m ++ [sivLengthBlock 0 m.length])) := by
    rw [intoGf2128_rawBlock, hashBlocks_eq, hlen, leLengthBlock_eq, ← fieldOf_ghash_append,
      fromGf2128_fieldOf]
  rw [← secretArrayEmbedd_raw, ← hvalue]
  exact returns_bind _ _ _ _ (stateCollapse_returns key) (returns_pure _)

end Pobc.Mpc
