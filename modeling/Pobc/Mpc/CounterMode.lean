import Pobc.Lib.GfPeriod
import Pobc.Mpc.BlockArray
import Pobc.Mpc.Unembed

/-!
# Counter mode in the circuits

The loops of `aes_ctr_dec`, and the function itself as it stands in `aes_gcm.py`
and in `aes_modes.py`, with a big-endian counter behind a nonce. The keystream is
un-embedded byte by byte, so the message is a list of bytes.
-/

namespace Pobc.Mpc
open Pobc.Loop Pobc.Aes Pobc.Mode

/-- `regint` of a clear value: 64 bits. -/
def regint (x : Gf2n) : ℕ := x.bits.toNat % 2^64

/-- The loops over the blocks (`aes_gcm.py:140-160`, `aes_modes.py:22-42`,
`aes_gcm_siv.py:83-99`) with the cipher as an argument; `counterBlock i` is
embedded. -/
def ctrLoopWith (AES : (Fin 16 → Gf2n) → Circuit (Fin 16 → Gf2n))
    (counterBlock : ℕ → Fin 16 → Gf2n) (ciphertext : List Gf2n) : Circuit (List Gf2n) := do
  let nBlocks := ciphertext.length / 16 + if ciphertext.length % 16 ≠ 0 then 1 else 0
  forRangeM nBlocks (fun i message => do
    let mask ← AES (counterBlock i)
    let part ← (List.range (min 16 (ciphertext.length - message.length))).mapM fun j => do
      let m ← inverseEmbedding (byteAt mask j)
      return ciphertext.getD (message.length + j) 0 + m
    return message ++ part) []

/-- The same loops around `aes_main`, as the source has them. -/
def ctrLoop (expandedKey : ℕ → Gf2n) (counterBlock : ℕ → Fin 16 → Gf2n) (ciphertext : List Gf2n) :
    Circuit (List Gf2n) :=
  ctrLoopWith (aesMain expandedKey) counterBlock ciphertext

/-- `ctr` of a big-endian counter (`aes_gcm.py:133-134`, `144`). The powers of two
are those of the source. -/
def parsedCtr (counter : Fin 16 → Gf2n) : ℕ :=
  let counterBytes := (List.range 4).map fun i =>
    ((bitDecompose 8 (byteAt counter (12 + i))).zipIdx.map fun b => cgf2n (2^b.2) * b.1).sum
  regint (counterBytes.zipIdx.map fun b => cgf2n (2^(3 - b.2)) * b.1).sum

/-- `aes_ctr_dec` (`aes_gcm.py:129-160`, `aes_modes.py:11-42`) with the cipher as an
argument. -/
def aesCtrDecWith (AES : (Fin 16 → Gf2n) → Circuit (Fin 16 → Gf2n)) (counter : Fin 16 → Gf2n)
    (ciphertext : List Gf2n) : Circuit (List Gf2n) :=
  let ctr := parsedCtr counter
  ctrLoopWith AES (fun i j =>
    let ctrCell := valPart ((ctr + i) % 2^32)
    if j.val < 12 then applyEmbedding (counter j) else applyEmbedding (ctrCell (j.val - 12)))
    ciphertext

/-- `aes_ctr_dec` as it is called. -/
def aesCtrDec (expandedKey : ℕ → Gf2n) (counter : Fin 16 → Gf2n) (ciphertext : List Gf2n) :
    Circuit (List Gf2n) :=
  aesCtrDecWith (aesMain expandedKey) counter ciphertext

/-! ### The loop -/

/- The message is the ciphertext plus the cipher outputs as bytes. -/
theorem ctrLoopWith_returns (AES : (Fin 16 → Gf2n) → Circuit (Fin 16 → Gf2n))
    (counterBlock : ℕ → Fin 16 → Gf2n) (out : ℕ → Block)
    (hAES : ∀ i, ∃ y, unembedBlock y = out i ∧ Returns (AES (counterBlock i)) y) (c : List Byte) :
    Returns (ctrLoopWith AES counterBlock (c.map raw))
      ((xorStream (fun p => byteAt (out (p / 16)) (p % 16)) c).map raw) := by
  let ks (p : ℕ) : Byte := byteAt (out (p / 16)) (p % 16)
  let g (p : ℕ) : Gf2n := raw (bufferOf c p) + raw (ks p)
  -- after `n` blocks the message has `min (16 n) len` bytes
  let s (n : ℕ) : List Gf2n := (List.range (min (16 * n) c.length)).map g
  have hlen : (c.map raw).length = c.length := List.length_map _
  generalize hn : (c.map raw).length / 16 + (if (c.map raw).length % 16 ≠ 0 then 1 else 0) = n
  rw [hlen] at hn
  have hcover : c.length ≤ 16 * n ∧ 16 * n < c.length + 16 := by
    split at hn <;> omega
  have hend : s n = (xorStream ks c).map raw := by
    have h : min (16 * n) c.length = c.length := by omega
    simp only [s, h, g]
    rw [map_raw_xorStream]
  have hslen : ∀ i < n, (s i).length = 16 * i := by
    intro i hi
    rw [List.length_map, List.length_range]
    omega
  rw [ctrLoopWith, hlen, ← hend]
  simp only [hn]
  refine returns_forRangeM n _ s fun i hi => ?_
  have hnext : s i ++ (List.range (min 16 (c.length - (s i).length))).map
      (fun j => g (16 * i + j)) = s (i + 1) := by
    rw [hslen i hi]
    exact text_append_piece g c.length i (by omega)
  obtain ⟨y, hy, hmask⟩ := hAES i
  rw [← hnext]
  refine returns_bind _ _ _ _ hmask ?_
  refine returns_bind _ _ _ _ (returns_mapM _ _ _ fun j hj => ?_) (returns_pure _)
  have hlt := List.mem_range.mp hj
  have hdiv : (16 * i + j) / 16 = i := by omega
  have hmod : (16 * i + j) % 16 = j := by omega
  have hks : unembed (byteAt y j) = ks (16 * i + j) := by
    simp only [ks, hdiv, hmod, ← hy]
    rfl
  have hbyte := inverseEmbedding_returns (byteAt y j)
  rw [hks] at hbyte
  rw [hslen i hi, getD_map_raw]
  exact returns_bind _ _ _ _ hbyte (returns_pure _)

theorem ctrLoop_returns (v : ℕ → Byte) (d : ℕ → Gf2n) (hd : ∀ p, unembed (d p) = 0)
    (counterBlock : ℕ → Fin 16 → Gf2n) (c : List Byte) :
    Returns (ctrLoop (offEmb v d) counterBlock (c.map raw)) ((xorStream (fun p =>
      byteAt (cipher v (unembedBlock (counterBlock (p / 16)))) (p % 16)) c).map raw) := by
  refine ctrLoopWith_returns (aesMain (offEmb v d)) counterBlock
    (fun i => cipher v (unembedBlock (counterBlock i))) (fun i => ?_) c
  refine ⟨_, ?_, aesMain_returns v d hd (counterBlock i)⟩
  funext j
  exact unembed_emb_add _ _ (hd _)

/-! ### The counters -/

theorem toNat_shifted_raw (b : Byte) (k : ℕ) (hk : k < 4) :
    (cgf2n (2^k) * raw b).bits.toNat = 2^k * b.toNat := by
  have hraw : (raw b).bits.toNat = b.toNat := BitVec.toNat_setWidth_of_le (by decide)
  have hlt := b.isLt
  have hpow : cgf2n (2^k) = Gf.power 128 0x87#128 1 ^ k := by
    rw [cgf2n_two_pow, Gf.power_one_pow k (by omega), Gf.power, BitVec.twoPow_eq]
    rfl
  have hsmall : 2^k * (raw b).bits.toNat < 2^128 := by
    have hle : 2^k ≤ 2^3 := Nat.pow_le_pow_right (by omega) (by omega)
    rw [hraw]
    calc 2^k * b.toNat ≤ 2^3 * 2^8 := Nat.mul_le_mul hle (by omega)
      _ < 2^128 := by decide
  rw [hpow, ← Gf.iterate_mulY (by decide), Gf.toNat_iterate_mulY (by decide) k _ hsmall, hraw]

theorem byteSum_raw (b : Byte) :
    ((bitDecompose 8 (raw b)).zipIdx.map fun b => cgf2n (2^b.2) * b.1).sum = raw b := by
  have hbit : ∀ k ∈ List.range 8, ofBit ((raw b).bits.getLsbD k) = ofBit (b.getLsbD k) := by
    intro k hk
    have hlt := List.mem_range.mp hk
    rw [raw, BitVec.getLsbD_setWidth, decide_eq_true (by omega), Bool.true_and]
  rw [bitDecompose, List.map_congr_left hbit, zipIdx_eq_map_range _ 0, List.map_map,
    List.length_map, List.length_range, ← sum_bits_raw b]
  refine congrArg List.sum (List.map_congr_left fun k hk => ?_)
  have hlt := List.mem_range.mp hk
  simp [List.getD_eq_getElem?_getD, hlt]

theorem parsedCtr_eq (counter : Fin 16 → Gf2n) (b : ℕ → Byte)
    (hb : ∀ i < 4, byteAt counter (12 + i) = raw (b i)) : parsedCtr counter =
      2^3 * (b 0).toNat ^^^ (2^2 * (b 1).toNat ^^^ (2^1 * (b 2).toNat ^^^ 2^0 * (b 3).toNat)) := by
  let cell (k j : ℕ) : Gf2n := cgf2n (2^k) * raw (b j)
  have hsum : parsedCtr counter = regint (cell 3 0 + (cell 2 1 + (cell 1 2 + (cell 0 3 + 0)))) := by
    have hbytes : ((List.range 4).map fun i => ((bitDecompose 8 (byteAt counter
        (12 + i))).zipIdx.map fun b => cgf2n (2^b.2) * b.1).sum) =
        (List.range 4).map fun i => raw (b i) := by
      refine List.map_congr_left fun i hi => ?_
      rw [hb i (List.mem_range.mp hi), byteSum_raw]
    simp only [parsedCtr]
    rw [hbytes]
    rfl
  have hlt : ∀ k < 4, ∀ j, 2^k * (b j).toNat < 2^64 := by
    intro k hk j
    have hle : 2^k ≤ 2^3 := Nat.pow_le_pow_right (by omega) (by omega)
    calc 2^k * (b j).toNat ≤ 2^3 * 2^8 := Nat.mul_le_mul hle (b j).isLt.le
      _ < 2^64 := by decide
  have hbits : (cell 3 0 + (cell 2 1 + (cell 1 2 + (cell 0 3 + 0)))).bits.toNat =
      2^3 * (b 0).toNat ^^^ (2^2 * (b 1).toNat ^^^ (2^1 * (b 2).toNat ^^^ 2^0 * (b 3).toNat)) := by
    rw [add_zero, Gf.bits_add, Gf.bits_add, Gf.bits_add, BitVec.toNat_xor, BitVec.toNat_xor,
      BitVec.toNat_xor]
    simp only [cell]
    rw [toNat_shifted_raw _ 3 (by omega), toNat_shifted_raw _ 2 (by omega),
      toNat_shifted_raw _ 1 (by omega), toNat_shifted_raw _ 0 (by omega)]
  rw [hsum, regint, hbits]
  exact Nat.mod_eq_of_lt (Nat.xor_lt_two_pow (hlt 3 (by omega) 0) (Nat.xor_lt_two_pow
    (hlt 2 (by omega) 1) (Nat.xor_lt_two_pow (hlt 1 (by omega) 2) (hlt 0 (by omega) 3))))

/-- `nonce + [0, 0, 0, n]`. -/
def ctrInit (nonce : Fin 12 → Gf2n) (n : ℕ) : Fin 16 → Gf2n := fun j =>
  if j.val < 12 then tailOf nonce j else if j.val < 15 then cgf2n 0 else cgf2n n

theorem parsedCtr_ctrInit (nonce : Fin 12 → Gf2n) (n : ℕ) (hn : n < 4) :
    parsedCtr (ctrInit nonce n) = n := by
  have hcases : n = 0 ∨ n = 1 ∨ n = 2 ∨ n = 3 := by omega
  have hcells : ∀ i < 4, byteAt (ctrInit nonce n) (12 + i) =
      raw (if i < 3 then 0 else BitVec.ofNat 8 n) := by
    intro i hi
    have hpos : i = 0 ∨ i = 1 ∨ i = 2 ∨ i = 3 := by omega
    rcases hpos with rfl | rfl | rfl | rfl
    · rfl
    · rfl
    · rfl
    · rcases hcases with rfl | rfl | rfl | rfl <;> rfl
  rw [parsedCtr_eq _ _ hcells]
  rcases hcases with rfl | rfl | rfl | rfl <;> rfl

theorem aesCtrDec_returns (v : ℕ → Byte) (d : ℕ → Gf2n) (hd : ∀ p, unembed (d p) = 0)
    (nonce : Nonce) (n : ℕ) (hn : n < 4) (c : List Byte) :
    Returns (aesCtrDec (offEmb v d) (ctrInit (fun j => raw (nonce j)) n) (c.map raw))
      ((xorStream (fun p =>
      byteAt (cipher v (nonceCtrBlock nonce (n + p / 16))) (p % 16)) c).map raw) := by
  let counter := ctrInit (fun j => raw (nonce j)) n
  have h := ctrLoop_returns v d hd (fun i j =>
    let ctrCell := valPart ((parsedCtr counter + i) % 2^32)
    if j.val < 12 then applyEmbedding (counter j) else applyEmbedding (ctrCell (j.val - 12))) c
  have hblock : ∀ i, (unembedBlock fun j : Fin 16 =>
      if j.val < 12 then applyEmbedding (counter j)
      else applyEmbedding (valPart ((parsedCtr counter + i) % 2^32) (j.val - 12))) =
      nonceCtrBlock nonce (n + i) := by
    intro i
    funext j
    rw [parsedCtr_ctrInit _ n hn, unembedBlock, nonceCtrBlock]
    by_cases hj : j.val < 12
    · have hcell : counter j = raw (tailOf nonce j) := if_pos hj
      rw [if_pos hj, if_pos hj, hcell, applyEmbedding_raw, unembed_emb]
    · rw [if_neg hj, if_neg hj, valPart_eq _ _ (by omega), applyEmbedding_raw, unembed_emb,
        beByte_mod]
  simp only [hblock] at h
  exact h

end Pobc.Mpc
