import Pobc.Mimc.Ppmac
import Mathlib.Data.List.GetD

/-!
# PPMAC-MiMC decryption of what encryption produces, and of what it does not

Decryption subtracts the masks that encryption added and authenticates the blocks as
it reads them. A block is read as a number below `2^128` but only counts modulo the
prime, and what is left of it after unmasking may take more than the 15 bytes of a
piece.
-/

namespace Pobc.Mimc
open Pobc.Loop

section Core

variable (S : Setup)

def cipherValue (m : Buffer) (mlen i : ℕ) : ℤ := modAdd (pieceValue m mlen i) (keystream S i)

/-- The blocks of an output: `v 0`, …, `v (n - 1)` and the tag. -/
def withTag (n : ℕ) (v : ℕ → ℤ) (tag : ℤ) (i : ℕ) : ℤ := if i < n then v i else tag

theorem writeBlocks_withTag (n : ℕ) (v : ℕ → ℤ) (tag : ℤ) (dest : Buffer) :
    writeBlocks 16 (n + 1) (withTag n v tag) dest =
      write (writeBlocks 16 n v dest) (16 * n) tag 16 := by
  have hbelow : writeBlocks 16 n (withTag n v tag) dest = writeBlocks 16 n v dest := by
    refine forRange_congr _ _ _ _ fun i hi b => ?_
    rw [withTag, if_pos hi]
  have hlast : withTag n v tag n = tag := if_neg (Nat.lt_irrefl n)
  rw [writeBlocks, forRange_succ, hlast]
  exact congrArg (fun b => write b (16 * n) tag 16) hbelow

/-! ### Encryption -/

theorem encLoop_eq (c₀ m ad : Buffer) (mlen adlen n : ℕ) (hn : n ≤ mlen / 15) :
    forRange n (encStep S m) ⟨macRun S (adValues ad adlen), S.eK1, c₀⟩ =
      ⟨macRun S (macValues ad adlen n (cipherValue S m mlen)), counter S.eK1 n,
        writeBlocks 16 n (cipherValue S m mlen) c₀⟩ := by
  induction n with
  | zero =>
    rw [macValues, List.range_zero, List.map_nil, List.append_nil]
    rfl
  | succ n ih =>
    have hpiece := pieceValue_of_whole m mlen n (by omega)
    rw [forRange_succ, ih (by omega), macRun_macValues_succ, cipherValue, hpiece]
    simp only [encStep, writeBlocks, forRange_succ, cipherValue, hpiece]
    rfl

/- What `encrypt` leaves behind: the blocks, the tag, and the recorded inputs. -/
theorem ppmacEncrypt_eq (c₀ m : Buffer) (mlen : ℕ) (ad : Buffer) (adlen : ℕ) (npub k : Buffer) :
    let S := aeadSetup npub k
    let v := cipherValue S m mlen
    let values := macValues ad adlen (pieces mlen) v
    ppmacEncrypt c₀ m mlen ad adlen npub k =
      ⟨0, writeBlocks 16 (pieces mlen + 1) (withTag (pieces mlen) v (tagOf S values)) c₀,
        (macRun S values).inputs⟩ := by
  intro S v values
  have hloop := encLoop_eq S c₀ m ad mlen adlen (mlen / 15) (Nat.le_refl _)
  have htag : tagOf S values = finalizeTag S (macRun S values) := rfl
  simp only [ppmacEncrypt]
  rw [ppmacAd_eq, hloop, writeBlocks_withTag, htag]
  by_cases htail : mlen % 15 = 0
  · have hpieces := pieces_of_whole mlen htail
    simp only [htail, ne_eq, not_true_eq_false, if_false, values, hpieces, Nat.mul_comm 16]
    rfl
  · have hpieces := pieces_of_tail mlen htail
    have hvalues : macRun S values =
        macStep S (macRun S (macValues ad adlen (mlen / 15) v)) (v (mlen / 15)) := by
      simp only [values, hpieces]
      exact macRun_macValues_succ S ad adlen (mlen / 15) v
    have hoff : 16 * (mlen / 15 + 1) = mlen / 15 * 16 + 16 := by omega
    have hoff' : 16 * (mlen / 15) = mlen / 15 * 16 := Nat.mul_comm _ _
    rw [hvalues, hpieces]
    simp only [htail, ne_eq, not_false_eq_true, if_true, encTail, v, cipherValue,
      pieceValue_of_tail, writeBlocks, forRange_succ, hoff, hoff']
    rfl

/-! ### Decryption -/

theorem decLoop_eq (m₀ c ad : Buffer) (adlen n : ℕ) :
    let v := fun i => read c (16 * i) 16
    forRange n (decStep S c) ⟨macRun S (adValues ad adlen), S.eK1, m₀⟩ =
      ⟨macRun S (macValues ad adlen n v), counter S.eK1 n,
        writeBlocks 15 n (fun i => modSub (v i) (keystream S i)) m₀⟩ := by
  intro v
  induction n with
  | zero =>
    rw [macValues, List.range_zero, List.map_nil, List.append_nil]
    rfl
  | succ n ih =>
    rw [forRange_succ, ih, macRun_macValues_succ]
    rfl

theorem ppmacDecrypt_eq (m₀ c : Buffer) (n : ℕ) (ad : Buffer) (adlen : ℕ) (npub k : Buffer) :
    let S := aeadSetup npub k
    let v := fun i => read c (16 * i) 16
    let values := macValues ad adlen n v
    ppmacDecrypt m₀ c (16 * n + 16) ad adlen npub k =
      ⟨if tagOf S values = read c (16 * n) 16 then 0 else -1,
        writeBlocks 15 n (fun i => modSub (v i) (keystream S i)) m₀,
        (macRun S values).inputs⟩ := by
  intro S v values
  have hblocks : 16 * n / 16 = n := by omega
  have hloop := decLoop_eq S m₀ c ad adlen n
  simp only [ppmacDecrypt, minus16_add, hblocks]
  rw [ppmacAd_eq, hloop]
  rfl

/-! ### Values that fit -/

theorem cipherValue_fits (m : Buffer) (mlen i : ℕ) :
    0 ≤ cipherValue S m mlen i ∧ (cipherValue S m mlen i).natAbs < 256^16 :=
  ⟨modAdd_nonneg _ _, natAbs_lt_of_lt_prime _ (modAdd_nonneg _ _) (modAdd_lt _ _)⟩

theorem withTag_fits (n : ℕ) (v : ℕ → ℤ) (values : List ℤ)
    (hv : ∀ i < n, 0 ≤ v i ∧ (v i).natAbs < 256^16) (i : ℕ) :
    0 ≤ withTag n v (tagOf S values) i ∧ (withTag n v (tagOf S values) i).natAbs < 256^16 := by
  unfold withTag
  split_ifs with hi
  · exact hv i hi
  · exact ⟨tagOf_nonneg S values,
      natAbs_lt_of_lt_prime _ (tagOf_nonneg S values) (tagOf_lt S values)⟩

/- An output is compared with a text block by block. -/
theorem output_eq_iff (c₀ text : Buffer) (n : ℕ) (v : ℕ → ℤ) (values : List ℤ)
    (hv : ∀ i < n, 0 ≤ v i ∧ (v i).natAbs < 256^16) :
    (∀ p < 16 * n + 16, writeBlocks 16 (n + 1) (withTag n v (tagOf S values)) c₀ p = text p) ↔
      (∀ i < n, read text (16 * i) 16 = v i) ∧ read text (16 * n) 16 = tagOf S values := by
  have h := writeBlocks_eq_iff 16 (n + 1) (withTag n v (tagOf S values)) c₀ (by decide)
    (fun i _ => withTag_fits S n v values hv i) text
  rw [Nat.mul_succ] at h
  rw [h]
  constructor
  · intro hall
    refine ⟨fun i hi => ?_, ?_⟩
    · rw [hall i (by omega), withTag, if_pos hi]
    · rw [hall n (by omega), withTag, if_neg (Nat.lt_irrefl n)]
  · rintro ⟨hblocks, htag⟩ i hi
    rcases Nat.lt_succ_iff_lt_or_eq.mp hi with hlt | rfl
    · rw [hblocks i hlt, withTag, if_pos hlt]
    · rw [htag, withTag, if_neg (Nat.lt_irrefl i)]

/- A piece below the prime is given back by the difference with its mask. -/
theorem modSub_keystream_iff (x y : ℤ) (i : ℕ) (hx : 0 ≤ x) (hx' : x < prime) (hy : 0 ≤ y)
    (hy' : y < 256^15) : modSub x (keystream S i) = y ↔ modAdd y (keystream S i) = x := by
  have hle : (256 : ℤ)^15 ≤ prime := by decide
  exact modSub_eq_iff x y _ hx hx' hy (by omega)

theorem modSub_cipherValue (m : Buffer) (mlen i : ℕ) :
    modSub (cipherValue S m mlen i) (keystream S i) = pieceValue m mlen i :=
  (modSub_keystream_iff S _ _ i (modAdd_nonneg _ _) (modAdd_lt _ _) (pieceValue_nonneg _ _ _)
    (pieceValue_lt _ _ _)).mpr rfl

end Core

/-! ### Round trip -/

theorem bufferOf_append_zeros (m : List Byte) (n p : ℕ) :
    bufferOf (m ++ List.replicate n 0) p = bufferOf m p := by
  unfold bufferOf
  by_cases hp : p < m.length
  · rw [List.getD_append _ _ _ _ hp]
  · have hle : m.length ≤ p := Nat.not_lt.mp hp
    rw [List.getD_append_right _ _ _ _ hle, List.getD_eq_default _ _ hle,
      List.getD_eq_getElem?_getD, List.getElem?_replicate]
    split_ifs <;> rfl

/- Bytes that are 0 do not count. -/
theorem read_zeros (src : Buffer) (off r n : ℕ) (hrn : r ≤ n)
    (h : ∀ j < n, r ≤ j → src (off + j) = 0) : read src off n = read src off r := by
  have hlt := read_lt src off r
  obtain ⟨v, hv⟩ := Int.eq_ofNat_of_zero_le (read_nonneg src off r)
  rw [hv] at hlt ⊢
  have hv' : v < 256^r := by exact_mod_cast hlt
  have hpow : 256^r ≤ 256^n := Nat.pow_le_pow_right (by decide) hrn
  rw [read_eq_iff src off n v (by omega)]
  intro j hjn
  by_cases hj : j < r
  · exact (read_eq_iff src off r v hv').mp hv j hj
  · have hzero : v / 256^j = 0 := by
      have hle : 256^r ≤ 256^j := Nat.pow_le_pow_right (by decide) (by omega)
      exact Nat.div_eq_of_lt (by omega)
    rw [h j hjn (by omega), leByte, hzero]
    rfl

theorem pieceValue_bufferOf (m : List Byte) (i : ℕ) :
    pieceValue (bufferOf m) m.length i = read (bufferOf m) (15 * i) 15 := by
  refine (read_zeros _ _ _ _ (Nat.min_le_left _ _) fun j hj15 hj => ?_).symm
  exact List.getD_eq_default _ _ (by omega)

theorem length_le_pieces (len : ℕ) : len ≤ 15 * pieces len := by
  unfold pieces
  omega

/- What decryption makes of the blocks of a message: its pieces, and nothing behind them. -/
theorem unmasked_text (S : Setup) (m₀ c : Buffer) (m : List Byte) (hblocks : ∀ i < pieces m.length,
    read c (16 * i) 16 = cipherValue S (bufferOf m) m.length i) :
    let n := pieces m.length
    let out := writeBlocks 15 n (fun i => modSub (read c (16 * i) 16) (keystream S i)) m₀
    bytesOf out (15 * n) = m ++ List.replicate (15 * n - m.length) 0 ∧
      ∀ p, 15 * n ≤ p → out p = m₀ p := by
  intro n out
  have hpiece : ∀ i < n, modSub (read c (16 * i) 16) (keystream S i) =
      pieceValue (bufferOf m) m.length i := by
    intro i hi
    rw [hblocks i hi]
    exact modSub_cipherValue S _ _ i
  have hfits : ∀ i < n, 0 ≤ modSub (read c (16 * i) 16) (keystream S i) ∧
      (modSub (read c (16 * i) 16) (keystream S i)).natAbs < 256^15 := by
    intro i hi
    have hnonneg := pieceValue_nonneg (bufferOf m) m.length i
    have hlt := pieceValue_lt (bufferOf m) m.length i
    rw [hpiece i hi]
    exact ⟨hnonneg, by omega⟩
  constructor
  · have hlen : (m ++ List.replicate (15 * n - m.length) 0).length = 15 * n := by
      have hle := length_le_pieces m.length
      rw [List.length_append, List.length_replicate]
      exact Nat.add_sub_cancel' hle
    have hbytes := bytesOf_eq_iff out (m ++ List.replicate (15 * n - m.length) 0)
    rw [hlen] at hbytes
    rw [hbytes, writeBlocks_eq_iff 15 n _ m₀ (by decide) hfits]
    intro i hi
    rw [hpiece i hi, pieceValue_bufferOf]
    exact read_congr _ _ _ _ _ fun j _ => bufferOf_append_zeros _ _ _
  · intro p hp
    have h := writeBlocks_apply 15 n _ m₀ (by decide) (fun i hi => (hfits i hi).2) p
    rwa [if_neg (by omega)] at h

/-- Decrypting what was written accepts, and gives the message with its last piece
filled up with zeros. Neither function writes past its blocks. -/
theorem ppmac_round_trip (c₀ m₀ npub k : Buffer) (ad m : List Byte) :
    let n := pieces m.length
    let enc := ppmacEncrypt c₀ (bufferOf m) m.length (bufferOf ad) ad.length npub k
    let dec := ppmacDecrypt m₀ enc.c (16 * n + 16) (bufferOf ad) ad.length npub k
    enc.ret = 0 ∧ dec.ret = 0 ∧
      bytesOf dec.m (15 * n) = m ++ List.replicate (15 * n - m.length) 0 ∧
      (∀ p, 16 * n + 16 ≤ p → enc.c p = c₀ p) ∧ ∀ p, 15 * n ≤ p → dec.m p = m₀ p := by
  intro n enc dec
  let S := aeadSetup npub k
  let v := cipherValue S (bufferOf m) m.length
  let values := macValues (bufferOf ad) ad.length n v
  have henc : enc = ⟨0, writeBlocks 16 (n + 1) (withTag n v (tagOf S values)) c₀,
      (macRun S values).inputs⟩ := ppmacEncrypt_eq c₀ _ _ _ _ npub k
  have hfits : ∀ i < n, 0 ≤ v i ∧ (v i).natAbs < 256^16 := fun i _ => cipherValue_fits S _ _ i
  obtain ⟨hblocks, htag⟩ := (output_eq_iff S c₀ enc.c n v values hfits).mp fun p _ => by rw [henc]
  have hdec : dec = ⟨if tagOf S values = read enc.c (16 * n) 16 then 0 else -1,
      writeBlocks 15 n (fun i => modSub (read enc.c (16 * i) 16) (keystream S i)) m₀,
      (macRun S values).inputs⟩ := by
    have hvalues := macValues_congr (bufferOf ad) ad.length n _ v hblocks
    have h := ppmacDecrypt_eq m₀ enc.c n (bufferOf ad) ad.length npub k
    simp only at hvalues h
    rwa [hvalues] at h
  obtain ⟨htext, hkept⟩ := unmasked_text S m₀ enc.c m hblocks
  refine ⟨by rw [henc], by rw [hdec, if_pos htag.symm], ?_, fun p hp => ?_, fun p hp => ?_⟩
  · rw [hdec]
    exact htext
  · rw [henc]
    have h := writeBlocks_apply 16 (n + 1) (withTag n v (tagOf S values)) c₀ (by decide)
      (fun i _ => (withTag_fits S n v values hfits i).2) p
    rwa [if_neg (by omega)] at h
  · rw [hdec]
    exact hkept p hp

/-! ### Accepted byte strings -/

def ppmacCiphertext (npub k : Buffer) (ad m : List Byte) : List Byte :=
  bytesOf (ppmacEncrypt (fun _ => 0) (bufferOf m) m.length (bufferOf ad) ad.length npub k).c
    (16 * pieces m.length + 16)

theorem ppmacCiphertext_eq_iff (npub k : Buffer) (ad m c : List Byte) (n : ℕ)
    (hlen : c.length = 16 * n + 16) :
    let S := aeadSetup npub k
    ppmacCiphertext npub k ad m = c ↔ pieces m.length = n ∧
      (∀ i < n, read (bufferOf c) (16 * i) 16 = cipherValue S (bufferOf m) m.length i) ∧
      read (bufferOf c) (16 * n) 16 = tagOf S
        (macValues (bufferOf ad) ad.length n (cipherValue S (bufferOf m) m.length)) := by
  intro S
  have hlength : (ppmacCiphertext npub k ad m).length = 16 * pieces m.length + 16 :=
    length_bytesOf _ _
  by_cases hn : pieces m.length = n
  · have hbytes := bytesOf_eq_iff (ppmacEncrypt (fun _ => 0) (bufferOf m) m.length (bufferOf ad)
      ad.length npub k).c c
    rw [hlen] at hbytes
    rw [ppmacCiphertext, hn, hbytes, ppmacEncrypt_eq, hn,
      output_eq_iff S _ _ n _ _ fun i _ => cipherValue_fits S _ _ i]
    exact (and_iff_right rfl).symm
  · refine iff_of_false (fun h => hn ?_) fun h => hn h.1
    rw [h, hlen] at hlength
    omega

theorem accepted_iff (m₀ npub k : Buffer) (ad c : List Byte) (n : ℕ)
    (hlen : c.length = 16 * n + 16) :
    let S := aeadSetup npub k
    (ppmacDecrypt m₀ (bufferOf c) c.length (bufferOf ad) ad.length npub k).ret = 0 ↔
      read (bufferOf c) (16 * n) 16 = tagOf S
        (macValues (bufferOf ad) ad.length n fun i => read (bufferOf c) (16 * i) 16) := by
  intro S
  let tag := tagOf S (macValues (bufferOf ad) ad.length n fun i => read (bufferOf c) (16 * i) 16)
  have hneg : (-1 : Int) ≠ 0 := by decide
  have hdec : (ppmacDecrypt m₀ (bufferOf c) c.length (bufferOf ad) ad.length npub k).ret =
      if tag = read (bufferOf c) (16 * n) 16 then 0 else -1 := by
    rw [hlen, ppmacDecrypt_eq]
  rw [hdec]
  by_cases h : tag = read (bufferOf c) (16 * n) 16
  · rw [if_pos h]
    exact iff_of_true rfl h.symm
  · rw [if_neg h]
    exact iff_of_false hneg fun h' => h h'.symm

/-- The blocks of `c` are the numbers that encryption writes: below the prime, and
15 bytes after unmasking. -/
def BlocksGenuine (S : Setup) (n : ℕ) (c : Buffer) : Prop :=
  ∀ i < n, read c (16 * i) 16 < prime ∧ modSub (read c (16 * i) 16) (keystream S i) < 256^15

theorem genuine_iff (m₀ npub k : Buffer) (ad c : List Byte) (n : ℕ)
    (hlen : c.length = 16 * n + 16)
    (hret : (ppmacDecrypt m₀ (bufferOf c) c.length (bufferOf ad) ad.length npub k).ret = 0) :
    (∃ m, ppmacCiphertext npub k ad m = c) ↔
      BlocksGenuine (aeadSetup npub k) n (bufferOf c) := by
  let S := aeadSetup npub k
  have htag := (accepted_iff m₀ npub k ad c n hlen).mp hret
  constructor
  · rintro ⟨m, hm⟩ i hi
    obtain ⟨_, hblocks, _⟩ := (ppmacCiphertext_eq_iff npub k ad m c n hlen).mp hm
    rw [hblocks i hi, modSub_cipherValue]
    exact ⟨modAdd_lt _ _, pieceValue_lt _ _ _⟩
  · intro h
    -- the message is what the blocks unmask to
    let x := fun i => modSub (read (bufferOf c) (16 * i) 16) (keystream S i)
    let m := bytesOf (writeBlocks 15 n x fun _ => 0) (15 * n)
    have hmlen : m.length = 15 * n := length_bytesOf _ _
    have hpieces : pieces m.length = n := by
      rw [hmlen]
      unfold pieces
      omega
    have hfits : ∀ i < n, 0 ≤ x i ∧ (x i).natAbs < 256^15 := by
      intro i hi
      have hnonneg : 0 ≤ x i := modSub_nonneg _ _
      have hlt : x i < 256^15 := (h i hi).2
      exact ⟨hnonneg, by omega⟩
    have hpiece : ∀ i < n, pieceValue (bufferOf m) m.length i = x i := by
      have hread := (writeBlocks_eq_iff 15 n x (fun _ => 0) (by decide) hfits (bufferOf m)).mp
        fun p hp => (bufferOf_bytesOf _ _ p hp).symm
      intro i hi
      rw [pieceValue_bufferOf, hread i hi]
    have hblocks : ∀ i < n, read (bufferOf c) (16 * i) 16 =
        cipherValue S (bufferOf m) m.length i := by
      intro i hi
      have hunmask := modSub_keystream_iff S (read (bufferOf c) (16 * i) 16) (x i) i
        (read_nonneg _ _ _) (h i hi).1 (hfits i hi).1 (h i hi).2
      rw [cipherValue, hpiece i hi]
      exact (hunmask.mp rfl).symm
    refine ⟨m, (ppmacCiphertext_eq_iff npub k ad m c n hlen).mpr ⟨hpieces, hblocks, ?_⟩⟩
    rw [htag, macValues_congr (bufferOf ad) ad.length n _ _ hblocks]

/-- An accepted byte string is the output of an encryption exactly when each of its
blocks is a number below the prime of which unmasking leaves 15 bytes. -/
theorem ppmac_accepted_genuine_iff (m₀ npub k : Buffer) (ad c : List Byte) (n : ℕ)
    (hlen : c.length = 16 * n + 16)
    (hret : (ppmacDecrypt m₀ (bufferOf c) c.length (bufferOf ad) ad.length npub k).ret = 0) :
    (∃ m, ppmacCiphertext npub k ad m = c) ↔ ∀ i < n,
      read (bufferOf c) (16 * i) 16 < prime ∧
        modSub (read (bufferOf c) (16 * i) 16) (keystream (aeadSetup npub k) i) < 256^15 :=
  genuine_iff m₀ npub k ad c n hlen hret

/-- A ciphertext of 15 zero bytes whose first block is written with the prime added. -/
def forgedCiphertext : List Byte :=
  [0x5b, 0x19, 0xba, 0x11, 0x1d, 0x49, 0xac, 0x90, 0x0e, 0x57, 0xf6, 0x7a, 0x4a, 0xa6, 0xe3, 0xbd,
    0x42, 0xc8, 0x11, 0x34, 0x85, 0xb4, 0x37, 0x4c, 0x74, 0x67, 0xfc, 0x77, 0xe9, 0xa3, 0xd1, 0x03]

theorem forgedCiphertext_accepted :
    let zero : Buffer := fun _ => 0
    (ppmacDecrypt zero (bufferOf forgedCiphertext) forgedCiphertext.length (bufferOf []) 0 zero
      zero).ret = 0 := by
  decide +kernel

theorem ppmac_accepted_genuine_iff_example :
    let zero : Buffer := fun _ => 0
    (∃ m, ppmacCiphertext zero zero [] m = forgedCiphertext) ↔ ∀ i < 1,
      read (bufferOf forgedCiphertext) (16 * i) 16 < prime ∧
        modSub (read (bufferOf forgedCiphertext) (16 * i) 16)
          (keystream (aeadSetup zero zero) i) < 256^15 :=
  ppmac_accepted_genuine_iff _ _ _ [] forgedCiphertext 1 rfl forgedCiphertext_accepted

theorem ppmac_accepts_forgery :
    let zero : Buffer := fun _ => 0
    (ppmacDecrypt zero (bufferOf forgedCiphertext) forgedCiphertext.length (bufferOf []) 0 zero
      zero).ret = 0 ∧
    ¬ ∃ m, ppmacCiphertext zero zero [] m = forgedCiphertext := by
  intro zero
  refine ⟨forgedCiphertext_accepted, fun h => ?_⟩
  have hblocks := (genuine_iff zero zero zero [] forgedCiphertext 1 rfl
    forgedCiphertext_accepted).mp h
  exact absurd (hblocks 0 (by decide)).1 (by decide +kernel)

end Pobc.Mimc
