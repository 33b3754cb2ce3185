import Pobc.Lib.PermSum
import Pobc.Iot.AesPobc
import Mathlib.Algebra.BigOperators.Intervals

/-!
# When two inputs of AES-POBC share their tag under every cipher

In byte column `j` the tag is `E(nonce)` plus the masks of the blocks that
reach the column plus the data bytes themselves. The data never enters the
cipher, so two pairs of associated data and ciphertext are told apart by some
cipher only where they use different sets of masks or differ in the XOR of a
column. The two mask families lie on one counter run, `familyGap` steps apart.
-/

namespace Pobc.Iot
open Pobc.PermSum

/-- One call on byte strings under the cipher `E`: ciphertext and tag. -/
def pobcEncrypt (order : ByteOrder) (E : Block → Block) (npub : Nonce) (ad m : List Byte) :
    List Byte × Block :=
  let out := aesPobcEncrypt order (Mbedtls.ofCipher E) (fun _ => 0) zeroBlock (bufferOf m) m.length
    (bufferOf ad) ad.length npub zeroBlock
  (bytesOf out.c m.length, out.tag)

def tagColumn (order : ByteOrder) (E : Block → Block) (npub : Nonce) (ad c : List Byte)
    (j : Fin 16) : AesField :=
  lane (E (nonceBlock npub) j) + columnSum order E 0x60 (bufferOf ad) ad.length j +
    columnSum order E 0x40 (bufferOf c) c.length j

theorem pobcEncrypt_fst (order : ByteOrder) (E : Block → Block) (npub : Nonce) (ad m : List Byte) :
    (pobcEncrypt order E npub ad m).1 =
      xorStream (ctrStream (nonceIncr order) E (streamStart npub)) m := by
  have hspec := aesPobcEncrypt_spec order (Mbedtls.ofCipher E) (fun _ => 0) zeroBlock (bufferOf m)
    m.length (bufferOf ad) ad.length npub zeroBlock rfl
  refine bytesOf_congr _ _ _ fun p hp => ?_
  rw [hspec.2.1 p, if_pos hp]
  rfl

theorem pobcEncrypt_snd (order : ByteOrder) (E : Block → Block) (npub : Nonce) (ad m : List Byte)
    (j : Fin 16) : lane ((pobcEncrypt order E npub ad m).2 j) =
      tagColumn order E npub ad (pobcEncrypt order E npub ad m).1 j := by
  have hspec := aesPobcEncrypt_spec order (Mbedtls.ofCipher E) (fun _ => 0) zeroBlock (bufferOf m)
    m.length (bufferOf ad) ad.length npub zeroBlock rfl
  have htag := hspec.2.2.1 j
  have hc : columnSum order E 0x40 (aesPobcEncrypt order (Mbedtls.ofCipher E) (fun _ => 0) zeroBlock
      (bufferOf m) m.length (bufferOf ad) ad.length npub zeroBlock).c m.length j =
      columnSum order E 0x40 (bufferOf (pobcEncrypt order E npub ad m).1) m.length j :=
    columnSum_congr order E 0x40 _ _ m.length j fun p hp => (bufferOf_bytesOf _ _ p hp).symm
  have hlen : (pobcEncrypt order E npub ad m).1.length = m.length := length_bytesOf _ _
  simp only [tagColumn, hlen, ← hc]
  exact htag

/-- For every cipher and ciphertext exactly one message encrypts to it, so the
ciphertext fixes the tag. -/
theorem exists_message (order : ByteOrder) (E : Block → Block) (npub : Nonce) (ad c : List Byte) :
    ∃ m t, pobcEncrypt order E npub ad m = (c, t) := by
  let ks := ctrStream (nonceIncr order) E (streamStart npub)
  refine ⟨xorStream ks c, (pobcEncrypt order E npub ad (xorStream ks c)).2, ?_⟩
  apply Prod.ext
  · rw [pobcEncrypt_fst, xorStream_xorStream]
  · rfl

theorem tag_eq_iff (order : ByteOrder) (E : Block → Block) (npub : Nonce)
    (ad c m ad' c' m' : List Byte) (t t' : Block) (h : pobcEncrypt order E npub ad m = (c, t))
    (h' : pobcEncrypt order E npub ad' m' = (c', t')) :
    t = t' ↔ ∀ j, tagColumn order E npub ad c j = tagColumn order E npub ad' c' j := by
  have ht : ∀ j, lane (t j) = tagColumn order E npub ad c j := fun j => by
    have hj := pobcEncrypt_snd order E npub ad m j
    rwa [h] at hj
  have ht' : ∀ j, lane (t' j) = tagColumn order E npub ad' c' j := fun j => by
    have hj := pobcEncrypt_snd order E npub ad' m' j
    rwa [h'] at hj
  constructor
  · intro heq j
    rw [← ht, ← ht', heq]
  · intro hcols
    funext j
    exact lane_inj (by rw [ht, ht', hcols])

/-! ### Masks on one counter run -/

/-- Increments from the first ciphertext mask block (prefix 0x40) to the first
associated-data mask block (prefix 0x60). The prefix is byte 12, the lowest byte
of the counter word on a little-endian machine and the highest on a big-endian one. -/
def familyGap : ByteOrder → ℕ
  | .little => 2^5
  | .big => 2^29

theorem maskStart_gap (order : ByteOrder) :
    maskStart 0x60 = (nonceIncr order)^[familyGap order] (maskStart 0x40) := by
  apply counterVal_inj order
  rw [counterVal_iterate]
  cases order <;> decide

/-- Byte `j` of the `i`-th mask of the common run. -/
def maskLane (order : ByteOrder) (E : Block → Block) (j : Fin 16) (i : ℕ) : AesField :=
  lane (E ((nonceIncr order)^[i] (maskStart 0x40)) j)

def columnXor (data : List Byte) (j : Fin 16) : AesField :=
  ∑ b ∈ Finset.range (columnBlocks data.length j), lane (bufferOf data (b * 16 + j))

/-- Positions on the common run of the masks that stay in column `j`: a mask used
for both the associated data and the ciphertext cancels. -/
def maskSet (order : ByteOrder) (ad c : List Byte) (j : Fin 16) : Finset ℕ :=
  symmDiff (Finset.Ico (familyGap order) (familyGap order + columnBlocks ad.length j))
    (Finset.range (columnBlocks c.length j))

theorem columnSum_ad (order : ByteOrder) (E : Block → Block) (ad : List Byte) (j : Fin 16) :
    columnSum order E 0x60 (bufferOf ad) ad.length j =
      ∑ i ∈ Finset.Ico (familyGap order) (familyGap order + columnBlocks ad.length j),
        maskLane order E j i + columnXor ad j := by
  rw [columnSum, Finset.sum_add_distrib, Finset.sum_Ico_eq_sum_range, Nat.add_sub_cancel_left]
  congr 1
  refine Finset.sum_congr rfl fun b _ => ?_
  rw [maskLane, maskStart_gap order, ← Function.iterate_add_apply, Nat.add_comm b]

theorem columnSum_c (order : ByteOrder) (E : Block → Block) (c : List Byte) (j : Fin 16) :
    columnSum order E 0x40 (bufferOf c) c.length j =
      ∑ i ∈ Finset.range (columnBlocks c.length j), maskLane order E j i + columnXor c j := by
  rw [columnSum, Finset.sum_add_distrib]
  rfl

theorem tagColumn_eq (order : ByteOrder) (E : Block → Block) (npub : Nonce) (ad c : List Byte)
    (j : Fin 16) : tagColumn order E npub ad c j = lane (E (nonceBlock npub) j) +
      (∑ i ∈ maskSet order ad c j, maskLane order E j i + (columnXor ad j + columnXor c j)) := by
  rw [tagColumn, columnSum_ad, columnSum_c, maskSet, ← sum_add_sum_eq_symmDiff Gf.add_self]
  abel

theorem tagColumn_eq_iff (order : ByteOrder) (E : Block → Block) (npub : Nonce)
    (ad c ad' c' : List Byte) (j : Fin 16) :
    tagColumn order E npub ad c j = tagColumn order E npub ad' c' j ↔
      ∑ i ∈ symmDiff (maskSet order ad c j) (maskSet order ad' c' j), maskLane order E j i =
        (columnXor ad j + columnXor c j) + (columnXor ad' j + columnXor c' j) := by
  rw [tagColumn_eq, tagColumn_eq, add_right_inj, ← sum_add_sum_eq_symmDiff Gf.add_self]
  set S := ∑ i ∈ maskSet order ad c j, maskLane order E j i
  set S' := ∑ i ∈ maskSet order ad' c' j, maskLane order E j i
  set X := columnXor ad j + columnXor c j
  set X' := columnXor ad' j + columnXor c' j
  exact Gf.add_eq_add_iff S X S' X'

/-! ### The pairs no cipher tells apart -/

/-- The mask counts of two pairs leave the same masks in a column: `a`, `a'`
blocks of associated data and `n`, `n'` blocks of ciphertext. -/
def SameMasks (gap a n a' n' : ℕ) : Prop :=
  (a = a' ∧ n = n') ∨ (n = gap + a ∧ n' = gap + a') ∨ (n = gap + a' ∧ n' = gap + a)

def ColumnCollides (order : ByteOrder) (ad c ad' c' : List Byte) (j : Fin 16) : Prop :=
  SameMasks (familyGap order) (columnBlocks ad.length j) (columnBlocks c.length j)
    (columnBlocks ad'.length j) (columnBlocks c'.length j) ∧
  columnXor ad j + columnXor c j = columnXor ad' j + columnXor c' j

theorem mem_maskSet (order : ByteOrder) (ad c : List Byte) (j : Fin 16) (i : ℕ) :
    i ∈ maskSet order ad c j ↔
      ((familyGap order ≤ i ∧ i < familyGap order + columnBlocks ad.length j) ∧
        ¬ i < columnBlocks c.length j) ∨
      (i < columnBlocks c.length j ∧
        ¬ (familyGap order ≤ i ∧ i < familyGap order + columnBlocks ad.length j)) := by
  simp only [maskSet, Finset.mem_symmDiff, Finset.mem_Ico, Finset.mem_range]

theorem Ico_eq_Ico_iff (p q r s : ℕ) (hpq : p ≤ q) (hrs : r ≤ s) :
    Finset.Ico p q = Finset.Ico r s ↔ (p = r ∧ q = s) ∨ (p = q ∧ r = s) := by
  constructor
  · intro heq
    have hmem (i : ℕ) : i ∈ Finset.Ico p q ↔ i ∈ Finset.Ico r s := by rw [heq]
    simp only [Finset.mem_Ico] at hmem
    have h1 := hmem p
    have h2 := hmem r
    have h3 := hmem (q - 1)
    have h4 := hmem (s - 1)
    omega
  · rintro (⟨rfl, rfl⟩ | ⟨rfl, rfl⟩)
    · rfl
    · rw [Finset.Ico_self, Finset.Ico_self]

theorem symmDiff_Ico (g a a' : ℕ) :
    symmDiff (Finset.Ico g (g + a)) (Finset.Ico g (g + a')) =
      Finset.Ico (g + min a a') (g + max a a') := by
  ext i
  simp only [Finset.mem_symmDiff, Finset.mem_Ico]
  rcases Nat.le_total a a' with h | h
  · rw [Nat.min_eq_left h, Nat.max_eq_right h]
    omega
  · rw [Nat.min_eq_right h, Nat.max_eq_left h]
    omega

theorem symmDiff_range (n n' : ℕ) :
    symmDiff (Finset.range n) (Finset.range n') = Finset.Ico (min n n') (max n n') := by
  have h := symmDiff_Ico 0 n n'
  simpa only [Nat.zero_add, ← Finset.range_eq_Ico] using h

/- Cancelling the common masks leaves one interval for each family; the pairs
use the same masks when the two intervals coincide. -/
theorem maskSet_eq_iff (order : ByteOrder) (ad c ad' c' : List Byte) (j : Fin 16) :
    maskSet order ad c j = maskSet order ad' c' j ↔
      SameMasks (familyGap order) (columnBlocks ad.length j) (columnBlocks c.length j)
        (columnBlocks ad'.length j) (columnBlocks c'.length j) := by
  rw [← symmDiff_eq_bot, maskSet, maskSet, symmDiff_symmDiff_symmDiff_comm, symmDiff_eq_bot,
    symmDiff_Ico, symmDiff_range, Ico_eq_Ico_iff _ _ _ _ (by omega) (by omega), SameMasks]
  omega

/- Buffers have fewer than 2^64 bytes, so the run of masks never closes. -/
theorem maskSet_lt (order : ByteOrder) (ad c : List Byte) (j : Fin 16) (had : ad.length < 2^64)
    (hc : c.length < 2^64) (i : ℕ) (hi : i ∈ maskSet order ad c j) : i < 2^64 := by
  have hgap : familyGap order ≤ 2^29 := by cases order <;> decide
  rw [mem_maskSet] at hi
  unfold columnBlocks at hi
  omega

theorem exists_mask_sum_ne (order : ByteOrder) (D : Finset ℕ) (hD : D.Nonempty)
    (hlt : ∀ i ∈ D, i < 2^64) (j : Fin 16) (t : AesField) :
    ∃ E : Equiv.Perm Block, ∑ i ∈ D, maskLane order E j i ≠ t := by
  let mask (i : ℕ) : Block := (nonceIncr order)^[i] (maskStart 0x40)
  have hinj (i k : ℕ) (hi : i < 2^128) (hk : k < 2^128) (h : mask i = mask k) : i = k :=
    iterate_nonceIncr_inj order _ i k hi hk h
  obtain ⟨i₀, hi₀⟩ := hD
  have hout : mask (2^64) ∉ D.image mask := by
    intro h
    obtain ⟨i, hi, heq⟩ := Finset.mem_image.mp h
    have hlti := hlt i hi
    have := hinj i (2^64) (by omega) (by norm_num) heq
    omega
  have hne : ∀ k, lane (zeroBlock k) ≠ lane ((fun _ => 1 : Block) k) := by decide
  obtain ⟨E, hE⟩ := exists_perm_sum_ne (D.image mask) (fun x : Block => lane (x j)) (mask i₀)
    (mask (2^64)) zeroBlock (fun _ => 1) (Finset.mem_image_of_mem mask hi₀) hout (hne j) t
  refine ⟨E, ?_⟩
  rwa [Finset.sum_image fun i hi k hk h => hinj i k (by have := hlt i hi; omega)
    (by have := hlt k hk; omega) h] at hE

theorem columns_differ (order : ByteOrder) (npub : Nonce) (ad c ad' c' : List Byte) (j : Fin 16)
    (had : ad.length < 2^64) (hc : c.length < 2^64) (had' : ad'.length < 2^64)
    (hc' : c'.length < 2^64) (h : ¬ ColumnCollides order ad c ad' c' j) :
    ∃ E : Equiv.Perm Block, tagColumn order E npub ad c j ≠ tagColumn order E npub ad' c' j := by
  simp only [ne_eq, tagColumn_eq_iff]
  by_cases hsame : maskSet order ad c j = maskSet order ad' c' j
  · have hdata : columnXor ad j + columnXor c j ≠ columnXor ad' j + columnXor c' j :=
      fun hd => h ⟨(maskSet_eq_iff order ad c ad' c' j).mp hsame, hd⟩
    refine ⟨Equiv.refl Block, ?_⟩
    rw [hsame, symmDiff_self, Finset.bot_eq_empty, Finset.sum_empty]
    exact fun hzero => hdata ((Gf.add_eq_zero_iff _ _).mp hzero.symm)
  · have hnonempty : (symmDiff (maskSet order ad c j) (maskSet order ad' c' j)).Nonempty :=
      Finset.symmDiff_nonempty.mpr hsame
    refine exists_mask_sum_ne order _ hnonempty ?_ j _
    intro i hi
    rcases Finset.mem_symmDiff.mp hi with ⟨hmem, _⟩ | ⟨hmem, _⟩
    · exact maskSet_lt order ad c j had hc i hmem
    · exact maskSet_lt order ad' c' j had' hc' i hmem

theorem columns_agree (order : ByteOrder) (E : Block → Block) (npub : Nonce)
    (ad c ad' c' : List Byte) (j : Fin 16) (h : ColumnCollides order ad c ad' c' j) :
    tagColumn order E npub ad c j = tagColumn order E npub ad' c' j := by
  rw [tagColumn_eq_iff, (maskSet_eq_iff order ad c ad' c' j).mpr h.1, symmDiff_self,
    Finset.bot_eq_empty, Finset.sum_empty, h.2, Gf.add_self]

def TagsSeparable (order : ByteOrder) (npub : Nonce) (ad c ad' c' : List Byte) : Prop :=
  ∃ E : Equiv.Perm Block, ∃ m m' t t', pobcEncrypt order E npub ad m = (c, t) ∧
    pobcEncrypt order E npub ad' m' = (c', t') ∧ t ≠ t'

/-- Exactly the pairs that collide in all sixteen columns have the same tag under
every cipher. The last lengths below 2^64, on which `datalen + 15` or `i + 16` of the
source wraps around, belong to no buffer in memory. -/
theorem tagsSeparable_iff (order : ByteOrder) (npub : Nonce) (ad c ad' c' : List Byte)
    (had : ad.length < 2^64) (hc : c.length < 2^64) (had' : ad'.length < 2^64)
    (hc' : c'.length < 2^64) :
    TagsSeparable order npub ad c ad' c' ↔ ∃ j, ¬ ColumnCollides order ad c ad' c' j := by
  constructor
  · rintro ⟨E, m, m', t, t', h, h', hne⟩
    by_contra hall
    simp only [not_exists, not_not] at hall
    exact hne ((tag_eq_iff order E npub ad c m ad' c' m' t t' h h').mpr
      fun j => columns_agree order E npub ad c ad' c' j (hall j))
  · rintro ⟨j, hj⟩
    obtain ⟨E, hE⟩ := columns_differ order npub ad c ad' c' j had hc had' hc' hj
    obtain ⟨m, t, h⟩ := exists_message order E npub ad c
    obtain ⟨m', t', h'⟩ := exists_message order E npub ad' c'
    refine ⟨E, m, m', t, t', h, h', fun heq => ?_⟩
    exact hE ((tag_eq_iff order E npub ad c m ad' c' m' t t' h h').mp heq j)

theorem tagsSeparable_iff_example :
    let npub : Nonce := fun j => BitVec.ofNat 8 (j + 1)
    let ad : List Byte := (List.range 20).map (BitVec.ofNat 8)
    let c : List Byte := (List.range 45).map (BitVec.ofNat 8)
    let c' : List Byte := List.replicate 33 7
    TagsSeparable .little npub ad c ad c' ↔ ∃ j, ¬ ColumnCollides .little ad c ad c' j :=
  tagsSeparable_iff .little (fun j => BitVec.ofNat 8 (j + 1)) ((List.range 20).map (BitVec.ofNat 8))
    ((List.range 45).map (BitVec.ofNat 8)) ((List.range 20).map (BitVec.ofNat 8))
    (List.replicate 33 7) (by decide) (by decide) (by decide) (by decide)

theorem swapped_blocks_collide :
    ¬ TagsSeparable .little (fun _ => 0) [] (List.replicate 16 0 ++ List.replicate 16 1) []
      (List.replicate 16 1 ++ List.replicate 16 0) := by
  rintro ⟨E, m, m', t, t', h, h', hne⟩
  refine hne ((tag_eq_iff .little E (fun _ => 0) _ _ m _ _ m' t t' h h').mpr fun j => ?_)
  refine columns_agree .little E (fun _ => 0) _ _ _ _ j ⟨Or.inl ⟨rfl, rfl⟩, ?_⟩
  revert j
  decide

end Pobc.Iot
