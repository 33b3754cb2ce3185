import Pobc.Iot.PmacMasks
import Pobc.Iot.PmacRoundTrip
import Pobc.Mpc.AesModes

/-!
# The parts of AES-CTR-PMAC against each other

`double` in the circuit adds a cell to itself where `gf128_double` shifts it, and
the sum is zero: what is left of a block are the bits that its bytes carry. The
counter is parsed with the powers of two of four bits where four bytes are meant.
-/

namespace Pobc.Interop
open Pobc.Iot Pobc.Mpc Pobc.Mode Function
open Pobc.Gcm (bitString getLsbD_bitString)

/-! ### Doubling in the circuit -/

theorem byteAt_double (block : Fin 16 → Gf2n) (i : ℕ) (hi : i < 16) : byteAt (double block) i =
    if i < 15 then (bitDecompose 8 (byteAt block (i + 1))).getD 7 0
    else cgf2n 0x87 * (bitDecompose 8 (byteAt block 0)).getD 7 0 := by
  obtain ⟨hcarry, hbytes⟩ := byteAt_carryLoop block (fun _ => 0) (cgf2n 0)
    (fun b carry => (b + b) + carry) fun b => (bitDecompose 8 b).getD 7 0
  rw [double]
  by_cases h15 : i < 15
  · rw [if_pos h15, byteAt_setByte_of_ne _ _ _ _ hi (Nat.ne_of_lt h15), hbytes i hi, if_pos h15,
      Gf.add_self, zero_add]
  · have hlast : i = 15 := by omega
    have hzero : cgf2n 0 = 0 := rfl
    rw [if_neg h15, hlast, byteAt_setByte_self _ _ _ (by omega), hbytes 15 (by omega), hcarry,
      if_neg (Nat.lt_irrefl 15), Gf.add_self, hzero, add_zero, zero_add]

/-- What `double` leaves of a block of bytes. -/
def carryBlock (L : Block) : Block := fun j =>
  if j.val < 15 then byteAt L (j.val + 1) >>> 7 else (0x87 : Byte) * (byteAt L 0 >>> 7)

theorem msbCell_raw (b : Byte) : (bitDecompose 8 (raw b)).getD 7 0 = raw (b >>> 7) := by
  have htable : ∀ b : Byte, (bitDecompose 8 (raw b)).getD 7 0 = raw (b >>> 7) := by decide +kernel
  exact htable b

theorem topBit_cases (b : Byte) : b >>> 7 = 0 ∨ b >>> 7 = 1 := by
  bv_omega

theorem topBit_shifted (b : Byte) : (b >>> 7) >>> 7 = 0 := by
  bv_omega

theorem reduction_raw (b : Byte) :
    cgf2n 0x87 * raw (b >>> 7) = raw ((0x87 : Byte) * (b >>> 7)) := by
  have hzero : raw 0 = 0 := rfl
  have hone : raw 1 = 1 := rfl
  rcases topBit_cases b with h | h
  · rw [h, hzero, mul_zero]
    rfl
  · rw [h, hone, mul_one]
    rfl

theorem double_rawBlock (L : Block) : double (rawBlock L) = rawBlock (carryBlock L) := by
  apply block_ext
  intro i hi
  have hcell : ∀ k, byteAt (rawBlock L) k = raw (byteAt L k) := fun _ => rfl
  have hval : byteAt (rawBlock (carryBlock L)) i =
      raw (if i < 15 then byteAt L (i + 1) >>> 7 else (0x87 : Byte) * (byteAt L 0 >>> 7)) := by
    simp only [byteAt, rawBlock, carryBlock, Fin.val_ofNat, Nat.mod_eq_of_lt hi]
  rw [byteAt_double _ i hi, hval, hcell, hcell, msbCell_raw, msbCell_raw, reduction_raw,
    apply_ite raw]

theorem double_iterate (L : Block) (i : ℕ) :
    double^[i] (rawBlock L) = rawBlock (carryBlock^[i] L) := by
  have hround : Semiconj rawBlock carryBlock double := fun L => (double_rawBlock L).symm
  exact ((hround.iterate_right i).eq L).symm

theorem rawBlock_injective : Injective rawBlock := by
  intro x y h
  funext j
  exact raw_injective (congrFun h j)

/-! ### Doubling on both sides -/

theorem shifted_or_one (b : Byte) : b <<< 1 ||| 1 = b <<< 1 ^^^ 1 := by
  apply BitVec.eq_of_getLsbD_eq
  intro k hk
  cases k with
  | zero => simp
  | succ k => simp

/- The circuit drops the seven bits that a shift keeps. -/
theorem byteAt_gf128Double_carry (L : Block) (i : ℕ) (hi : i < 16) :
    byteAt (gf128Double L) i = byteAt L i <<< 1 ^^^ byteAt (carryBlock L) i := by
  have hval : byteAt (carryBlock L) i =
      if i < 15 then byteAt L (i + 1) >>> 7 else (0x87 : Byte) * (byteAt L 0 >>> 7) := by
    simp only [byteAt, carryBlock, Fin.val_ofNat, Nat.mod_eq_of_lt hi]
  rw [byteAt_gf128Double L i hi, hval]
  by_cases h15 : i < 15
  · rw [if_pos h15, if_pos h15]
    rcases topBit_cases (byteAt L (i + 1)) with htop | htop <;> rw [htop]
    · exact BitVec.or_zero.trans BitVec.xor_zero.symm
    · exact shifted_or_one (byteAt L i)
  · have hlast : i = 15 := by omega
    rw [if_neg h15, if_neg h15, hlast]

theorem gf128Double_eq_carry (L : Block) :
    carryBlock L = gf128Double L ↔ ∀ j, L j = 0 ∨ L j = 0x80 := by
  have hbyte : ∀ b d : Byte, d = b <<< 1 ^^^ d ↔ b = 0 ∨ b = 0x80 := by
    intro b d
    have hshift : b <<< 1 = 0 ↔ b = 0 ∨ b = 0x80 := by bv_omega
    have hself : d ^^^ d = 0 := BitVec.xor_self
    rw [← hshift, eq_comm, xor_eq_iff, hself]
  constructor
  · intro h j
    have hj := byteAt_gf128Double_carry L j.val j.isLt
    rw [← h, byteAt_val, byteAt_val] at hj
    exact (hbyte _ _).mp hj
  · intro h
    apply block_ext
    intro i hi
    rw [byteAt_gf128Double_carry L i hi]
    exact (hbyte _ _).mpr (h (Fin.ofNat 16 i))

theorem carryBlock_zeroBlock : carryBlock zeroBlock = zeroBlock := by
  funext j
  have hbyte : ∀ k, byteAt zeroBlock k = 0 := fun _ => rfl
  have hshift : (0 : Byte) >>> 7 = 0 := by decide
  rw [carryBlock, hbyte, hbyte, hshift]
  exact ite_self 0

/- After two steps one bit is left, the top bit of the block. -/
theorem carryBlock_carryBlock (L : Block) : carryBlock (carryBlock L) = fun j =>
    if j.val = 14 then byteAt L 0 >>> 7 else 0 := by
  have hreduced : ((0x87 : Byte) * (byteAt L 0 >>> 7)) >>> 7 = byteAt L 0 >>> 7 := by
    rcases topBit_cases (byteAt L 0) with htop | htop <;> rw [htop] <;> decide
  have hproduct : (0x87 : Byte) * ((byteAt L 1 >>> 7) >>> 7) = 0 := by
    rw [topBit_shifted]
    decide
  funext j
  fin_cases j
  case «14» => exact hreduced
  case «15» => exact hproduct
  all_goals exact topBit_shifted _

theorem carryBlock_three (L : Block) : carryBlock^[3] L = zeroBlock := by
  have htop : byteAt (carryBlock L) 0 >>> 7 = 0 := topBit_shifted (byteAt L 1)
  show carryBlock (carryBlock (carryBlock L)) = zeroBlock
  rw [carryBlock_carryBlock, htop]
  funext j
  exact ite_self 0

theorem gf128Double_iterate_injective (i : ℕ) : Injective gf128Double^[i] := by
  refine Injective.iterate (fun L L' h => maskField_injective ?_) i
  have hfield := congrArg maskField h
  rw [maskField_gf128Double, maskField_gf128Double] at hfield
  exact Gf.mulY_injective (by decide) (2^128 - 1) (by decide) y_round hfield

theorem gf128Double_iterate_zeroBlock (i : ℕ) : gf128Double^[i] zeroBlock = zeroBlock := by
  have hdouble : gf128Double zeroBlock = zeroBlock := by
    apply maskField_injective
    rw [maskField_gf128Double, maskField_zeroBlock]
    rfl
  exact iterate_fixed hdouble i

/- The bit that is left after two steps belongs to no block with that top bit. -/
theorem zeroBlock_of_two (L : Block) (h : carryBlock^[2] L = gf128Double^[2] L) :
    L = zeroBlock := by
  have htwo : carryBlock^[2] L = fun j => if j.val = 14 then byteAt L 0 >>> 7 else 0 :=
    carryBlock_carryBlock L
  rw [htwo] at h
  rcases topBit_cases (byteAt L 0) with hmsb | hmsb
  · have hzero : (fun j : Fin 16 => if j.val = 14 then (0 : Byte) else 0) =
        gf128Double^[2] zeroBlock := by decide +kernel
    rw [hmsb, hzero] at h
    exact (gf128Double_iterate_injective 2 h).symm
  · let source : Block := fun j => if j.val = 15 then 0x40 else 0
    have hone : (fun j : Fin 16 => if j.val = 14 then (1 : Byte) else 0) =
        gf128Double^[2] source := by decide +kernel
    rw [hmsb, hone] at h
    rw [← gf128Double_iterate_injective 2 h] at hmsb
    exact absurd hmsb (by decide)

/-- The mask chains agree from the zero block on and at the start; after one step they
agree where only top bits are set, and after two or more nowhere else. -/
theorem double_iterate_eq_iff (L : Block) (i : ℕ) :
    double^[i] (rawBlock L) = rawBlock (gf128Double^[i] L) ↔
      i = 0 ∨ L = zeroBlock ∨ (i = 1 ∧ ∀ j, L j = 0 ∨ L j = 0x80) := by
  rw [double_iterate, rawBlock_injective.eq_iff]
  constructor
  · intro h
    match i with
    | 0 => exact Or.inl rfl
    | 1 => exact Or.inr (Or.inr ⟨rfl, (gf128Double_eq_carry L).mp h⟩)
    | 2 => exact Or.inr (Or.inl (zeroBlock_of_two L h))
    | n + 3 =>
      have hleft : carryBlock^[n + 3] L = zeroBlock := by
        rw [iterate_add_apply, carryBlock_three]
        exact iterate_fixed carryBlock_zeroBlock n
      rw [hleft, ← gf128Double_iterate_zeroBlock (n + 3)] at h
      exact Or.inr (Or.inl (gf128Double_iterate_injective _ h).symm)
  · rintro (rfl | rfl | ⟨rfl, h⟩)
    · rfl
    · rw [gf128Double_iterate_zeroBlock, iterate_fixed carryBlock_zeroBlock]
    · exact (gf128Double_eq_carry L).mpr h

/-- Sixteen bytes `01` are doubled to zero instead of sixteen bytes `02`. -/
theorem double_drops_bits : ¬ ∀ (L : Block) (i : ℕ),
    double^[i] (rawBlock L) = rawBlock (gf128Double^[i] L) := by
  intro h
  have hbytes := h (fun _ => 1) 1
  rw [double_iterate, rawBlock_injective.eq_iff] at hbytes
  revert hbytes
  decide +kernel

/-! ### Counter mode on both sides -/

/-- `AES` computes `E` on embedded blocks, as far as `InverseEmbedding` sees. -/
def ComputesCipher (AES : (Fin 16 → Gf2n) → Circuit (Fin 16 → Gf2n)) (E : Block → Block) : Prop :=
  ∀ x, ∃ y, unembedBlock y = E x ∧ Returns (AES (embBlock x)) y

/-- What the C routine writes to a fresh buffer, read back by the caller. -/
def iotCtr (E : Block → Block) (counter : Block) (c : List Byte) : Option (List Byte) := do
  let output ← Iot.aesCtrDec E unwritten counter (memoryOf c) c.length
  let bytes ← readBytes output 0 c.length
  return bytesOf bytes c.length

def CtrAgrees (E : Block → Block) (counter : Block) (c : List Byte) : Prop :=
  ∀ AES, ComputesCipher AES E → ∃ out, iotCtr E counter c = some out ∧
    Returns (aesCtrDecWith AES (rawBlock counter) (c.map raw)) (out.map raw)

def OneByteCounter (counter : Block) : Prop :=
  byteAt counter 12 = 0 ∧ byteAt counter 13 = 0 ∧ byteAt counter 14 = 0

instance (counter : Block) : Decidable (OneByteCounter counter) :=
  inferInstanceAs (Decidable (_ ∧ _))

theorem iotCtr_eq (E : Block → Block) (counter : Block) (c : List Byte) :
    iotCtr E counter c = some (xorStream (modesStream E counter) c) := by
  obtain ⟨out, bytes, hout, _, hread, hback⟩ := stream_readback E counter c
  rw [iotCtr, hout, Option.bind_eq_bind, Option.bind_some, hread, Option.bind_eq_bind,
    Option.bind_some, hback]
  rfl

/-! ### The counter that is parsed -/

/- Eleven bits, whatever the four bytes are. -/
theorem parsedCtr_rawBlock (counter : Block) : parsedCtr (rawBlock counter) =
    2^3 * (byteAt counter 12).toNat ^^^ (2^2 * (byteAt counter 13).toNat ^^^
      (2^1 * (byteAt counter 14).toNat ^^^ 2^0 * (byteAt counter 15).toNat)) :=
  parsedCtr_eq (rawBlock counter) (fun i => byteAt counter (12 + i)) fun _ _ => rfl

theorem parsedCtr_lt (counter : Block) : parsedCtr (rawBlock counter) < 2^11 := by
  have h12 := (byteAt counter 12).isLt
  have h13 := (byteAt counter 13).isLt
  have h14 := (byteAt counter 14).isLt
  have h15 := (byteAt counter 15).isLt
  rw [parsedCtr_rawBlock]
  exact Nat.xor_lt_two_pow (by omega) (Nat.xor_lt_two_pow (by omega)
    (Nat.xor_lt_two_pow (by omega) (by omega)))

theorem parsedCtr_eq_iff (counter : Block) :
    parsedCtr (rawBlock counter) = loadWord .big counter ↔ OneByteCounter counter := by
  have h14 := (byteAt counter 14).isLt
  have h15 := (byteAt counter 15).isLt
  have hload : loadWord .big counter = (byteAt counter 12).toNat * 2^24 +
      (byteAt counter 13).toNat * 2^16 + (byteAt counter 14).toNat * 2^8 +
      (byteAt counter 15).toNat := rfl
  have hzero : ∀ b : Byte, b.toNat = 0 → b = 0 := fun b hb => BitVec.eq_of_toNat_eq hb
  constructor
  · intro h
    have hlt := parsedCtr_lt counter
    rw [h, hload] at hlt
    have hb12 : (byteAt counter 12).toNat = 0 := by omega
    have hb13 : (byteAt counter 13).toNat = 0 := by omega
    -- now the third byte is below eight, and its share below one byte
    rw [parsedCtr_rawBlock, hload, hb12, hb13] at h
    have hlt' : 0 * 2^24 + 0 * 2^16 + (byteAt counter 14).toNat * 2^8 +
        (byteAt counter 15).toNat < 2^8 := by
      rw [← h]
      exact Nat.xor_lt_two_pow (by omega) (Nat.xor_lt_two_pow (by omega)
        (Nat.xor_lt_two_pow (by omega) (by omega)))
    exact ⟨hzero _ hb12, hzero _ hb13, hzero _ (by omega)⟩
  · rintro ⟨h12, h13, h14⟩
    rw [parsedCtr_rawBlock, hload, h12, h13, h14]
    simp

/-! ### When the two routines agree -/

/-- Byte `p` of the circuit's keystream. -/
def parsedStream (E : Block → Block) (counter : Block) (p : ℕ) : Byte :=
  byteAt (E (storeWord .big counter ((parsedCtr (rawBlock counter) + p / 16) % 2^32))) (p % 16)

theorem embedded_counterBlock (counter : Block) (w : ℕ) : (fun j : Fin 16 =>
    if j.val < 12 then applyEmbedding (rawBlock counter j)
    else applyEmbedding (valPart w (j.val - 12))) = embBlock (storeWord .big counter w) := by
  have hstore : ∀ j : Fin 16, storeWord .big counter w j =
      if j.val < 12 then counter j else beByte w (j.val - 12) := by
    intro j
    fin_cases j <;> rfl
  funext j
  rw [embBlock, hstore]
  by_cases hj : j.val < 12
  · rw [if_pos hj, if_pos hj, rawBlock, applyEmbedding_raw]
  · rw [if_neg hj, if_neg hj, valPart_eq _ _ (by omega), applyEmbedding_raw]

theorem aesCtrDecWith_returns (AES : (Fin 16 → Gf2n) → Circuit (Fin 16 → Gf2n)) (E : Block → Block)
    (hAES : ComputesCipher AES E) (counter : Block) (c : List Byte) :
    Returns (aesCtrDecWith AES (rawBlock counter) (c.map raw))
      ((xorStream (parsedStream E counter) c).map raw) := by
  refine ctrLoopWith_returns AES _ (fun i =>
    E (storeWord .big counter ((parsedCtr (rawBlock counter) + i) % 2^32))) (fun i => ?_) c
  rw [embedded_counterBlock counter]
  exact hAES _

theorem ctrAgrees_iff_streams (E : Block → Block) (counter : Block) (c : List Byte) :
    CtrAgrees E counter c ↔ ∀ p < c.length, parsedStream E counter p = modesStream E counter p := by
  rw [← xorStream_eq_iff]
  constructor
  · intro h
    have hAES : ComputesCipher (fun s => pure (embBlock (E (unembedBlock s)))) E := by
      intro x
      have hback : embBlock (E (unembedBlock (embBlock x))) = embBlock (E x) := by
        rw [unembedBlock_embBlock]
      refine ⟨_, unembedBlock_embBlock (E x), ?_⟩
      rw [← hback]
      exact returns_pure _
    obtain ⟨out, hout, hreturns⟩ := h _ hAES
    rw [iotCtr_eq, Option.some.injEq] at hout
    have hsame := (aesCtrDecWith_returns _ E hAES counter c ⟨fun _ => false, 0, []⟩).symm.trans
      (hreturns _)
    rw [← hout] at hsame
    exact (List.map_injective_iff.mpr raw_injective) hsame
  · intro h AES hAES
    refine ⟨_, iotCtr_eq E counter c, ?_⟩
    rw [← h]
    exact aesCtrDecWith_returns AES E hAES counter c

/- The two first blocks are one block exactly when the counter is parsed right. -/
theorem firstBlock_eq_iff (counter : Block) :
    storeWord .big counter (parsedCtr (rawBlock counter) % 2^32) =
      storeWord .big counter (loadWord .big counter % 2^32) ↔ OneByteCounter counter := by
  have hparsed : parsedCtr (rawBlock counter) < 2^32 :=
    lt_trans (parsedCtr_lt counter) (by decide)
  have hload := loadWord_lt .big counter
  rw [Nat.mod_eq_of_lt hparsed, Nat.mod_eq_of_lt hload, ← parsedCtr_eq_iff]
  constructor
  · intro h
    have hword := congrArg (loadWord .big) h
    rwa [loadWord_storeWord .big _ _ hparsed, loadWord_storeWord .big _ _ hload] at hword
  · intro h
    rw [h]

theorem firstBlock_parsed (E : Block → Block) (counter : Block) (j : ℕ) (hj : j < 16) :
    parsedStream E counter j =
      byteAt (E (storeWord .big counter (parsedCtr (rawBlock counter) % 2^32))) j := by
  rw [parsedStream, Nat.div_eq_of_lt hj, Nat.mod_eq_of_lt hj, Nat.add_zero]

theorem firstBlock_loaded (E : Block → Block) (counter : Block) (j : ℕ) (hj : j < 16) :
    modesStream E counter j =
      byteAt (E (storeWord .big counter (loadWord .big counter % 2^32))) j := by
  rw [modesStream, Nat.div_eq_of_lt hj, Nat.mod_eq_of_lt hj, Nat.add_zero]

theorem ctrAgrees_of_oneByte (E : Block → Block) (counter : Block) (c : List Byte)
    (h : OneByteCounter counter) : CtrAgrees E counter c := by
  rw [ctrAgrees_iff_streams]
  intro p _
  rw [parsedStream, modesStream, (parsedCtr_eq_iff counter).mpr h]

/- A whole block of an injective cipher shows the counter. -/
theorem ctrAgrees_block_iff (E : Block → Block) (hE : Injective E) (counter : Block) (c : List Byte)
    (hlen : 16 ≤ c.length) : CtrAgrees E counter c ↔ OneByteCounter counter := by
  refine ⟨fun h => ?_, ctrAgrees_of_oneByte E counter c⟩
  rw [ctrAgrees_iff_streams] at h
  have hblock : E (storeWord .big counter (parsedCtr (rawBlock counter) % 2^32)) =
      E (storeWord .big counter (loadWord .big counter % 2^32)) := by
    apply block_ext
    intro j hj
    have hbyte := h j (by omega)
    rwa [firstBlock_parsed _ _ j hj, firstBlock_loaded _ _ j hj] at hbyte
  exact (firstBlock_eq_iff counter).mp (hE hblock)

/- Two blocks have first bytes apart under some permutation. -/
theorem exists_separating (x y : Block) (hxy : x ≠ y) :
    ∃ E : Equiv.Perm Block, byteAt (E x) 0 ≠ byteAt (E y) 0 := by
  let b : Block := fun _ => 1
  let y' := Equiv.swap x zeroBlock y
  have hzero : zeroBlock ≠ b := by decide
  have hy' : zeroBlock ≠ y' := by
    intro h
    have hx : Equiv.swap x zeroBlock x = zeroBlock := Equiv.swap_apply_left _ _
    exact hxy ((Equiv.swap x zeroBlock).injective (hx.trans h))
  refine ⟨(Equiv.swap x zeroBlock).trans (Equiv.swap y' b), ?_⟩
  have hleft : (Equiv.swap x zeroBlock).trans (Equiv.swap y' b) x = zeroBlock := by
    rw [Equiv.trans_apply, Equiv.swap_apply_left, Equiv.swap_apply_of_ne_of_ne hy' hzero]
  have hright : (Equiv.swap x zeroBlock).trans (Equiv.swap y' b) y = b := by
    rw [Equiv.trans_apply]
    exact Equiv.swap_apply_left _ _
  rw [hleft, hright]
  decide

/-- The routines agree for every cipher when there is nothing to encrypt or only the last
counter byte is set; from one block on every single cipher needs that. -/
theorem ctrAgrees_iff (counter : Block) (c : List Byte) :
    ((∀ E : Equiv.Perm Block, CtrAgrees E counter c) ↔ c = [] ∨ OneByteCounter counter) ∧
    ∀ E : Equiv.Perm Block, 16 ≤ c.length → (CtrAgrees E counter c ↔ OneByteCounter counter) := by
  refine ⟨⟨fun h => ?_, ?_⟩, fun E hlen => ctrAgrees_block_iff E E.injective counter c hlen⟩
  · by_contra hnot
    obtain ⟨hne, hcounter⟩ := not_or.mp hnot
    obtain ⟨E, hE⟩ := exists_separating _ _ fun heq => hcounter ((firstBlock_eq_iff counter).mp heq)
    have hbyte := (ctrAgrees_iff_streams E counter c).mp (h E) 0 (List.length_pos_of_ne_nil hne)
    rw [firstBlock_parsed _ _ 0 (by omega), firstBlock_loaded _ _ 0 (by omega)] at hbyte
    exact hE hbyte
  · rintro (rfl | hcounter) E
    · rw [ctrAgrees_iff_streams]
      intro p hp
      exact absurd hp (Nat.not_lt_zero p)
    · exact ctrAgrees_of_oneByte E counter c hcounter

theorem ctrAgrees_iff_example :
    CtrAgrees (Equiv.refl Block) zeroBlock (List.replicate 16 0) ↔ OneByteCounter zeroBlock :=
  (ctrAgrees_iff zeroBlock (List.replicate 16 0)).2 (Equiv.refl Block) (by decide)

/-- AES-128 from counter 256 on: the circuit starts at counter two. -/
theorem counter_misparsed :
    ¬ CtrAgrees (Aes.aes128 zeroBlock) (setByte zeroBlock 14 1) (List.replicate 16 0) := by
  have hcipher : Injective (Aes.aes128 zeroBlock) :=
    Aes.cipher_injective (Aes.keyExpansion zeroBlock)
  rw [ctrAgrees_block_iff _ hcipher _ _ (by decide)]
  decide

end Pobc.Interop
