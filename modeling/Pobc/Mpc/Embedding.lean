import Pobc.Lib.Pad
import Pobc.Mpc.AesGfLong
import Mathlib.Algebra.BigOperators.Ring.List
import Mathlib.Algebra.Ring.Hom.Defs

/-!
# The byte embedding is a field embedding

The table of `ApplyEmbedding`, column by column, is a ring homomorphism from the
field of AES bytes into `GF(2^128)` (`embHom`): it is additive by its shape, and
it sends `x` to a value `β` and multiplication by `x` to multiplication by `β`.
The other tables of the source are then values of this homomorphism.
-/

namespace Pobc.Mpc
open Pobc.Loop Pobc.Aes

/-! ### Additive maps given by their columns -/

/-- The additive map of bytes with value `c j` at bit `j`. -/
def columnsHom (c : ℕ → Gf2n) : AesField →+ Gf2n where
  toFun a := ((List.range 8).map fun j => if a.bits.getLsbD j then c j else 0).sum
  map_zero' := by simp
  map_add' a b := by
    rw [← List.sum_map_add]
    refine congrArg List.sum (List.map_congr_left fun j _ => ?_)
    rw [Gf.bits_add, BitVec.getLsbD_xor]
    cases a.bits.getLsbD j <;> cases b.bits.getLsbD j <;> simp [Gf.add_self]

theorem columnsHom_apply (c : ℕ → Gf2n) (a : AesField) : columnsHom c a =
    ((List.range 8).map fun j => if a.bits.getLsbD j then c j else 0).sum := rfl

theorem ofBit_mul (b : Bool) (x : Gf2n) : ofBit b * x = if b then x else 0 := by
  cases b <;> simp [ofBit]

theorem mul_ofBit (b : Bool) (x : Gf2n) : x * ofBit b = if b then x else 0 := by
  rw [mul_comm, ofBit_mul]

theorem columnsHom_power (c : ℕ → Gf2n) (i : ℕ) (hi : i < 8) :
    columnsHom c (Gf.power 8 0x1b#8 i) = c i := by
  have hbits : ∀ j, (Gf.power 8 0x1b#8 i).bits.getLsbD j = (decide (i < 8) && decide (i = j)) :=
    fun j => BitVec.getLsbD_twoPow i j
  rw [columnsHom_apply]
  simp only [hbits, List.range, List.range.loop]
  have hcases : i = 0 ∨ i = 1 ∨ i = 2 ∨ i = 3 ∨ i = 4 ∨ i = 5 ∨ i = 6 ∨ i = 7 := by omega
  rcases hcases with rfl | rfl | rfl | rfl | rfl | rfl | rfl | rfl <;> simp

def bitsOf (b : Byte) : List Gf2n := (List.range 8).map fun i => ofBit (b.getLsbD i)

/- A row of bits that is right on the basis bytes is a row of an additive map. -/
theorem columnsHom_row (m : Byte → Byte) (hm : ∀ a b, m (a ^^^ b) = m a ^^^ m b) (c : ℕ → Gf2n)
    (row : ℕ) (hbasis : ∀ j < 8, c j = ofBit ((m (BitVec.twoPow 8 j)).getLsbD row)) (b : Byte) :
    columnsHom c (lane b) = ofBit ((m b).getLsbD row) := by
  let rowHom : AesField →+ Gf2n := AddMonoidHom.mk' (fun a => ofBit ((m a.bits).getLsbD row))
    fun x y => by rw [Gf.bits_add, hm, BitVec.getLsbD_xor, ofBit_xor]
  have h : columnsHom c = rowHom := by
    refine Gf.addHom_ext _ _ fun j hj => ?_
    rw [columnsHom_power c j hj, hbasis j hj]
    rfl
  exact DFunLike.congr_fun h (lane b)

/-! ### The embedding -/

def embColumn (j : ℕ) : Gf2n :=
  cgf2n ([0x1, 0xdcb364640a222fe6b8330483c2e9849, 0x3d5bd35c94646a247573da4a5f7710ed,
    0x6d58c4e181f9199f41a12db1f974f3ac, 0xa72ec17764d7ced55e2f716f4ede412f,
    0x4d52354a3a3d8c865cb10fbabcf00118, 0x553e92e8bc0ae9a795ed1f57f3632d4d,
    0x93252331bf042b11512625b1f09fa87e].getD j 0)

theorem powers2_eq (i : ℕ) (hi : i < 128) : powers2 i = Gf.power 128 0x87#128 i := by
  have htwo : cgf2n 2 = Gf.power 128 0x87#128 1 := by decide
  rw [powers2, htwo, Gf.power_one_pow i hi]

/- Exchanging the sums over rows and over bits. -/
theorem sum_embedHelper (inBytes : List Gf2n) (rows : List ℕ) (k : ℕ) :
    (rows.map fun i => powers2 i * (((inBytes.zipIdx k).filter fun b =>
      entry forwardEmbeddingMatrix i b.2 = 1).map (·.1)).sum).sum =
    ((inBytes.zipIdx k).map fun b => b.1 * (rows.map fun i =>
      if entry forwardEmbeddingMatrix i b.2 = 1 then powers2 i else 0).sum).sum := by
  induction inBytes generalizing k with
  | nil => simp
  | cons x xs ih =>
    rw [List.zipIdx_cons, List.map_cons, List.sum_cons, ← ih, ← List.sum_map_mul_left,
      ← List.sum_map_add]
    refine congrArg List.sum (List.map_congr_left fun i _ => ?_)
    by_cases h : entry forwardEmbeddingMatrix i k = 1
    · simp [h, mul_add, mul_comm]
    · simp [h]

theorem column_sum (j : ℕ) (hj : j < 8) :
    ((List.range 128).map fun i =>
      if entry forwardEmbeddingMatrix i j = 1 then powers2 i else 0).sum = embColumn j := by
  have htable : ∀ j < 8, ((List.range 128).map fun i =>
      if entry forwardEmbeddingMatrix i j = 1 then Gf.power 128 0x87#128 i else 0).sum =
      embColumn j := by decide +kernel
  rw [← htable j hj]
  refine congrArg List.sum (List.map_congr_left fun i hi => ?_)
  rw [powers2_eq i (List.mem_range.mp hi)]

theorem zipIdx_eq_map_range {α : Type*} (l : List α) (d : α) :
    l.zipIdx = (List.range l.length).map fun j => (l.getD j d, j) := by
  apply List.ext_getElem
  · simp
  · intro j h1 h2
    have hj : j < l.length := by simpa using h1
    simp [List.getD_eq_getElem?_getD, hj]

theorem getLsbD_sum_zipIdx (f : ℕ → Bool) (n k : ℕ) (hn : n ≤ 128) :
    ((((List.range n).map fun i => ofBit (f i)).zipIdx).map
      fun b => cgf2n (2^b.2) * b.1).sum.bits.getLsbD k = (decide (k < n) && f k) := by
  rw [← getLsbD_sum_bits f n k hn, zipIdx_eq_map_range _ 0, List.map_map, List.length_map,
    List.length_range]
  refine congrArg (fun l : List Gf2n => l.sum.bits.getLsbD k) (List.map_congr_left fun i hi => ?_)
  have hlt := List.mem_range.mp hi
  simp [List.getD_eq_getElem?_getD, hlt]

/- Any eight values are embedded column by column. -/
theorem sum_embed (inBytes : List Gf2n) (hlen : inBytes.length = 8) :
    ((List.range 128).map fun idx => powers2 idx * embedHelper inBytes idx).sum =
      ((List.range 8).map fun j => inBytes.getD j 0 * embColumn j).sum := by
  have hswap := sum_embedHelper inBytes (List.range 128) 0
  simp only [embedHelper]
  rw [hswap, zipIdx_eq_map_range _ 0, hlen, List.map_map]
  refine congrArg List.sum (List.map_congr_left fun j hj => ?_)
  rw [Function.comp_apply, column_sum j (List.mem_range.mp hj)]

theorem applyBDEmbedding_eq (x : List Gf2n) (hx : x.length ≤ 8) :
    applyBDEmbedding x = ((List.range 8).map fun j => x.getD j 0 * embColumn j).sum := by
  rw [applyBDEmbedding, sum_embed _ (by simp; omega)]
  refine congrArg List.sum (List.map_congr_left fun j _ => ?_)
  rw [Pad.getD_append_replicate]

def embAdd : AesField →+ Gf2n := columnsHom embColumn

theorem embAdd_mulY (a : AesField) : embAdd (Gf.mulY a) = embColumn 1 * embAdd a := by
  have hbasis : ∀ i < 8, embAdd (Gf.mulY (Gf.power 8 0x1b#8 i)) =
      embColumn 1 * embAdd (Gf.power 8 0x1b#8 i) := by decide +kernel
  let step : AesField →+ AesField := AddMonoidHom.mk' Gf.mulY Gf.mulY_add
  have h : embAdd.comp step = (AddMonoidHom.mulLeft (embColumn 1)).comp embAdd :=
    Gf.addHom_ext _ _ hbasis
  exact DFunLike.congr_fun h a

def embHom : AesField →+* Gf2n where
  toFun := embAdd
  map_one' := by decide +kernel
  map_mul' := Gf.map_mul_of_mulY embAdd (embColumn 1) (by decide +kernel) embAdd_mulY
  map_zero' := embAdd.map_zero
  map_add' := embAdd.map_add

theorem embHom_apply (a : AesField) : embHom a =
    ((List.range 8).map fun j => if a.bits.getLsbD j then embColumn j else 0).sum := rfl

/-- A byte as a constant of the field, unembedded. -/
def raw (b : Byte) : Gf2n := ⟨b.setWidth 128⟩

def emb (b : Byte) : Gf2n := embHom (lane b)

theorem emb_xor (a b : Byte) : emb (a ^^^ b) = emb a + emb b := embHom.map_add (lane a) (lane b)

theorem lowByte_raw (b : Byte) : lowByte (raw b) = b := by
  apply BitVec.eq_of_getLsbD_eq
  intro i hi
  simp [lowByte, raw, hi]

theorem raw_xor (a b : Byte) : raw (a ^^^ b) = raw a + raw b := congrArg Gf.mk BitVec.setWidth_xor

theorem lowByte_add (x y : Gf2n) : lowByte (x + y) = lowByte x ^^^ lowByte y := BitVec.setWidth_xor

/- `ApplyEmbedding` reads the low byte of its argument. -/
theorem applyEmbedding_eq (x : Gf2n) : applyEmbedding x = emb (lowByte x) := by
  rw [applyEmbedding, sum_embed _ (by simp [bitDecompose]), emb, embHom_apply]
  refine congrArg List.sum (List.map_congr_left fun j hj => ?_)
  have hlt := List.mem_range.mp hj
  have hbit : (bitDecompose 8 x).getD j 0 = ofBit (x.bits.getLsbD j) := by
    simp [bitDecompose, List.getD_eq_getElem?_getD, hlt]
  rw [hbit, ofBit_mul]
  simp [lane, lowByte, hlt]

theorem applyEmbedding_raw (b : Byte) : applyEmbedding (raw b) = emb b := by
  rw [applyEmbedding_eq, lowByte_raw]

/-! ### Where the embedding shows -/

/-- Zero or one: the bytes that embedding leaves alone. -/
def ZeroOne (d : Byte) : Prop := d = 0 ∨ d = 1

instance (d : Byte) : Decidable (ZeroOne d) := inferInstanceAs (Decidable (d = 0 ∨ d = 1))

theorem raw_injective : Function.Injective raw := by
  intro a b h
  rw [← lowByte_raw a, ← lowByte_raw b, h]

theorem emb_eq_raw (b : Byte) (hb : ZeroOne b) : emb b = raw b := by
  rcases hb with rfl | rfl
  · exact embHom.map_zero
  · exact embHom.map_one

/- No other embedded byte has its own low coordinates, or no others. -/
theorem zeroOne_of_emb (b : Byte) (h : lowByte (emb b) = b ∨ (emb b).bits >>> 8 = 0) :
    ZeroOne b := by
  have htable : ∀ d : Byte, lowByte (emb d) = d ∨ (emb d).bits >>> 8 = 0 → d = 0 ∨ d = 1 := by
    decide +kernel
  exact htable b h

/- Reading the low byte of an embedded byte. -/
theorem lowByte_emb_iff (b : Byte) : lowByte (emb b) = b ↔ ZeroOne b := by
  constructor
  · exact fun h => zeroOne_of_emb b (Or.inl h)
  · intro hb
    rw [emb_eq_raw b hb, lowByte_raw]

theorem emb_eq_raw_iff (b a : Byte) : emb b = raw a ↔ b = a ∧ ZeroOne b := by
  constructor
  · intro h
    have hhigh : (emb b).bits >>> 8 = 0 := by
      rw [h]
      apply BitVec.eq_of_getLsbD_eq
      intro i hi
      simp [raw]
    have hb : ZeroOne b := zeroOne_of_emb b (Or.inr hhigh)
    exact ⟨raw_injective ((emb_eq_raw b hb).symm.trans h), hb⟩
  · rintro ⟨rfl, hb⟩
    exact emb_eq_raw b hb

/-! ### The inverse embedding -/

/-- The byte the eight wanted coordinates stand for. -/
def unembed (x : Gf2n) : Byte :=
  let column (w : ℕ) (b : Byte) : Byte := if x.bits.getLsbD w then b else 0
  column 0 0x01 ^^^ column 1 0x12 ^^^ column 3 0x03 ^^^ column 4 0x23 ^^^ column 7 0x06 ^^^
    column 9 0xbf ^^^ column 10 0xf0 ^^^ column 13 0xb2

theorem unembedBits_eq (x : Gf2n) :
    unembedBits (wantedPositions.map fun w => ofBit (x.bits.getLsbD w)) = bitsOf (unembed x) := by
  have htable : ∀ b0 b1 b3 b4 b7 b9 b10 b13 : Bool,
      unembedBits [ofBit b0, ofBit b1, ofBit b3, ofBit b4, ofBit b7, ofBit b9, ofBit b10,
        ofBit b13] =
      bitsOf ((if b0 then 0x01 else 0) ^^^ (if b1 then 0x12 else 0) ^^^
        (if b3 then 0x03 else 0) ^^^ (if b4 then 0x23 else 0) ^^^ (if b7 then 0x06 else 0) ^^^
        (if b9 then 0xbf else 0) ^^^ (if b10 then 0xf0 else 0) ^^^ (if b13 then 0xb2 else 0)) := by
    decide +kernel
  exact htable _ _ _ _ _ _ _ _

theorem unembed_add (x y : Gf2n) : unembed (x + y) = unembed x ^^^ unembed y := by
  have hcolumn : ∀ (a b : Bool) (c : Byte), (if (a ^^ b) then c else 0) =
      (if a then c else 0) ^^^ (if b then c else 0) := by
    intro a b c
    cases a <;> cases b <;> simp
  simp only [unembed, Gf.bits_add, BitVec.getLsbD_xor, hcolumn]
  ac_rfl

/- The eight wanted coordinates determine the byte. -/
theorem unembed_emb (b : Byte) : unembed (emb b) = b := by
  let recovered : AesField →+ AesField := AddMonoidHom.mk' (fun a => lane (unembed (embAdd a)))
    fun a b => by rw [map_add, unembed_add, lane_xor]
  have hbasis : ∀ i < 8, recovered (Gf.power 8 0x1b#8 i) = Gf.power 8 0x1b#8 i := by decide +kernel
  have hid : recovered = AddMonoidHom.id AesField := Gf.addHom_ext _ _ hbasis
  exact lane_inj (DFunLike.congr_fun hid (lane b))

theorem unembedBits_emb (b : Byte) :
    unembedBits (wantedPositions.map fun w => ofBit ((emb b).bits.getLsbD w)) = bitsOf b := by
  rw [unembedBits_eq, unembed_emb]

theorem emb_injective : Function.Injective emb := Function.LeftInverse.injective unembed_emb

theorem getD_bitsOf (b : Byte) (j : ℕ) (hj : j < 8) :
    (bitsOf b).getD j 0 = ofBit (b.getLsbD j) := by
  simp [bitsOf, List.getD_eq_getElem?_getD, hj]

theorem length_bitsOf (b : Byte) : (bitsOf b).length = 8 := by
  rw [bitsOf, List.length_map, List.length_range]

theorem bitDecomposeEmbedding_computes (x : Gf2n) (ws : List ℕ) (hws : ∀ w ∈ ws, w < 128)
    (hnodup : ws.Nodup) : Computes ws (bitDecomposeEmbedding x ws)
      (ws.map fun w => ofBit (x.bits.getLsbD w)) [x] := by
  intro r
  have hone : cgf2n 1 = 1 := rfl
  rw [bitDecomposeEmbedding, bind_apply, mapM_getRandomBit]
  simp only [hone, sum_zip_drawn]
  rw [bind_apply]
  simp only [reveal, Run.after, openings, List.length_singleton, Nat.mul_one]
  have h := unmask_zip_drawn x r.bits r.used ws hws hnodup
  rw [hone] at h
  rw [h]
  rfl

theorem wantedBits_computes (x : Gf2n) :
    Computes wantedPositions (bitDecomposeEmbedding x wantedPositions)
      (wantedPositions.map fun w => ofBit (x.bits.getLsbD w)) [x] :=
  bitDecomposeEmbedding_computes x wantedPositions (by decide) (by decide)

theorem preprocInverseEmbedding_computes (b : Byte) :
    Computes wantedPositions (preprocInverseEmbedding (emb b)) (bitsOf b) [emb b] := by
  have h := computes_bind wantedPositions _ (fun inBytes => pure (unembedBits inBytes)) _ _ _ _
    (wantedBits_computes (emb b)) (computes_pure wantedPositions _)
  rwa [unembedBits_emb, List.append_nil] at h

/- Eight bits put together again. -/
theorem sum_bits_raw (b : Byte) :
    ((List.range 8).map fun k => cgf2n (2^k) * ofBit (b.getLsbD k)).sum = raw b := by
  apply Gf.ext
  apply BitVec.eq_of_getLsbD_eq
  intro i hi
  rw [getLsbD_sum_bits _ 8 i (by omega), raw, BitVec.getLsbD_setWidth, decide_eq_true hi,
    Bool.true_and]
  by_cases h8 : i < 8
  · rw [decide_eq_true h8, Bool.true_and]
  · rw [decide_eq_false h8, Bool.false_and, BitVec.getLsbD_of_ge b i (by omega)]

theorem sum_bitsOf (b : Byte) :
    ((List.range 8).map fun idx => cgf2n 2 ^ idx * (bitsOf b).getD idx 0).sum = raw b := by
  rw [← sum_bits_raw]
  refine congrArg List.sum (List.map_congr_left fun idx hidx => ?_)
  have hlt := List.mem_range.mp hidx
  have hpow : cgf2n 2 ^ idx = cgf2n (2^idx) := by
    rw [← powers2, powers2_eq idx (by omega), cgf2n_two_pow, Gf.power, BitVec.twoPow_eq]
    rfl
  rw [getD_bitsOf b idx hlt, hpow]

theorem inverseEmbedding_computes (b : Byte) :
    Computes wantedPositions (inverseEmbedding (emb b)) (raw b) [emb b] := by
  have h := computes_bind wantedPositions _ (fun outBytes => pure
    ((List.range 8).map fun idx => cgf2n 2 ^ idx * outBytes.getD idx 0).sum) _ _ _ _
    (preprocInverseEmbedding_computes b) (computes_pure wantedPositions _)
  rwa [sum_bitsOf, List.append_nil] at h

/-! ### The inversion chain -/

/- The table of embedded powers: row `e` squares `e` times. -/
theorem fancySquaring_eq (b : Byte) (e : ℕ) (h1 : 1 ≤ e) (h7 : e ≤ 7) :
    fancySquaring (bitsOf b) e = emb b ^ (2^e) := by
  have htable : ∀ e ≤ 7, 1 ≤ e → ∀ j < 8, enumSquarings ((e - 1) * 8 + j) =
      embAdd ((fun y => y * y)^[e] (Gf.power 8 0x1b#8 j)) := by decide +kernel
  have hhom : columnsHom (fun j => enumSquarings ((e - 1) * 8 + j)) =
      embAdd.comp (Gf.frobenius e) := by
    refine Gf.addHom_ext _ _ fun j hj => ?_
    rw [columnsHom_power _ j hj, htable e h7 h1 j hj, Gf.iterate_square]
    rfl
  have hpow : embAdd (lane b ^ (2^e)) = emb b ^ (2^e) := embHom.map_pow (lane b) (2^e)
  rw [← hpow, fancySquaring, length_bitsOf]
  refine Eq.trans ?_ (DFunLike.congr_fun hhom (lane b))
  rw [columnsHom_apply]
  refine congrArg List.sum (List.map_congr_left fun j hj => ?_)
  rw [getD_bitsOf b j (List.mem_range.mp hj), mul_ofBit]
  rfl

theorem squaringMapper_eq (bdVal : List Gf2n) (e : ℕ) (h1 : 1 ≤ e) (h7 : e ≤ 7) :
    squaringMapper bdVal (2^e) = fancySquaring bdVal e := by
  have hrun := forRange_inv
    (fun n (mapper : ℕ → Gf2n) => ∀ e, 1 ≤ e → e ≤ n → mapper (2^e) = fancySquaring bdVal e) 7
    (fun n mapper squaredIndex =>
      if squaredIndex = 2 ^ (n + 1) then fancySquaring bdVal (n + 1) else mapper squaredIndex)
    (fun _ => 0) (by omega) fun n _ mapper h e he1 he => by
      rcases Nat.le_succ_iff.mp he with hold | rfl
      · have hne : ¬ 2^e = 2^(n + 1) := fun heq => by
          have := Nat.pow_right_injective (le_refl 2) heq
          omega
        simp only [if_neg hne]
        exact h e he1 hold
      · simp only [if_true]
  exact hrun e h1 h7

theorem inverseModBits_eq (b : Byte) :
    inverseModBits (bitsOf b) = emb (gfInv (lane b)).bits := by
  have hinv : embHom (gfInv (lane b)) = emb b ^ 254 := by
    rw [gfInv_eq, map_pow, emb]
  have hsq : ∀ e, 1 ≤ e → e ≤ 7 → squaringMapper (bitsOf b) (2^e) = emb b ^ (2^e) := by
    intro e h1 h7
    rw [squaringMapper_eq _ e h1 h7, fancySquaring_eq b e h1 h7]
  have h2 : squaringMapper (bitsOf b) 2 = emb b ^ 2 := hsq 1 (by omega) (by omega)
  have h4 : squaringMapper (bitsOf b) 4 = emb b ^ 4 := hsq 2 (by omega) (by omega)
  have h8 : squaringMapper (bitsOf b) 8 = emb b ^ 8 := hsq 3 (by omega) (by omega)
  have h16 : squaringMapper (bitsOf b) 16 = emb b ^ 16 := hsq 4 (by omega) (by omega)
  have h32 : squaringMapper (bitsOf b) 32 = emb b ^ 32 := hsq 5 (by omega) (by omega)
  have h64 : squaringMapper (bitsOf b) 64 = emb b ^ 64 := hsq 6 (by omega) (by omega)
  have h128 : squaringMapper (bitsOf b) 128 = emb b ^ 128 := hsq 7 (by omega) (by omega)
  have hprod : inverseModBits (bitsOf b) = emb b ^ 254 := by
    simp only [inverseModBits, h2, h4, h8, h16, h32, h64, h128, ← pow_add, Nat.reduceAdd]
  exact hprod.trans hinv.symm

theorem inverseMod_computes (b : Byte) :
    Computes wantedPositions (inverseMod (emb b)) (emb (gfInv (lane b)).bits) [emb b] := by
  have h := computes_bind wantedPositions _ (fun bdVal => pure (inverseModBits bdVal)) _ _ _ _
    (preprocInverseEmbedding_computes b) (computes_pure wantedPositions _)
  rwa [inverseModBits_eq, List.append_nil] at h

/-! ### The S-box -/

theorem summationBd_eq (b : Byte) (row : ℕ) (hrow : row < 8) :
    summationBd (bitsOf b) row = ofBit ((affineLinear b ^^^ 0x63).getLsbD row) := by
  have hmatrix : ∀ row < 8, ∀ j < 8, cgf2n (entry forwardMatrix row j) =
      ofBit ((affineLinear (BitVec.twoPow 8 j)).getLsbD row) := by decide
  have haddend : ∀ row < 8, cgf2n (forwardAdd.getD row 0) = ofBit ((0x63 : Byte).getLsbD row) := by
    decide
  rw [BitVec.getLsbD_xor, ofBit_xor, ← haddend row hrow, ← columnsHom_row affineLinear
    affineLinear_xor _ row (hmatrix row hrow) b, summationBd, columnsHom_apply]
  refine congrArg (· + _) (congrArg List.sum (List.map_congr_left fun j hj => ?_))
  rw [getD_bitsOf b j (List.mem_range.mp hj), ofBit_mul]
  rfl

theorem K01_eq (idx : ℕ) (hidx : idx < 8) : K01 idx = embColumn idx := by
  have hbase : applyBDEmbedding [0, 1] = embHom (Gf.power 8 0x1b#8 1) := by
    rw [applyBDEmbedding_eq _ (by simp)]
    have hcol : embHom (Gf.power 8 0x1b#8 1) = embColumn 1 :=
      columnsHom_power embColumn 1 (by omega)
    rw [hcol]
    simp [List.range, List.range.loop]
  rw [K01, hbase, ← map_pow, Gf.power_one_pow idx hidx]
  exact columnsHom_power embColumn idx hidx

theorem applyBDEmbedding_bit (b : Bool) : applyBDEmbedding [ofBit b] = ofBit b := by
  have hone : embColumn 0 = 1 := by decide
  rw [applyBDEmbedding_eq _ (by simp)]
  simp [List.range, List.range.loop, hone]

/- The affine layer of the S-box on the bits of an inverse. -/
theorem sum_summationBd (b : Byte) :
    ((List.range 8).map fun idx =>
      applyBDEmbedding [summationBd (bitsOf (gfInv (lane b)).bits) idx] * K01 idx).sum =
      emb (sbox b) := by
  rw [emb, embHom_apply]
  refine congrArg List.sum (List.map_congr_left fun idx hidx => ?_)
  have hlt := List.mem_range.mp hidx
  rw [summationBd_eq _ idx hlt, applyBDEmbedding_bit, K01_eq idx hlt, ofBit_mul]
  rfl

theorem applySbox_computes (b : Byte) :
    Computes wantedPositions (applySbox (emb b)) (emb (sbox b))
      [emb b, emb (gfInv (lane b)).bits] := by
  have hsecond := computes_bind wantedPositions _ (fun unembeddedX =>
    pure ((List.range 8).map fun idx =>
    applyBDEmbedding [summationBd unembeddedX idx] * K01 idx).sum) _ _ _ _
    (preprocInverseEmbedding_computes (gfInv (lane b)).bits) (computes_pure wantedPositions _)
  rw [sum_summationBd, List.append_nil] at hsecond
  exact computes_bind wantedPositions _ _ _ _ _ _ (inverseMod_computes b) hsecond

end Pobc.Mpc
