import Pobc.Aes.Inverse
import Pobc.Mpc.AesCorrect

/-!
# The embedded inverse AES (`backward_bit_sbox`, the inverse layers, `invAesMain`)

The inverse S-box takes the bits of an embedded byte through the inverse affine
map and hands the list straight to the inversion chain, so it opens one secret
where the S-box opens two. Embedded decryption then undoes embedded encryption,
whatever the random bits of the two runs.
-/

namespace Pobc.Mpc
open Pobc.Loop Pobc.Aes

/-! ### The circuit -/

/-- `linear_transform` of `backward_bit_sbox`. -/
def invLinearTransform (unembeddedX : List Gf2n) : List Gf2n :=
  (List.range 8).map fun row =>
    ((List.range 8).map fun idx => unembeddedX.getD idx 0 * cgf2n (entry matrixInv row idx)).sum

def backwardBitSbox (embByte : Gf2n) : Circuit Gf2n := do
  let unembeddedX ← preprocInverseEmbedding embByte
  let unembeddedX := (unembeddedX.zip forwardAdd).map fun p => p.1 - cgf2n p.2
  return inverseModBits (invLinearTransform unembeddedX)

def invSubBytes (state : Fin 16 → Gf2n) : Circuit (Fin 16 → Gf2n) := mapState backwardBitSbox state

def invMixColKv (i : ℕ) : Gf2n := applyEmbedding (cgf2n ([0xe, 0xb, 0xd, 0x9].getD i 0))

def invMixColumn (temp : Fin 4 → Gf2n) : Fin 4 → Gf2n :=
  ![invMixColKv 0 * temp 0 + invMixColKv 1 * temp 1 + invMixColKv 2 * temp 2 +
      invMixColKv 3 * temp 3,
    invMixColKv 3 * temp 0 + invMixColKv 0 * temp 1 + invMixColKv 1 * temp 2 +
      invMixColKv 2 * temp 3,
    invMixColKv 2 * temp 0 + invMixColKv 3 * temp 1 + invMixColKv 0 * temp 2 +
      invMixColKv 1 * temp 3,
    invMixColKv 1 * temp 0 + invMixColKv 2 * temp 1 + invMixColKv 3 * temp 2 +
      invMixColKv 0 * temp 3]

def invMixColumns (state : Fin 16 → Gf2n) : Fin 16 → Gf2n :=
  ofColumns fun i => invMixColumn (column state i)

def invShiftRows (state : Fin 16 → Gf2n) : Fin 16 → Gf2n :=
  forRange 4 (fun i state =>
    let row : Fin 4 → Gf2n := fun c => byteAt state (i + 4 * c)
    fun p => if p.val % 4 = i then rotate row (4 - i) (Fin.ofNat 4 (p.val / 4)) else state p) state

def invAesRound (roundKey state : Fin 16 → Gf2n) : Circuit (Fin 16 → Gf2n) := do
  let state := addRoundKey roundKey state
  let state := invMixColumns state
  let state := invShiftRows state
  invSubBytes state

/-- `invAesMain` with `numRounds = 10`. -/
def invAesMain (expandedKey : ℕ → Gf2n) (state : Fin 16 → Gf2n) : Circuit (Fin 16 → Gf2n) := do
  let state := addRoundKey (createRoundKey expandedKey 10) state
  let state := invShiftRows state
  let state ← invSubBytes state
  -- the rounds 9, 8, ..., 1
  let state ← forRangeM 9 (fun n state => invAesRound (createRoundKey expandedKey (9 - n)) state)
    state
  return addRoundKey (createRoundKey expandedKey 0) state

/-! ### The inverse S-box -/

theorem zip_forwardAdd (b : Byte) :
    ((bitsOf b).zip forwardAdd).map (fun p => p.1 - cgf2n p.2) = bitsOf (b ^^^ 0x63) := by
  have hconst : forwardAdd = (List.range 8).map fun i => ((0x63 : Byte).getLsbD i).toNat := by
    decide
  rw [hconst, bitsOf, List.zip_map', List.map_map]
  refine List.map_congr_left fun i _ => ?_
  rw [Function.comp_apply, BitVec.getLsbD_xor, ofBit_xor, sub_eq_add_neg]
  cases (0x63 : Byte).getLsbD i <;> rfl

theorem invLinearTransform_bitsOf (b : Byte) :
    invLinearTransform (bitsOf b) = bitsOf (invAffineLinear b) := by
  have hmatrix : ∀ row < 8, ∀ j < 8, cgf2n (entry matrixInv row j) =
      ofBit ((invAffineLinear (BitVec.twoPow 8 j)).getLsbD row) := by decide
  apply List.map_congr_left
  intro row hrow
  rw [← columnsHom_row invAffineLinear invAffineLinear_xor _ row
    (hmatrix row (List.mem_range.mp hrow)) b, columnsHom_apply]
  refine congrArg List.sum (List.map_congr_left fun j hj => ?_)
  rw [getD_bitsOf b j (List.mem_range.mp hj), ofBit_mul]
  rfl

theorem backwardBitSbox_computes (b : Byte) :
    Computes wantedPositions (backwardBitSbox (emb b)) (emb (invSbox b)) [emb b] := by
  have hvalue : inverseModBits (invLinearTransform
      (((bitsOf b).zip forwardAdd).map fun p => p.1 - cgf2n p.2)) = emb (invSbox b) := by
    rw [zip_forwardAdd, invLinearTransform_bitsOf, inverseModBits_eq, invSbox]
  have h := computes_bind wantedPositions _ (fun unembeddedX => pure (inverseModBits
    (invLinearTransform ((unembeddedX.zip forwardAdd).map fun p => p.1 - cgf2n p.2)))) _ _ _ _
    (preprocInverseEmbedding_computes b) (computes_pure wantedPositions _)
  rwa [hvalue, List.append_nil] at h

theorem invSubBytes_computes (s : Block) :
    Computes wantedPositions (invSubBytes (embBlock s)) (embBlock (Aes.invSubBytes s))
      ((List.range 16).flatMap fun i => [emb (byteAt s i)]) :=
  mapState_computes backwardBitSbox _ _ _ fun i _ => backwardBitSbox_computes (byteAt s i)

/-! ### Linear layers -/

theorem invShiftRows_eq (state : Fin 16 → Gf2n) : invShiftRows state = Aes.invShiftRows state := by
  funext p
  fin_cases p <;> rfl

theorem emb_mixRow (k a : Fin 4 → Byte) : emb (mixRow k a) = emb (k 0) * emb (a 0) +
    emb (k 1) * emb (a 1) + emb (k 2) * emb (a 2) + emb (k 3) * emb (a 3) := by
  have hsum : emb (mixRow k a) = embHom (lane (k 0) * lane (a 0) + lane (k 1) * lane (a 1) +
      lane (k 2) * lane (a 2) + lane (k 3) * lane (a 3)) := rfl
  rw [hsum, map_add, map_add, map_add, map_mul, map_mul, map_mul, map_mul]
  rfl

theorem invMixColumn_emb (a : Fin 4 → Byte) :
    invMixColumn (fun r => emb (a r)) = fun r => emb (Aes.invMixColumn a r) := by
  have hconst : ∀ b : Byte, applyEmbedding (cgf2n b.toNat) = emb b := by
    intro b
    rw [cgf2n_toNat, applyEmbedding_raw]
  have h0 : invMixColKv 0 = emb 0xe := hconst 0xe
  have h1 : invMixColKv 1 = emb 0xb := hconst 0xb
  have h2 : invMixColKv 2 = emb 0xd := hconst 0xd
  have h3 : invMixColKv 3 = emb 0x9 := hconst 0x9
  funext r
  simp only [invMixColumn, h0, h1, h2, h3]
  match r with
  | 0 => exact (emb_mixRow ![0xe, 0xb, 0xd, 0x9] a).symm
  | 1 => exact (emb_mixRow ![0x9, 0xe, 0xb, 0xd] a).symm
  | 2 => exact (emb_mixRow ![0xd, 0x9, 0xe, 0xb] a).symm
  | 3 => exact (emb_mixRow ![0xb, 0xd, 0x9, 0xe] a).symm

theorem invMixColumns_emb (s : Block) :
    invMixColumns (embBlock s) = embBlock (Aes.invMixColumns s) := by
  funext i
  have h := congrFun (invMixColumn_emb (column s (i.val / 4))) (Fin.ofNat 4 i.val)
  exact h

/-! ### Rounds -/

theorem invAesRound_computes (w : ℕ → Byte) (n : ℕ) (s : Block) :
    Computes wantedPositions (invAesRound (createRoundKey (embKey w) (n + 1)) (embBlock s))
      (embBlock (invCipherRound w n s))
      ((List.range 16).flatMap fun i => [emb (byteAt
        (Aes.invShiftRows (Aes.invMixColumns (xorBlocks s (roundKey w (n + 1))))) i)]) := by
  have hshift : ∀ t : Block, invShiftRows (embBlock t) = embBlock (Aes.invShiftRows t) :=
    fun t => invShiftRows_eq _
  rw [invAesRound, createRoundKey_emb, addRoundKey_emb, invMixColumns_emb, hshift]
  exact invSubBytes_computes _

def invRoundState (w : ℕ → Byte) (s : Block) (n : ℕ) : Block :=
  forRange n (fun n => invCipherRound w (8 - n)) (invFinalRound w s)

/- `invAesMain` computes `InvCipher`. -/
theorem invAesMain_computes (w : ℕ → Byte) (s : Block) :
    ∃ xs, Computes wantedPositions (invAesMain (embKey w) (embBlock s)) (embBlock (invCipher w s))
      xs := by
  have hshift : ∀ t : Block, invShiftRows (embBlock t) = embBlock (Aes.invShiftRows t) :=
    fun t => invShiftRows_eq _
  have hrounds := computes_forRangeM wantedPositions 9
    (fun n state => invAesRound (createRoundKey (embKey w) (9 - n)) state)
    (fun n => embBlock (invRoundState w s n)) _ fun n hn => by
      have hkey : 9 - n = 8 - n + 1 := by omega
      have hround := invAesRound_computes w (8 - n) (invRoundState w s n)
      rw [← hkey] at hround
      exact hround
  have hfirst := invSubBytes_computes (Aes.invShiftRows (xorBlocks s (roundKey w 10)))
  have hlast : addRoundKey (createRoundKey (embKey w) 0) (embBlock (invRoundState w s 9)) =
      embBlock (invCipher w s) := by
    rw [createRoundKey_emb, addRoundKey_emb]
    rfl
  have hend := computes_bind wantedPositions _ (fun state => pure
    (addRoundKey (createRoundKey (embKey w) 0) state)) _ _ _ _ hrounds
    (computes_pure wantedPositions _)
  rw [hlast] at hend
  rw [invAesMain, createRoundKey_emb w 10, addRoundKey_emb, hshift]
  exact ⟨_, computes_bind wantedPositions _ _ _ _ _ _ hfirst hend⟩

/-- Decryption under the same expanded key returns the state. -/
theorem invAesMain_aesMain (w : ℕ → Byte) (s : Block) (r r' : Run) :
    (invAesMain (embKey w) (aesMain (embKey w) (embBlock s) r).1 r').1 = embBlock s := by
  obtain ⟨xs, hinv⟩ := invAesMain_computes w (cipher w s)
  rw [(aesMain_computes w s).returns r, hinv.returns r', invCipher_cipher]

end Pobc.Mpc
