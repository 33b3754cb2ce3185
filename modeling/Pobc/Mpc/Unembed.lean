import Pobc.Mpc.AesCorrect

/-!
# The embedded AES on arbitrary field elements

The inverse embedding reads eight coordinates, whatever the element is. What the
circuits compute from cells that are not embedded bytes is therefore the cipher
on the bytes these coordinates stand for (`unembed`), up to the last round key,
which is added to the state without passing through an S-box.
-/

namespace Pobc.Mpc
open Pobc.Loop Pobc.Aes

theorem unembed_zero : unembed 0 = 0 := by decide

theorem unembed_emb_add (b : Byte) (x : Gf2n) (hx : unembed x = 0) : unembed (emb b + x) = b := by
  rw [unembed_add, unembed_emb, hx]
  exact BitVec.xor_zero

/-! ### The inverse embedding and the S-box -/

theorem preprocInverseEmbedding_returns (x : Gf2n) :
    Returns (preprocInverseEmbedding x) (bitsOf (unembed x)) := by
  have h := returns_bind _ (fun inBytes => pure (unembedBits inBytes)) _ _
    (wantedBits_computes x).returns (returns_pure _)
  rwa [unembedBits_eq] at h

theorem inverseEmbedding_returns (x : Gf2n) : Returns (inverseEmbedding x) (raw (unembed x)) := by
  have h := returns_bind _ (fun outBytes => pure
    ((List.range 8).map fun idx => cgf2n 2 ^ idx * outBytes.getD idx 0).sum) _ _
    (preprocInverseEmbedding_returns x) (returns_pure _)
  rwa [sum_bitsOf] at h

theorem inverseMod_returns (x : Gf2n) :
    Returns (inverseMod x) (emb (gfInv (lane (unembed x))).bits) := by
  have h := returns_bind _ (fun bdVal => pure (inverseModBits bdVal)) _ _
    (preprocInverseEmbedding_returns x) (returns_pure _)
  rwa [inverseModBits_eq] at h

/- The S-box leaves an embedded byte. -/
theorem applySbox_returns (x : Gf2n) : Returns (applySbox x) (emb (sbox (unembed x))) := by
  have hsecond := returns_bind _ (fun unembeddedX => pure ((List.range 8).map fun idx =>
    applyBDEmbedding [summationBd unembeddedX idx] * K01 idx).sum) _ _
    (preprocInverseEmbedding_returns (emb (gfInv (lane (unembed x))).bits)) (returns_pure _)
  rw [unembed_emb, sum_summationBd] at hsecond
  exact returns_bind _ _ _ _ (inverseMod_returns x) hsecond

/-- The bytes a state stands for. -/
def unembedBlock (s : Fin 16 → Gf2n) : Block := fun j => unembed (s j)

theorem unembedBlock_embBlock (s : Block) : unembedBlock (embBlock s) = s :=
  funext fun j => unembed_emb (s j)

theorem subBytes_returns (s : Fin 16 → Gf2n) :
    Returns (subBytes s) (embBlock (Aes.subBytes (unembedBlock s))) :=
  mapState_returns applySbox _ _ fun i _ => applySbox_returns (byteAt s i)

theorem stateCollapse_returns (s : Fin 16 → Gf2n) :
    Returns (stateCollapse s) (rawBlock (unembedBlock s)) :=
  mapState_returns inverseEmbedding _ _ fun i _ => inverseEmbedding_returns (byteAt s i)

/-! ### Key expansion -/

/-- Cells that are embedded bytes plus a part that stands for no byte. -/
def offEmb (v : ℕ → Byte) (d : ℕ → Gf2n) : ℕ → Gf2n := fun p => emb (v p) + d p

/-- Word `n + 4` of the part that no S-box sees. -/
def defectStep (n : ℕ) (d : ℕ → Gf2n) : ℕ → Gf2n :=
  setWord d (n + 4) fun j =>
    word d n j + if (n + 4) % 4 = 0 then 0 else word d (n + 3) j

theorem unembed_offEmb (v : ℕ → Byte) (d : ℕ → Gf2n) (hd : ∀ p, unembed (d p) = 0) (p : ℕ) :
    unembed (offEmb v d p) = v p := unembed_emb_add (v p) (d p) (hd p)

theorem embKey_eq (w : ℕ → Byte) : embKey w = offEmb w fun _ => 0 := by
  funext p
  exact (add_zero _).symm

theorem substituteTemp_returns (temp : Fin 4 → Gf2n) (i : ℕ) (h4 : 4 ≤ i) (h44 : i < 44) :
    Returns (substituteTemp temp i) (fun j =>
      emb (subWord (rotWord fun j => unembed (temp j)) j ^^^ rcon (i / 4) j)) := by
  rw [← substituted_word _ i h4 h44, substituteTemp]
  refine returns_bind _ _ _ _ (applySbox_returns (temp 1)) ?_
  refine returns_bind _ _ _ _ (applySbox_returns (temp 2)) ?_
  refine returns_bind _ _ _ _ (applySbox_returns (temp 3)) ?_
  exact returns_bind _ _ _ _ (applySbox_returns (temp 0)) (returns_pure _)

theorem expandKeyStep_returns (n : ℕ) (hn : n < 40) (v : ℕ → Byte) (d : ℕ → Gf2n)
    (hd : ∀ p, unembed (d p) = 0) :
    Returns (expandKeyStep n (offEmb v d)) (offEmb (expandStep n v) (defectStep n d)) := by
  let temp : Fin 4 → Gf2n := fun j => emb (scheduleWord v (n + 4) j) +
    if (n + 4) % 4 = 0 then 0 else word d (n + 3) j
  have htemp : Returns (keyTemp (offEmb v d) (n + 4)) temp := by
    by_cases hi : (n + 4) % 4 = 0
    · have h := substituteTemp_returns (word (offEmb v d) (n + 3)) (n + 4) (by omega) (by omega)
      have hbytes : (fun j => unembed (word (offEmb v d) (n + 3) j)) = word v (n + 3) :=
        funext fun j => unembed_offEmb v d hd _
      simp only [keyTemp, temp, scheduleWord, if_pos hi, add_zero]
      rwa [hbytes] at h
    · simp only [keyTemp, temp, scheduleWord, if_neg hi]
      exact returns_pure _
  have hvalue : (setWord (offEmb v d) (n + 4) fun j => word (offEmb v d) n j + temp j) =
      offEmb (expandStep n v) (defectStep n d) := by
    funext p
    simp only [setWord, offEmb, expandStep, defectStep]
    split
    · rw [emb_xor]
      simp only [word, offEmb, temp]
      abel
    · rfl
  rw [← hvalue]
  exact returns_bind _ _ _ _ htemp (returns_pure _)

theorem unembed_defectStep (n : ℕ) (d : ℕ → Gf2n) (hd : ∀ p, unembed (d p) = 0) (p : ℕ) :
    unembed (defectStep n d p) = 0 := by
  simp only [defectStep, setWord]
  split
  · split
    · rw [add_zero]
      exact hd _
    · rw [unembed_add, word, word, hd, hd]
      rfl
  · exact hd p

theorem unembed_iterate_defectStep (n : ℕ) (d : ℕ → Gf2n) (hd : ∀ p, unembed (d p) = 0) (p : ℕ) :
    unembed (forRange n defectStep d p) = 0 := by
  induction n generalizing p with
  | zero => exact hd p
  | succ n ih => exact unembed_defectStep n _ ih p

/- The bytes are expanded as in FIPS-197, and the rest on its own. -/
theorem expandAESKey_returns (key : Block) (d : Fin 16 → Gf2n) (hd : ∀ j, unembed (d j) = 0) :
    Returns (expandAESKey fun j => emb (key j) + d j)
      (offEmb (keyExpansion key) (forRange 40 defectStep (keyBytes d 0))) := by
  have hd' : ∀ p, unembed (keyBytes d 0 p) = 0 := by
    intro p
    rw [keyBytes]
    split
    · exact hd _
    · exact unembed_zero
  have hinit : keyBytes (fun j => emb (key j) + d j) 0 =
      offEmb (keyBytes key 0) (keyBytes d 0) := by
    funext p
    simp only [keyBytes, offEmb]
    by_cases hp : p < 16
    · rw [if_pos hp, if_pos hp, if_pos hp]
      rfl
    · rw [if_neg hp, if_neg hp, if_neg hp, add_zero]
      exact embHom.map_zero.symm
  rw [expandAESKey, hinit]
  exact returns_forRangeM 40 expandKeyStep (fun n => offEmb (forRange n expandStep (keyBytes key 0))
    (forRange n defectStep (keyBytes d 0))) fun n hn =>
      expandKeyStep_returns n hn _ _ (unembed_iterate_defectStep n _ hd')

/-! ### Rounds -/

theorem addRoundKey_offEmb (v : ℕ → Byte) (d : ℕ → Gf2n) (n : ℕ) (s : Block) :
    addRoundKey (createRoundKey (offEmb v d) n) (embBlock s) = fun j =>
      emb (xorBlocks s (roundKey v n) j) + d (16 * n + j) := by
  funext j
  simp only [addRoundKey, createRoundKey, offEmb, embBlock, xorBlocks, roundKey, emb_xor,
    Nat.mul_comm, add_assoc]

theorem aesRound_returns (v : ℕ → Byte) (d : ℕ → Gf2n) (n : ℕ) (s : Fin 16 → Gf2n) :
    Returns (aesRound (createRoundKey (offEmb v d) (n + 1)) s) (fun j =>
      emb (cipherRound v n (unembedBlock s) j) + d (16 * (n + 1) + j)) := by
  have hshift : shiftRows (embBlock (Aes.subBytes (unembedBlock s))) =
      embBlock (Aes.shiftRows (Aes.subBytes (unembedBlock s))) := shiftRows_eq _
  have h := returns_bind _ (fun state => pure
    (addRoundKey (createRoundKey (offEmb v d) (n + 1)) (mixColumns (shiftRows state)))) _ _
    (subBytes_returns s) (returns_pure _)
  rw [hshift, mixColumns_emb, addRoundKey_offEmb] at h
  exact h

/- The state is the embedded state of the cipher plus a part of the round key. -/
theorem aesMain_returns (v : ℕ → Byte) (d : ℕ → Gf2n) (hd : ∀ p, unembed (d p) = 0)
    (s : Fin 16 → Gf2n) :
    Returns (aesMain (offEmb v d) s) (fun j =>
      emb (cipher v (unembedBlock s) j) + d (160 + j)) := by
  let b := unembedBlock s
  let cells (n : ℕ) : Fin 16 → Gf2n :=
    if n = 0 then addRoundKey (createRoundKey (offEmb v d) 0) s
    else fun j => emb (roundState v b n j) + d (16 * n + j)
  have hcells : ∀ n, unembedBlock (cells n) = roundState v b n := by
    intro n
    funext j
    cases n with
    | zero =>
      show unembed (s j + offEmb v d (0 * 16 + j)) = _
      rw [unembed_add, unembed_offEmb v d hd, Nat.zero_mul]
      rfl
    | succ n =>
      exact unembed_emb_add (roundState v b (n + 1) j) _ (hd _)
  have hrounds := returns_forRangeM 9
    (fun n state => aesRound (createRoundKey (offEmb v d) (n + 1)) state) cells fun n _ => by
      have h := aesRound_returns v d n (cells n)
      rw [hcells] at h
      exact h
  have hshift : shiftRows (embBlock (Aes.subBytes (roundState v b 9))) =
      embBlock (Aes.shiftRows (Aes.subBytes (roundState v b 9))) := shiftRows_eq _
  have hlast := subBytes_returns (cells 9)
  rw [hcells] at hlast
  have hfinal := returns_bind _ (fun state => pure
    (addRoundKey (createRoundKey (offEmb v d) 10) (shiftRows state))) _ _ hlast (returns_pure _)
  rw [hshift, addRoundKey_offEmb] at hfinal
  exact returns_bind _ _ _ _ hrounds hfinal

end Pobc.Mpc
