import Pobc.Aes.Layers
import Pobc.Mpc.Embedding
import Mathlib.Tactic.FinCases

/-!
# The embedded AES computes AES-128

Every step of the embedded cipher maps embedded bytes to the embedded bytes of
the FIPS-197 step, whatever the random bits; along the way each step records the
secrets it opens, which are all inputs of S-boxes and their inverses.
-/

namespace Pobc.Mpc
open Pobc.Loop Pobc.Aes

def embBlock (s : Block) : Fin 16 → Gf2n := fun i => emb (s i)

def rawBlock (s : Block) : Fin 16 → Gf2n := fun i => raw (s i)

theorem embBlock_xor (s t : Block) :
    embBlock (xorBlocks s t) = fun i => embBlock s i + embBlock t i :=
  funext fun i => emb_xor (s i) (t i)

def embKey (w : ℕ → Byte) : ℕ → Gf2n := fun p => emb (w p)

/-- The secrets one S-box opens. -/
def sboxOpenings (b : Byte) : List Gf2n := [emb b, emb (gfInv (lane b)).bits]

theorem length_sboxOpenings (b : Byte) : (sboxOpenings b).length = 2 := rfl

theorem secretArrayEmbedd_eq (row : Fin 16 → Gf2n) :
    secretArrayEmbedd row = embBlock fun j => lowByte (row j) := by
  funext j
  exact applyEmbedding_eq (row j)

theorem secretArrayEmbedd_raw (s : Block) : secretArrayEmbedd (rawBlock s) = embBlock s := by
  funext i
  exact applyEmbedding_raw (s i)

/-! ### State loops -/

/-- The state after `n` rounds of a loop that turns `s` into `t`. -/
def mapPrefix (s t : Fin 16 → Gf2n) (n : ℕ) : Fin 16 → Gf2n :=
  fun j => if j.val < n then t j else s j

theorem mapPrefix_zero (s t : Fin 16 → Gf2n) : mapPrefix s t 0 = s := by
  funext j
  exact if_neg (Nat.not_lt_zero _)

theorem mapPrefix_all (s t : Fin 16 → Gf2n) : mapPrefix s t 16 = t := by
  funext j
  exact if_pos j.isLt

theorem setByte_mapPrefix (s t : Fin 16 → Gf2n) (i : ℕ) :
    setByte (mapPrefix s t i) i (byteAt t i) = mapPrefix s t (i + 1) := by
  funext j
  simp only [setByte, mapPrefix]
  by_cases hj : j.val = i
  · rw [if_pos hj, if_pos (by omega), ← hj, byteAt_val]
  · by_cases hlt : j.val < i
    · rw [if_neg hj, if_pos hlt, if_pos (by omega)]
    · rw [if_neg hj, if_neg hlt, if_neg (by omega)]

theorem mapState_computes (f : Gf2n → Circuit Gf2n) (s t : Fin 16 → Gf2n) (xs : ℕ → List Gf2n)
    (hf : ∀ i < 16, Computes wantedPositions (f (byteAt s i)) (byteAt t i) (xs i)) :
    Computes wantedPositions (mapState f s) t ((List.range 16).flatMap xs) := by
  have hrun := computes_forRangeM wantedPositions 16 (fun i out => do
    let b ← f (byteAt s i)
    return setByte out i b) (mapPrefix s t) xs fun i hi => by
      have h := computes_bind wantedPositions _ (fun b => pure (setByte (mapPrefix s t i) i b))
        _ _ _ _ (hf i hi) (computes_pure wantedPositions _)
      rwa [setByte_mapPrefix, List.append_nil] at h
  rw [mapPrefix_zero, mapPrefix_all] at hrun
  exact hrun

theorem mapState_returns (f : Gf2n → Circuit Gf2n) (s t : Fin 16 → Gf2n)
    (hf : ∀ i < 16, Returns (f (byteAt s i)) (byteAt t i)) : Returns (mapState f s) t := by
  have hrun := returns_forRangeM 16 (fun i out => do
    let b ← f (byteAt s i)
    return setByte out i b) (mapPrefix s t) fun i hi => by
      have h := returns_bind _ (fun b => pure (setByte (mapPrefix s t i) i b)) _ _ (hf i hi)
        (returns_pure _)
      rwa [setByte_mapPrefix] at h
  rw [mapPrefix_zero, mapPrefix_all] at hrun
  exact hrun

theorem subBytes_computes (s : Block) :
    Computes wantedPositions (subBytes (embBlock s)) (embBlock (Aes.subBytes s))
      ((List.range 16).flatMap fun i => sboxOpenings (byteAt s i)) :=
  mapState_computes applySbox _ _ _ fun i _ => applySbox_computes (byteAt s i)

theorem stateCollapse_computes (s : Block) :
    Computes wantedPositions (stateCollapse (embBlock s)) (rawBlock s)
      ((List.range 16).flatMap fun i => [emb (byteAt s i)]) :=
  mapState_computes inverseEmbedding _ _ _ fun i _ => inverseEmbedding_computes (byteAt s i)

/-! ### Linear layers -/

theorem shiftRows_eq (state : Fin 16 → Gf2n) : shiftRows state = Aes.shiftRows state := by
  funext p
  fin_cases p <;> rfl

theorem addRoundKey_emb (k s : Block) :
    addRoundKey (embBlock k) (embBlock s) = embBlock (xorBlocks s k) := by
  funext i
  exact (emb_xor (s i) (k i)).symm

theorem emb_xtime (b : Byte) : applyEmbedding (cgf2n 2) * emb b = emb (xtime b) := by
  have htwo : cgf2n 2 = raw 2 := by decide
  have hx : emb 2 = embHom (Gf.power 8 0x1b#8 1) := by
    have hlane : lane 2 = Gf.power 8 0x1b#8 1 := by decide
    rw [emb, hlane]
  have hmul : embHom (Gf.mulY (lane b)) = emb 2 * emb b := by
    rw [Gf.mulY_eq (by decide), map_mul, hx, emb]
  rw [htwo, applyEmbedding_raw]
  exact hmul.symm

theorem mixColumn_emb (a : Fin 4 → Byte) :
    mixColumn (fun r => emb (a r)) = fun r => emb (Aes.mixColumn a r) := by
  funext r
  simp only [mixColumn, Aes.mixColumn, emb_xtime]
  match r with
  | 0 => simp [emb_xor, add_comm]
  | 1 => simp [emb_xor, add_comm]
  | 2 => simp [emb_xor, add_comm]
  | 3 => simp [emb_xor, add_comm]

theorem mixColumns_emb (s : Block) : mixColumns (embBlock s) = embBlock (Aes.mixColumns s) := by
  funext i
  have h := congrFun (mixColumn_emb (column s (i.val / 4))) (Fin.ofNat 4 i.val)
  exact h

/-! ### Key expansion -/

def wordOpenings (w : ℕ → Byte) (i : ℕ) : List Gf2n :=
  if i % 4 = 0 then [1, 2, 3, 0].flatMap fun j => sboxOpenings (word w (i - 1) j) else []

theorem length_wordOpenings (w : ℕ → Byte) (i : ℕ) :
    (wordOpenings w i).length = if i % 4 = 0 then 8 else 0 := by
  rw [wordOpenings]
  split
  · simp only [List.length_flatMap, length_sboxOpenings]
    rfl
  · rfl

theorem cgf2n_toNat (b : Byte) : cgf2n b.toNat = raw b := congrArg Gf.mk (BitVec.ofNat_toNat 128 b)

theorem applyEmbedding_rcon (i : ℕ) (h4 : 4 ≤ i) (h44 : i < 44) :
    applyEmbedding (cgf2n (rconRaw.getD (i / 4) 0)) = emb (rcon (i / 4) 0) := by
  have htable : ∀ q < 11, 1 ≤ q → rconRaw.getD q 0 = (rcon q 0).toNat := by decide
  rw [htable (i / 4) (by omega) (by omega), cgf2n_toNat, applyEmbedding_raw]

theorem substituted_word (temp : Fin 4 → Byte) (i : ℕ) (h4 : 4 ≤ i) (h44 : i < 44) :
    ![emb (sbox (temp 1)) + applyEmbedding (cgf2n (rconRaw.getD (i / 4) 0)), emb (sbox (temp 2)),
      emb (sbox (temp 3)), emb (sbox (temp 0))] =
      fun j => emb (subWord (rotWord temp) j ^^^ rcon (i / 4) j) := by
  have hrest : ∀ j : Fin 4, j ≠ 0 → rcon (i / 4) j = 0#8 := fun j hj => if_neg hj
  funext j
  rw [applyEmbedding_rcon i h4 h44]
  match j with
  | 0 => exact (emb_xor _ _).symm
  | 1 => rw [hrest 1 (by decide), BitVec.xor_zero]; rfl
  | 2 => rw [hrest 2 (by decide), BitVec.xor_zero]; rfl
  | 3 => rw [hrest 3 (by decide), BitVec.xor_zero]; rfl

theorem substituteTemp_computes (temp : Fin 4 → Byte) (i : ℕ) (h4 : 4 ≤ i) (h44 : i < 44) :
    Computes wantedPositions (substituteTemp (fun j => emb (temp j)) i)
      (fun j => emb (subWord (rotWord temp) j ^^^ rcon (i / 4) j))
      ([1, 2, 3, 0].flatMap fun j => sboxOpenings (temp j)) := by
  rw [← substituted_word temp i h4 h44, substituteTemp]
  refine computes_bind wantedPositions _ _ _ _ _ _ (applySbox_computes (temp 1)) ?_
  refine computes_bind wantedPositions _ _ _ _ _ _ (applySbox_computes (temp 2)) ?_
  refine computes_bind wantedPositions _ _ _ _ _ _ (applySbox_computes (temp 3)) ?_
  exact computes_bind wantedPositions _ _ _ _ _ _ (applySbox_computes (temp 0))
    (computes_pure wantedPositions _)

theorem keyTemp_computes (w : ℕ → Byte) (i : ℕ) (h4 : 4 ≤ i) (h44 : i < 44) :
    Computes wantedPositions (keyTemp (embKey w) i) (fun j => emb (scheduleWord w i j))
      (wordOpenings w i) := by
  by_cases hi : i % 4 = 0
  · simp only [keyTemp, scheduleWord, wordOpenings, if_pos hi]
    exact substituteTemp_computes (word w (i - 1)) i h4 h44
  · simp only [keyTemp, scheduleWord, wordOpenings, if_neg hi]
    exact computes_pure wantedPositions _

theorem expandKeyStep_computes (n : ℕ) (hn : n < 40) (w : ℕ → Byte) :
    Computes wantedPositions (expandKeyStep n (embKey w)) (embKey (expandStep n w))
      (wordOpenings w (n + 4)) := by
  have hvalue : (setWord (embKey w) (n + 4) fun j => word (embKey w) n j +
      emb (scheduleWord w (n + 4) j)) = embKey (expandStep n w) := by
    funext p
    simp only [setWord, embKey, expandStep]
    split
    · exact (emb_xor _ _).symm
    · rfl
  have h := computes_bind wantedPositions _ (fun temp => pure (setWord (embKey w) (n + 4)
    fun j => word (embKey w) n j + temp j)) _ _ _ _
    (keyTemp_computes w (n + 4) (by omega) (by omega)) (computes_pure wantedPositions _)
  rw [hvalue, List.append_nil] at h
  exact h

def keyOpenings (key : Block) : List Gf2n :=
  (List.range 40).flatMap fun n => wordOpenings (forRange n expandStep (keyBytes key 0)) (n + 4)

theorem expandAESKey_computes (key : Block) :
    Computes wantedPositions (expandAESKey (embBlock key)) (embKey (keyExpansion key))
      (keyOpenings key) := by
  have hinit : keyBytes (embBlock key) 0 = embKey (keyBytes key 0) := by
    funext p
    simp only [keyBytes, embKey]
    by_cases hp : p < 16
    · rw [if_pos hp, if_pos hp]
      rfl
    · rw [if_neg hp, if_neg hp]
      exact embHom.map_zero.symm
  rw [expandAESKey, hinit]
  exact computes_forRangeM wantedPositions 40 expandKeyStep
    (fun n => embKey (forRange n expandStep (keyBytes key 0))) _
    fun n hn => expandKeyStep_computes n hn _

/-! ### Rounds -/

theorem createRoundKey_emb (w : ℕ → Byte) (n : ℕ) :
    createRoundKey (embKey w) n = embBlock (roundKey w n) := by
  funext j
  simp only [createRoundKey, embKey, embBlock, roundKey, Nat.mul_comm]

theorem aesRound_computes (w : ℕ → Byte) (n : ℕ) (s : Block) :
    Computes wantedPositions (aesRound (createRoundKey (embKey w) (n + 1)) (embBlock s))
      (embBlock (cipherRound w n s))
      ((List.range 16).flatMap fun i => sboxOpenings (byteAt s i)) := by
  have h := computes_bind wantedPositions _ (fun state => pure
    (addRoundKey (createRoundKey (embKey w) (n + 1)) (mixColumns (shiftRows state)))) _ _ _ _
    (subBytes_computes s) (computes_pure wantedPositions _)
  have hshift : shiftRows (embBlock (Aes.subBytes s)) =
      embBlock (Aes.shiftRows (Aes.subBytes s)) := shiftRows_eq _
  rw [hshift, mixColumns_emb, createRoundKey_emb, addRoundKey_emb, List.append_nil] at h
  rw [aesRound, createRoundKey_emb, cipherRound]
  exact h

/-- The state before the S-boxes of round `n + 1`. -/
def roundState (w : ℕ → Byte) (s : Block) (n : ℕ) : Block :=
  forRange n (cipherRound w) (xorBlocks s (roundKey w 0))

def mainOpenings (w : ℕ → Byte) (s : Block) : List Gf2n :=
  (List.range 10).flatMap fun n =>
    (List.range 16).flatMap fun i => sboxOpenings (byteAt (roundState w s n) i)

theorem aesMain_computes (w : ℕ → Byte) (s : Block) :
    Computes wantedPositions (aesMain (embKey w) (embBlock s)) (embBlock (cipher w s))
      (mainOpenings w s) := by
  have hstart : addRoundKey (createRoundKey (embKey w) 0) (embBlock s) =
      embBlock (roundState w s 0) := by
    rw [createRoundKey_emb, addRoundKey_emb]
    rfl
  have hrounds := computes_forRangeM wantedPositions 9
    (fun n state => aesRound (createRoundKey (embKey w) (n + 1)) state)
    (fun n => embBlock (roundState w s n)) _ fun n _ => aesRound_computes w n (roundState w s n)
  have hshift : shiftRows (embBlock (Aes.subBytes (roundState w s 9))) =
      embBlock (Aes.shiftRows (Aes.subBytes (roundState w s 9))) := shiftRows_eq _
  have hfinal := computes_bind wantedPositions _ (fun state => pure
    (addRoundKey (createRoundKey (embKey w) 10) (shiftRows state))) _ _ _ _
    (subBytes_computes (roundState w s 9)) (computes_pure wantedPositions _)
  rw [hshift, createRoundKey_emb, addRoundKey_emb, List.append_nil] at hfinal
  have hsplit : List.range 10 = List.range 9 ++ [9] := List.range_succ
  rw [mainOpenings, hsplit, List.flatMap_append, List.flatMap_singleton, aesMain, hstart,
    createRoundKey_emb w 10]
  exact computes_bind wantedPositions _ _ _ _ _ _ hrounds hfinal

def expandAndEncrypt (key block : Fin 16 → Gf2n) : Circuit (Fin 16 → Gf2n) := do
  let expandedKey ← expandAESKey (secretArrayEmbedd key)
  aesMain expandedKey (secretArrayEmbedd block)

theorem expandAndEncrypt_computes (key block : Block) :
    Computes wantedPositions (expandAndEncrypt (rawBlock key) (rawBlock block))
      (embBlock (aes128 key block)) (keyOpenings key ++ mainOpenings (keyExpansion key) block) := by
  rw [expandAndEncrypt, secretArrayEmbedd_raw, secretArrayEmbedd_raw]
  exact computes_bind wantedPositions _ _ _ _ _ _ (expandAESKey_computes key)
    (aesMain_computes (keyExpansion key) block)

/-- The embedded AES is AES-128, for every choice of random bits. -/
theorem embedded_aes_eq (key block : Block) (r : Run) :
    ((expandAndEncrypt (rawBlock key) (rawBlock block) >>= stateCollapse) r).1 =
      rawBlock (aes128 key block) :=
  (computes_bind wantedPositions _ _ _ _ _ _ (expandAndEncrypt_computes key block)
    (stateCollapse_computes (aes128 key block))).returns r

end Pobc.Mpc
