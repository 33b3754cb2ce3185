import Pobc.Mpc.Machine
import Pobc.Mpc.Tables
import Pobc.Aes.Fips197

/-!
# The embedded AES (`MPC/code/aes_gf_long.py`)

AES-128 on bytes embedded into `GF(2^128)`, for one lane (`nparallel = 1`). The
cipher key and every state that reaches an S-box are secret, so
`bit_decompose_embedding` always takes its masked path.

A 16-byte state is a function on its indices; the 176 embedded key bytes are an
array read at computed offsets.
-/

namespace Pobc.Mpc
open Pobc.Loop Pobc.Aes

/-! ### Embedding (lines 291-350) -/

def powers2 (idx : ℕ) : Gf2n := cgf2n 2 ^ idx

def embedHelper (inBytes : List Gf2n) (i : ℕ) : Gf2n :=
  ((inBytes.zipIdx.filter fun b => entry forwardEmbeddingMatrix i b.2 = 1).map (·.1)).sum

def applyEmbedding (x : Gf2n) : Gf2n :=
  ((List.range 128).map fun idx => powers2 idx * embedHelper (bitDecompose 8 x) idx).sum

def applyBDEmbedding (x : List Gf2n) : Gf2n :=
  let inBytes := x ++ List.replicate (8 - x.length) 0
  ((List.range 128).map fun idx => powers2 idx * embedHelper inBytes idx).sum

def bitDecomposeEmbedding (x : Gf2n) (wantedPositions : List ℕ) : Circuit (List Gf2n) := do
  let randomBits ← wantedPositions.mapM fun _ => getRandomBit
  let one := cgf2n 1
  let masked ← reveal
    (x + ((randomBits.zip wantedPositions).map fun b => b.1 * shiftLeft one b.2).sum)
  return (randomBits.zip wantedPositions).map fun r => land (shiftRight masked r.2) one + r.1

def wantedPositions : List ℕ := [0, 1, 3, 4, 7, 9, 10, 13]

/-- The linear part of `PreprocInverseEmbedding`. -/
def unembedBits (inBytes : List Gf2n) : List Gf2n :=
  let out3 := inBytes.getD 5 0
  let out6 := inBytes.getD 6 0
  let out2 := inBytes.getD 4 0 + out3
  let out7 := inBytes.getD 7 0 + out3 + out6
  let out4 := inBytes.getD 1 0 + out7
  let out5 := inBytes.getD 3 0 + out7
  let out1 := inBytes.getD 2 0 + [out2, out3, out4, out5, out6, out7].sum
  let out0 := inBytes.getD 0 0 + out1 + out2 + out4 + out6
  [out0, out1, out2, out3, out4, out5, out6, out7]

def preprocInverseEmbedding (x : Gf2n) : Circuit (List Gf2n) := do
  let inBytes ← bitDecomposeEmbedding x wantedPositions
  return unembedBits inBytes

def inverseEmbedding (x : Gf2n) : Circuit Gf2n := do
  let outBytes ← preprocInverseEmbedding x
  return ((List.range 8).map fun idx => cgf2n 2 ^ idx * outBytes.getD idx 0).sum

/-! ### S-box (lines 219-243, `inverseMod` 473-505) -/

def enumSquarings (i : ℕ) : Gf2n := cgf2n (embeddedPowers.flatten.getD i 0)

def fancySquaring (bdVal : List Gf2n) (exponent : ℕ) : Gf2n :=
  ((List.range bdVal.length).map fun idx =>
    enumSquarings ((exponent - 1) * 8 + idx) * bdVal.getD idx 0).sum

/-- `mapper` of `inverseMod`: the value raised to each power of two from 2 to 128. -/
def squaringMapper (bdVal : List Gf2n) : ℕ → Gf2n :=
  forRange 7 (fun n mapper squaredIndex =>
    if squaredIndex = 2 ^ (n + 1) then fancySquaring bdVal (n + 1) else mapper squaredIndex)
    fun _ => 0

def inverseModBits (bdVal : List Gf2n) : Gf2n :=
  let mapper := squaringMapper bdVal
  ((mapper 2 * mapper 4) * (mapper 8 * mapper 16)) * ((mapper 32 * mapper 64) * mapper 128)

def inverseMod (val : Gf2n) : Circuit Gf2n := do
  let bdVal ← preprocInverseEmbedding val
  return inverseModBits bdVal

def K01 (idx : ℕ) : Gf2n := applyBDEmbedding [0, 1] ^ idx

/-- `linear_transform` of `forward_bit_sbox`, plus `forward_add`. -/
def summationBd (unembeddedX : List Gf2n) (row : ℕ) : Gf2n :=
  ((List.range 8).map fun idx =>
    unembeddedX.getD idx 0 * cgf2n (entry forwardMatrix row idx)).sum +
    cgf2n (forwardAdd.getD row 0)

def forwardBitSbox (embByte : Gf2n) : Circuit Gf2n := do
  let embByteInverse ← inverseMod embByte
  let unembeddedX ← preprocInverseEmbedding embByteInverse
  return ((List.range 8).map fun idx =>
    applyBDEmbedding [summationBd unembeddedX idx] * K01 idx).sum

def applySbox (what : Gf2n) : Circuit Gf2n := forwardBitSbox what

/-! ### Key expansion (lines 369-401) -/

/-- Every fourth `temp`: rotated, substituted, and the round constant added; `Nk = 4`. -/
def substituteTemp (temp : Fin 4 → Gf2n) (i : ℕ) : Circuit (Fin 4 → Gf2n) := do
  let t0 ← applySbox (temp 1)
  let t1 ← applySbox (temp 2)
  let t2 ← applySbox (temp 3)
  let t3 ← applySbox (temp 0)
  return ![t0 + applyEmbedding (cgf2n (rconRaw.getD (i / 4) 0)), t1, t2, t3]

def keyTemp (roundKey : ℕ → Gf2n) (i : ℕ) : Circuit (Fin 4 → Gf2n) :=
  let temp := word roundKey (i - 1)
  if i % 4 = 0 then substituteTemp temp i else pure temp

def expandKeyStep (n : ℕ) (roundKey : ℕ → Gf2n) : Circuit (ℕ → Gf2n) := do
  let temp ← keyTemp roundKey (n + 4)
  return setWord roundKey (n + 4) fun j => word roundKey n j + temp j

def expandAESKey (cipherKey : Fin 16 → Gf2n) : Circuit (ℕ → Gf2n) :=
  forRangeM 40 expandKeyStep (keyBytes cipherKey 0)

/-! ### Rounds (lines 407-471 and 507-565) -/

/-- `[f(b) for b in state]`, also where the source overwrites `state` in place. -/
def mapState (f : Gf2n → Circuit Gf2n) (state : Fin 16 → Gf2n) : Circuit (Fin 16 → Gf2n) :=
  forRangeM 16 (fun i out => do
    let b ← f (byteAt state i)
    return setByte out i b) state

def secretArrayEmbedd (byteArray : Fin 16 → Gf2n) : Fin 16 → Gf2n :=
  fun i => applyEmbedding (byteArray i)

def subBytes (state : Fin 16 → Gf2n) : Circuit (Fin 16 → Gf2n) := mapState applySbox state

def addRoundKey (roundKey state : Fin 16 → Gf2n) : Fin 16 → Gf2n :=
  fun i => state i + roundKey i

def mixColumn (temp : Fin 4 → Gf2n) : Fin 4 → Gf2n :=
  let doubles : Fin 4 → Gf2n := fun i => applyEmbedding (cgf2n 2) * temp i
  ![doubles 0 + (temp 1 + doubles 1) + temp 2 + temp 3,
    temp 0 + doubles 1 + (temp 2 + doubles 2) + temp 3,
    temp 0 + temp 1 + doubles 2 + (temp 3 + doubles 3),
    (temp 0 + doubles 0) + temp 1 + temp 2 + doubles 3]

def mixColumns (state : Fin 16 → Gf2n) : Fin 16 → Gf2n :=
  ofColumns fun i => mixColumn (column state i)

def rotate (word : Fin 4 → Gf2n) (n : ℕ) : Fin 4 → Gf2n := fun c => word (c + Fin.ofNat 4 n)

def shiftRows (state : Fin 16 → Gf2n) : Fin 16 → Gf2n :=
  forRange 4 (fun i state =>
    let row : Fin 4 → Gf2n := fun c => byteAt state (i + 4 * c)
    fun p => if p.val % 4 = i then rotate row i (Fin.ofNat 4 (p.val / 4)) else state p) state

def stateCollapse (state : Fin 16 → Gf2n) : Circuit (Fin 16 → Gf2n) :=
  mapState inverseEmbedding state

def aesRound (roundKey state : Fin 16 → Gf2n) : Circuit (Fin 16 → Gf2n) := do
  let state ← subBytes state
  let state := shiftRows state
  let state := mixColumns state
  return addRoundKey roundKey state

def createRoundKey (expandedKey : ℕ → Gf2n) (n : ℕ) : Fin 16 → Gf2n :=
  fun j => expandedKey (n * 16 + j)

/-- `aesMain` with `numRounds = 10`. -/
def aesMain (expandedKey : ℕ → Gf2n) (state : Fin 16 → Gf2n) : Circuit (Fin 16 → Gf2n) := do
  let state := addRoundKey (createRoundKey expandedKey 0) state
  let state ← forRangeM 9 (fun n state => aesRound (createRoundKey expandedKey (n + 1)) state) state
  let state ← subBytes state
  let state := shiftRows state
  return addRoundKey (createRoundKey expandedKey 10) state

def encryptWithoutKeySchedule (expandedKey : ℕ → Gf2n) (plaintext : Fin 16 → Gf2n) :
    Circuit (Fin 16 → Gf2n) := do
  let state ← aesMain expandedKey (secretArrayEmbedd plaintext)
  stateCollapse state

end Pobc.Mpc
