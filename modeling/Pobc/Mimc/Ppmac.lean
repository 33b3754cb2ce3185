import Pobc.Mimc.Mimc128

/-!
# PPMAC-MiMC (`mimc-gmp/ppmac128_gmp.c`)

Text is read in pieces of 15 bytes, the last one without padding, and a ciphertext
block takes 16. Every value that is authenticated, first of the associated data and
then of the ciphertext, is added to the next multiple of `E(0)` and enciphered.

`MacState.inputs` is not in the source: it records the elements that are enciphered
for the tag.
-/

namespace Pobc.Mimc
open Pobc.Loop

structure Setup where
  nonce : ℤ
  key : ℤ
  tagInput : ℤ
  eK0 : ℤ
  eK1 : ℤ

/-- `aead_setup` (`ppmac128_gmp.c:9-24`). -/
def aeadSetup (npub k : Buffer) : Setup :=
  let nonce := read npub 0 15
  let key := read k 0 16
  ⟨nonce, key, nonce, mimc128Enc key 0, mimc128Enc key 1⟩

structure MacState where
  tagInput : ℤ
  ctrAd : ℤ
  inputs : List ℤ

section Core

variable (S : Setup)

/-- The three operations on an element that is authenticated (`ppmac128_gmp.c:32-34`,
`42-44`, `84-86`, `106-108`, `160-162`). -/
def absorb (element : ℤ) (s : MacState) : MacState :=
  let element := modAdd element s.ctrAd
  { s with
    tagInput := modAdd s.tagInput (mimc128Enc S.key element)
    inputs := s.inputs ++ [element] }

/-- `ctr_ad += E_k(0)`. -/
def advance (s : MacState) : MacState := { s with ctrAd := modAdd s.ctrAd S.eK0 }

/-- `ppmac_ad` (`ppmac128_gmp.c:26-49`). -/
def ppmacAd (ad : Buffer) (adlen : ℕ) : MacState :=
  let s : MacState := ⟨S.tagInput, S.eK0, []⟩
  let s := forRange (adlen / 15) (fun i s => advance S (absorb S (read ad (15 * i) 15) s)) s
  if adlen % 15 ≠ 0 then advance S (absorb S (read ad (adlen - adlen % 15) (adlen % 15)) s) else s

/-- The end of both functions (`ppmac128_gmp.c:116-119`, `176-179`). -/
def finalizeTag (s : MacState) : ℤ :=
  let ctrAd := modMul 0x800000000000000000000000001b8000 S.eK0
  mimc128Enc S.key (modAdd s.tagInput ctrAd)

structure EncState where
  mac : MacState
  ctrM : ℤ
  c : Buffer

/-- One round of the encryption loop (`ppmac128_gmp.c:75-92`). -/
def encStep (m : Buffer) (i : ℕ) (s : EncState) : EncState :=
  let element := read m (15 * i) 15
  let keystream := mimc128Enc S.key (modAdd s.ctrM S.nonce)
  let element := modAdd element keystream
  { mac := advance S (absorb S element s.mac)
    ctrM := modAdd s.ctrM S.eK1
    c := write s.c (16 * i) element 16 }

/-- The partial block of a message (`ppmac128_gmp.c:96-109`). -/
def encTail (m : Buffer) (mlen : ℕ) (s : EncState) : EncState :=
  let element := read m (mlen - mlen % 15) (mlen % 15)
  let keystream := mimc128Enc S.key (modAdd s.ctrM S.nonce)
  let element := modAdd element keystream
  { mac := absorb S element s.mac
    ctrM := s.ctrM
    c := write s.c (mlen / 15 * 16) element 16 }

structure DecState where
  mac : MacState
  ctrM : ℤ
  m : Buffer

/-- One round of the decryption loop (`ppmac128_gmp.c:151-168`). -/
def decStep (c : Buffer) (i : ℕ) (s : DecState) : DecState :=
  let element := read c (16 * i) 16
  let keystream := mimc128Enc S.key (modAdd s.ctrM S.nonce)
  let keystream := modSub element keystream
  { mac := advance S (absorb S element s.mac)
    ctrM := modAdd s.ctrM S.eK1
    m := write s.m (15 * i) keystream 15 }

end Core

structure Encrypted where
  ret : Int
  c : Buffer
  inputs : List ℤ

/-- `ppmac_mimc_128_crypto_aead_encrypt` (`ppmac128_gmp.c:51-129`). -/
def ppmacEncrypt (c₀ m : Buffer) (mlen : ℕ) (ad : Buffer) (adlen : ℕ) (npub k : Buffer) :
    Encrypted :=
  let S := aeadSetup npub k
  let mac := ppmacAd S ad adlen
  let s := forRange (mlen / 15) (encStep S m) ⟨mac, S.eK1, c₀⟩
  let tagStart := mlen / 15 * 16
  let s' := if mlen % 15 ≠ 0 then encTail S m mlen s else s
  let tagStart := if mlen % 15 ≠ 0 then tagStart + 16 else tagStart
  ⟨0, write s'.c tagStart (finalizeTag S s'.mac) 16, s'.mac.inputs⟩

/-- `clen-16` in `unsigned long long`. -/
def minus16 (clen : ℕ) : ℕ := if 16 ≤ clen then clen - 16 else clen + 2^64 - 16

theorem minus16_add (n : ℕ) : minus16 (n + 16) = n := by
  rw [minus16, if_pos (Nat.le_add_left 16 n), Nat.add_sub_cancel]

structure Decrypted where
  ret : Int
  m : Buffer
  inputs : List ℤ

/-- `ppmac_mimc_128_crypto_aead_decrypt` (`ppmac128_gmp.c:131-193`). -/
def ppmacDecrypt (m₀ c : Buffer) (clen : ℕ) (ad : Buffer) (adlen : ℕ) (npub k : Buffer) :
    Decrypted :=
  let S := aeadSetup npub k
  let mac := ppmacAd S ad adlen
  let s := forRange (minus16 clen / 16) (decStep S c) ⟨mac, S.eK1, m₀⟩
  let tagStart := minus16 clen
  let tagInput := finalizeTag S s.mac
  ⟨if tagInput = read c tagStart 16 then 0 else -1, s.m, s.mac.inputs⟩

/-! ### Pieces of a text -/

/-- How many pieces of 15 bytes a text has. -/
def pieces (len : ℕ) : ℕ := (len + 14) / 15

def pieceValue (text : Buffer) (len i : ℕ) : ℤ := read text (15 * i) (min 15 (len - 15 * i))

theorem pieces_of_whole (len : ℕ) (h : len % 15 = 0) : pieces len = len / 15 := by
  unfold pieces
  omega

theorem pieces_of_tail (len : ℕ) (h : len % 15 ≠ 0) : pieces len = len / 15 + 1 := by
  unfold pieces
  omega

theorem pieceValue_of_whole (text : Buffer) (len i : ℕ) (hi : i < len / 15) :
    pieceValue text len i = read text (15 * i) 15 := by
  have hmin : min 15 (len - 15 * i) = 15 := by omega
  rw [pieceValue, hmin]

theorem pieceValue_of_tail (text : Buffer) (len : ℕ) :
    pieceValue text len (len / 15) = read text (len - len % 15) (len % 15) := by
  have hoff : 15 * (len / 15) = len - len % 15 := by omega
  have hmin : min 15 (len - (len - len % 15)) = len % 15 := by omega
  rw [pieceValue, hoff, hmin]

theorem pieceValue_nonneg (text : Buffer) (len i : ℕ) : 0 ≤ pieceValue text len i :=
  read_nonneg _ _ _

theorem pieceValue_lt (text : Buffer) (len i : ℕ) : pieceValue text len i < 256^15 := by
  have h := read_lt text (15 * i) (min 15 (len - 15 * i))
  refine lt_of_lt_of_le h ?_
  exact pow_le_pow_right₀ (by decide) (Nat.min_le_left _ _)

/-! ### The tag -/

section Mac

variable (S : Setup)

/-- The running multiple of `e` in round `i`. -/
def counter (e : ℤ) : ℕ → ℤ
  | 0 => e
  | i + 1 => modAdd (counter e i) e

/-- The mask of message piece `i`. -/
def keystream (i : ℕ) : ℤ := mimc128Enc S.key (modAdd (counter S.eK1 i) S.nonce)

def macStep (s : MacState) (value : ℤ) : MacState := advance S (absorb S value s)

def macRun (values : List ℤ) : MacState := values.foldl (macStep S) ⟨S.tagInput, S.eK0, []⟩

theorem macRun_append (values : List ℤ) (value : ℤ) :
    macRun S (values ++ [value]) = macStep S (macRun S values) value := by
  rw [macRun, List.foldl_append]
  rfl

def adValues (ad : Buffer) (adlen : ℕ) : List ℤ :=
  (List.range (pieces adlen)).map (pieceValue ad adlen)

theorem ppmacAd_eq (ad : Buffer) (adlen : ℕ) :
    ppmacAd S ad adlen = macRun S (adValues ad adlen) := by
  have hloop : forRange (adlen / 15)
      (fun i s => advance S (absorb S (read ad (15 * i) 15) s)) ⟨S.tagInput, S.eK0, []⟩ =
      macRun S ((List.range (adlen / 15)).map (pieceValue ad adlen)) := by
    rw [macRun, ← forRange_eq_foldl]
    refine forRange_congr _ _ _ _ fun i hi s => ?_
    rw [pieceValue_of_whole ad adlen i hi]
    rfl
  simp only [ppmacAd, hloop, adValues]
  by_cases htail : adlen % 15 = 0
  · rw [if_neg (not_not.mpr htail), pieces_of_whole adlen htail]
  · rw [if_pos htail, pieces_of_tail adlen htail, List.range_succ, List.map_append,
      List.map_singleton, macRun_append, pieceValue_of_tail ad adlen]
    rfl

/-- The values that are authenticated: those of the associated data, then the blocks
`v 0`, …, `v (n - 1)`. -/
def macValues (ad : Buffer) (adlen n : ℕ) (v : ℕ → ℤ) : List ℤ :=
  adValues ad adlen ++ (List.range n).map v

theorem macRun_macValues_succ (ad : Buffer) (adlen n : ℕ) (v : ℕ → ℤ) :
    macRun S (macValues ad adlen (n + 1) v) =
      macStep S (macRun S (macValues ad adlen n v)) (v n) := by
  rw [macValues, List.range_succ, List.map_append, List.map_singleton, ← List.append_assoc,
    macRun_append]
  rfl

theorem macValues_congr (ad : Buffer) (adlen n : ℕ) (v v' : ℕ → ℤ) (h : ∀ i < n, v i = v' i) :
    macValues ad adlen n v = macValues ad adlen n v' := by
  rw [macValues, macValues,
    List.map_congr_left fun i hi => h i (List.mem_range.mp hi)]

def tagOf (values : List ℤ) : ℤ := finalizeTag S (macRun S values)

theorem tagOf_nonneg (values : List ℤ) : 0 ≤ tagOf S values := mimc128Enc_nonneg _ _

theorem tagOf_lt (values : List ℤ) : tagOf S values < prime := mimc128Enc_lt _ _

/-! ### The elements that are enciphered for the tag -/

theorem counter_succ (e : ℤ) (i : ℕ) : counter e (i + 1) = modAdd (counter e i) e := rfl

theorem macRun_ctrAd (values : List ℤ) : (macRun S values).ctrAd = counter S.eK0 values.length := by
  induction values using List.reverseRecOn with
  | nil => rfl
  | append_singleton values value ih =>
    rw [macRun_append, List.length_append, List.length_singleton, counter_succ, ← ih]
    rfl

theorem macRun_inputs (values : List ℤ) : (macRun S values).inputs =
    values.zipIdx.map fun x => modAdd x.1 (counter S.eK0 x.2) := by
  induction values using List.reverseRecOn with
  | nil => rfl
  | append_singleton values value ih =>
    have hstep : (macStep S (macRun S values) value).inputs =
        (macRun S values).inputs ++ [modAdd value (macRun S values).ctrAd] := rfl
    rw [macRun_append, hstep, ih, macRun_ctrAd, List.zipIdx_append, List.map_append,
      Nat.zero_add]
    rfl

end Mac

end Pobc.Mimc
