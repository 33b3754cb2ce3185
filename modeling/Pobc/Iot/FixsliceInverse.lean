import Pobc.Iot.FixsliceLanes

/-!
# The inverse S-box circuit (`aes/aes_decrypt.c`)

`inv_sub_bytes` computes with all four NOTs of the S-box left out, so it undoes the
`sbox` of `aes/aes.c` as that is: on every state, words and bits alike.
-/

namespace Pobc.Fixslice
open Pobc.Bitslice

/-- The variables of `inv_sub_bytes`, by the letter of their names. -/
inductive InvVar where
  | state (i : ℕ)
  | u (i : ℕ)
  | t (i : ℕ)
  | m (i : ℕ)
  | r (i : ℕ)
  | p (i : ℕ)
  | y (i : ℕ)
  deriving DecidableEq

open InvVar in
/-- The assignments of `inv_sub_bytes`. -/
def invSubBytesProgram : List (Gate InvVar) :=
  [.copy (u 7) (state 0), .copy (u 6) (state 1), .copy (u 5) (state 2), .copy (u 4) (state 3),
    .copy (u 3) (state 4), .copy (u 2) (state 5), .copy (u 1) (state 6), .copy (u 0) (state 7),
    .xor (t 23) (u 0) (u 3), .xor (t 8) (u 1) (t 23), .and (m 2) (t 23) (t 8),
    .xor (t 4) (u 4) (t 8), .xor (t 22) (u 1) (u 3), .xor (t 2) (u 0) (u 1),
    .xor (t 1) (u 3) (u 4), .xor (t 9) (u 7) (t 1), .and (m 7) (t 22) (t 9),
    .xor (t 24) (u 4) (u 7), .xor (t 10) (t 2) (t 24), .and (m 14) (t 2) (t 10),
    .xor (r 5) (u 6) (u 7), .xor (t 3) (t 1) (r 5), .xor (t 13) (t 2) (r 5),
    .xor (t 19) (t 22) (r 5), .xor (t 17) (u 2) (t 19), .xor (t 25) (u 2) (t 1),
    .xor (r 13) (u 1) (u 6), .xor (t 20) (t 24) (r 13), .and (m 9) (t 20) (t 17),
    .xor (r 17) (u 2) (u 5), .xor (t 6) (t 22) (r 17), .and (m 1) (t 13) (t 6),
    .xor (y 5) (u 0) (r 17), .and (m 4) (t 19) (y 5), .xor (m 5) (m 4) (m 1),
    .xor (m 17) (m 5) (t 24), .xor (r 18) (u 5) (u 6), .xor (t 27) (t 1) (r 18),
    .xor (t 15) (t 10) (t 27), .and (m 11) (t 1) (t 15), .xor (m 15) (m 14) (m 11),
    .xor (m 21) (m 17) (m 15), .and (m 12) (t 4) (t 27), .xor (m 13) (m 12) (m 11),
    .xor (t 14) (t 10) (r 18), .xor (m 3) (t 14) (m 1), .xor (m 16) (m 3) (m 2),
    .xor (m 20) (m 16) (m 13), .xor (r 19) (u 2) (u 4), .xor (t 16) (r 13) (r 19),
    .xor (t 26) (t 3) (t 16), .and (m 6) (t 3) (t 16), .xor (m 8) (t 26) (m 6),
    .xor (m 18) (m 8) (m 7), .xor (m 22) (m 18) (m 13), .and (m 25) (m 22) (m 20),
    .xor (m 26) (m 21) (m 25), .xor (m 10) (m 9) (m 6), .xor (m 19) (m 10) (m 15),
    .xor (m 23) (m 19) (t 25), .xor (m 28) (m 23) (m 25), .xor (m 24) (m 22) (m 23),
    .and (m 30) (m 26) (m 24), .xor (m 39) (m 23) (m 30), .and (m 48) (m 39) (y 5),
    .and (m 57) (m 39) (t 19), .xor (m 36) (m 24) (m 25), .and (m 31) (m 20) (m 23),
    .xor (m 27) (m 20) (m 21), .and (m 32) (m 27) (m 31), .and (m 29) (m 28) (m 27),
    .xor (m 37) (m 21) (m 29), .xor (m 42) (m 37) (m 39), .and (m 52) (m 42) (t 15),
    .and (m 61) (m 42) (t 1), .xor (p 0) (m 52) (m 61), .xor (p 16) (m 57) (m 61),
    .and (m 60) (m 37) (t 20), .and (m 51) (m 37) (t 17), .xor (m 33) (m 27) (m 25),
    .xor (m 38) (m 32) (m 33), .xor (m 43) (m 37) (m 38), .and (m 49) (m 43) (t 16),
    .xor (p 6) (m 49) (m 60), .xor (p 13) (m 49) (m 51), .and (m 58) (m 43) (t 3),
    .and (m 50) (m 38) (t 9), .and (m 59) (m 38) (t 22), .xor (p 1) (m 58) (m 59),
    .xor (p 7) (p 0) (p 1), .and (m 34) (m 21) (m 22), .and (m 35) (m 24) (m 34),
    .xor (m 40) (m 35) (m 36), .xor (m 41) (m 38) (m 40), .xor (m 45) (m 42) (m 41),
    .and (m 53) (m 45) (t 27), .xor (p 8) (m 50) (m 53), .xor (p 23) (p 7) (p 8),
    .and (m 62) (m 45) (t 4), .xor (p 14) (m 49) (m 62), .xor (state 1) (p 14) (p 23),
    .and (m 54) (m 41) (t 10), .xor (p 2) (m 54) (m 62), .xor (p 22) (p 2) (p 7),
    .xor (state 7) (p 13) (p 22), .xor (p 17) (m 58) (p 2), .xor (p 15) (m 54) (m 59),
    .and (m 63) (m 41) (t 2), .xor (m 44) (m 39) (m 40), .and (m 46) (m 44) (t 6),
    .xor (p 5) (m 46) (m 51), .xor (p 18) (m 63) (p 5), .xor (p 24) (p 5) (p 7),
    .xor (p 12) (m 46) (m 48), .xor (state 4) (p 12) (p 22), .and (m 55) (m 44) (t 13),
    .xor (p 9) (m 55) (m 63), .xor (state 0) (p 9) (p 16), .and (m 47) (m 40) (t 8),
    .xor (p 3) (m 47) (m 50), .xor (p 19) (p 2) (p 3), .xor (state 2) (p 19) (p 24),
    .xor (p 11) (p 0) (p 3), .xor (p 26) (p 9) (p 11), .and (m 56) (m 40) (t 23),
    .xor (p 4) (m 48) (m 56), .xor (p 20) (p 4) (p 6), .xor (p 29) (p 15) (p 20),
    .xor (state 6) (p 26) (p 29), .xor (p 10) (m 57) (p 4), .xor (p 27) (p 10) (p 18),
    .xor (state 3) (p 23) (p 27), .xor (p 25) (p 6) (p 10), .xor (p 28) (p 11) (p 25),
    .xor (state 5) (p 17) (p 28)]

def InvVar.init {α : Type*} (zero : α) (s : ℕ → α) : InvVar → α
  | .state i => if i < 8 then s i else zero
  | _ => zero

def invSubBytes (s : Words) : Words := fun i =>
  run (· ^^^ ·) (· &&& ·) invSubBytesProgram (InvVar.init 0 s) (.state i)

/-- The words in the order of the code `inv_sub_bytes` is adapted from: lowest bit first. -/
def reversed {α : Type*} (s : ℕ → α) : ℕ → α := fun i => s (7 - i)

theorem run_invSubBytesProgram_sboxTable : ∀ i < 8, run (· ^^^ ·) (· &&& ·) invSubBytesProgram
    (InvVar.init 0 (reversed sboxTable)) (.state i) = reversed byteTable i := by
  decide +kernel

theorem getLsbD_invInit {w : ℕ} (s : ℕ → BitVec w) (f : ℕ → Bool) (p : ℕ)
    (h : ∀ i < 8, (s i).getLsbD p = f i) (v : InvVar) :
    (InvVar.init 0 s v).getLsbD p = InvVar.init false f v := by
  cases v with
  | state i =>
    simp only [InvVar.init]
    split
    case isTrue hi => exact h i hi
    case isFalse hi => exact BitVec.getLsbD_zero
  | _ => exact BitVec.getLsbD_zero

/- Two states that agree at one bit position come out of a circuit agreeing there. -/
theorem getLsbD_invSubBytes {w : ℕ} (s : Words) (tables : ℕ → BitVec w) (p q : ℕ)
    (h : ∀ i < 8, (s i).getLsbD p = (tables i).getLsbD q) (i : ℕ) :
    (invSubBytes s i).getLsbD p =
      (run (· ^^^ ·) (· &&& ·) invSubBytesProgram (InvVar.init 0 tables) (.state i)).getLsbD q := by
  have hs := getLsbD_invInit s (fun i => (tables i).getLsbD q) p h
  have ht := getLsbD_invInit tables (fun i => (tables i).getLsbD q) q fun _ _ => rfl
  rw [invSubBytes, getLsbD_run, getLsbD_run, funext hs, funext ht]

/- Some byte has any eight bits. -/
theorem exists_byte (f : ℕ → Bool) : ∃ b : Byte, ∀ i < 8, f i = b.getLsbD (7 - i) := by
  have hbyte : ∀ a b c d e f g h : Bool, ∀ i < 8, [a, b, c, d, e, f, g, h].getD i false =
      BitVec.getLsbD (BitVec.ofBoolListBE [a, b, c, d, e, f, g, h]) (7 - i) := by
    decide +kernel
  refine ⟨BitVec.ofBoolListBE [f 0, f 1, f 2, f 3, f 4, f 5, f 6, f 7], fun i hi => ?_⟩
  refine Eq.trans ?_ (hbyte _ _ _ _ _ _ _ _ i hi)
  interval_cases i <;> rfl

/- Bit position by bit position the two circuits are run on one byte. -/
theorem invSubBytes_reversed (s : Words) (i : ℕ) (hi : i < 8) :
    invSubBytes (reversed (sbox s)) i = reversed s i := by
  refine BitVec.eq_of_getLsbD_eq fun p _ => ?_
  obtain ⟨b, hb⟩ := exists_byte fun i => (s i).getLsbD p
  have hsbox : ∀ i < 8, (sbox s i).getLsbD p = (sboxTable i).getLsbD b.toNat := by
    intro i hi
    have hvars : (fun v => (Var.init 0 s v).getLsbD p) = byteVars b :=
      funext (getLsbD_init s _ _ hb)
    rw [sbox, getLsbD_run, hvars, run_sboxProgram b i hi, sboxTable_eq b i hi]
  have htables := getLsbD_invSubBytes (reversed (sbox s)) (reversed sboxTable) p b.toNat
    (fun i hi => hsbox (7 - i) (by omega)) i
  rw [htables, run_invSubBytesProgram_sboxTable i hi]
  exact (byteTable_eq b _ (by omega)).trans (hb (7 - i) (by omega)).symm

theorem invSubBytes_reversed_example :
    let s : Words := fun i => BitVec.ofNat 32 (0x9e3779b9 * (i + 1))
    invSubBytes (reversed (sbox s)) 5 = reversed s 5 :=
  invSubBytes_reversed (fun i => BitVec.ofNat 32 (0x9e3779b9 * (i + 1))) 5 (by decide)

end Pobc.Fixslice
