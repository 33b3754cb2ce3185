import Pobc.Blake2s.Impl
import Pobc.Lib.Frame
import Mathlib.Data.List.GetD
import Mathlib.Tactic.IntervalCases

/-!
# The block function of the BLAKE2s library

`ROUND` interleaves the two halves of two mixing functions at a time; they touch
different words, so the order does not matter. A run of `blake2s_blocks` over full blocks
is a chain of compressions with a 64-bit byte counter, and the flagged call pads its block.
-/

namespace Pobc.Blake2s
open Pobc.Loop Pobc.Frame

/-! ### Rounds -/

theorem rotr32_eq (x : Word) (k : ℕ) (hk : k < 32) : rotr32 x k = x.rotateRight k := by
  rw [BitVec.rotateRight_def, Nat.mod_eq_of_lt hk]
  rfl

/- Both halves together. -/
theorem g_eq (a b c d : ℕ) (x y : Word) (v : Words) :
    g a b c d x y v = gs a b c d y 8 7 (gs a b c d x 16 12 v) := by
  have hhalf : ∀ (m : Word) (r1 r2 : ℕ) (v : Words), r1 < 32 → r2 < 32 → gs a b c d m r1 r2 v =
      (let v := Function.update v a (v a + v b + m)
       let v := Function.update v d ((v d ^^^ v a).rotateRight r1)
       let v := Function.update v c (v c + v d)
       Function.update v b ((v b ^^^ v c).rotateRight r2)) := by
    intro m r1 r2 v h1 h2
    have hadd : v a + (m + v b) = v a + v b + m := by rw [BitVec.add_comm m, BitVec.add_assoc]
    simp only [gs, Function.update_self, Function.update_idem, rotr32_eq _ _ h1, rotr32_eq _ _ h2,
      hadd]
  rw [hhalf y 8 7 _ (by decide) (by decide), hhalf x 16 12 v (by decide) (by decide)]
  rfl

theorem gs_local (a b c d : ℕ) (m : Word) (r1 r2 : ℕ) :
    Local {a, b, c, d} (gs a b c d m r1 r2) := by
  have ha : a ∈ ({a, b, c, d} : Set ℕ) := by simp
  have hb : b ∈ ({a, b, c, d} : Set ℕ) := by simp
  have hc : c ∈ ({a, b, c, d} : Set ℕ) := by simp
  have hd : d ∈ ({a, b, c, d} : Set ℕ) := by simp
  have h1 := local_update (α := Word) a ha (fun v => v a + (m + v b)) fun v w h => by
    rw [h a ha, h b hb]
  have h2 := local_update (α := Word) d hd (fun v => v d ^^^ v a) fun v w h => by
    rw [h d hd, h a ha]
  have h3 := local_update (α := Word) d hd (fun v => rotr32 (v d) r1) fun v w h => by rw [h d hd]
  have h4 := local_update (α := Word) c hc (fun v => v c + v d) fun v w h => by rw [h c hc, h d hd]
  have h5 := local_update (α := Word) b hb (fun v => v b ^^^ v c) fun v w h => by
    rw [h b hb, h c hc]
  have h6 := local_update (α := Word) b hb (fun v => rotr32 (v b) r2) fun v w h => by rw [h b hb]
  exact h6.comp (h5.comp (h4.comp (h3.comp (h2.comp h1))))

/- Mixing functions on different words. -/
theorem gs_comm (a b c d a' b' c' d' : ℕ) (m m' : Word) (r1 r2 r1' r2' : ℕ) (v : Words)
    (hd : ∀ k ∈ ({a, b, c, d} : Set ℕ), k ∉ ({a', b', c', d'} : Set ℕ)) :
    gs a b c d m r1 r2 (gs a' b' c' d' m' r1' r2' v) =
      gs a' b' c' d' m' r1' r2' (gs a b c d m r1 r2 v) :=
  (gs_local a b c d m r1 r2).comm (gs_local a' b' c' d' m' r1' r2') hd v

theorem round_eq (m : Words) (args : List ℕ) (v : Words) : round m args v = mixRound m args v := by
  have h1 : ∀ k ∈ ({0, 4, 8, 12} : Set ℕ), k ∉ ({1, 5, 9, 13} : Set ℕ) := by simp
  have h2 : ∀ k ∈ ({2, 6, 10, 14} : Set ℕ), k ∉ ({3, 7, 11, 15} : Set ℕ) := by simp
  have h3 : ∀ k ∈ ({0, 5, 10, 15} : Set ℕ), k ∉ ({1, 6, 11, 12} : Set ℕ) := by simp
  have h4 : ∀ k ∈ ({2, 7, 8, 13} : Set ℕ), k ∉ ({3, 4, 9, 14} : Set ℕ) := by simp
  simp only [round, mixRound, g_eq]
  rw [gs_comm 0 4 8 12 1 5 9 13 _ _ _ _ _ _ _ h1, gs_comm 2 6 10 14 3 7 11 15 _ _ _ _ _ _ _ h2,
    gs_comm 0 5 10 15 1 6 11 12 _ _ _ _ _ _ _ h3, gs_comm 2 7 8 13 3 4 9 14 _ _ _ _ _ _ _ h4]

/-! ### One compression -/

/- The two words of the byte counter. -/
theorem counter_step (t inc : ℕ) (hinc : inc ≤ 64) :
    let t0 := BitVec.ofNat 32 t + BitVec.ofNat 32 inc
    t0 = BitVec.ofNat 32 (t + inc) ∧
    (if t0.toNat < inc then BitVec.ofNat 32 (t >>> 32) + 1 else BitVec.ofNat 32 (t >>> 32)) =
      BitVec.ofNat 32 ((t + inc) >>> 32) := by
  intro t0
  have hsum : t0 = BitVec.ofNat 32 (t + inc) := (BitVec.ofNat_add t inc).symm
  refine ⟨hsum, ?_⟩
  rw [hsum, BitVec.toNat_ofNat]
  apply BitVec.eq_of_toNat_eq
  simp only [Nat.shiftRight_eq_div_pow]
  split
  · rw [BitVec.toNat_add, BitVec.toNat_ofNat, BitVec.toNat_ofNat]
    have hone : (1 : Word).toNat = 1 := rfl
    rw [hone]
    omega
  · rw [BitVec.toNat_ofNat, BitVec.toNat_ofNat]
    omega

/-- The words of the code's state for the hash state `h` and the byte count `t`. -/
def chainingOf (h : Words) (t : ℕ) : Chaining :=
  ⟨BitVec.ofNat 32 t, BitVec.ofNat 32 (t >>> 32), h⟩

theorem compressStep_eq (f : Bool) (inc : ℕ) (hinc : inc ≤ 64) (input : Buffer) (h : Words) (t : ℕ) :
    compressStep (if f then 0xffffffff#32 else 0) 0 inc input (chainingOf h t) =
      chainingOf (compress h (blockWords input 0) (t + inc) f) (t + inc) := by
  obtain ⟨h0, h1⟩ := counter_step t inc hinc
  rw [h0] at h1
  have hrounds : ∀ (m v : Words), roundArgs.foldl (fun v args => round m args v) v =
      sigma.foldl (fun v s => mixRound m s v) v := by
    intro m v
    have hargs : roundArgs = sigma := rfl
    simp only [round_eq, hargs]
  have hwork : (fun i => [h 0, h 1, h 2, h 3, h 4, h 5, h 6, h 7, 0x6a09e667#32, 0xbb67ae85#32,
      0x3c6ef372#32, 0xa54ff53a#32, 0x510e527f#32 ^^^ BitVec.ofNat 32 (t + inc),
      0x9b05688c#32 ^^^ BitVec.ofNat 32 ((t + inc) >>> 32),
      0x1f83d9ab#32 ^^^ (if f then 0xffffffff#32 else 0), 0x5be0cd19#32 ^^^ 0].getD i 0) =
      workVector h (t + inc) f := by
    funext i
    rcases Nat.lt_or_ge i 16 with hi | hi
    · cases f <;> interval_cases i <;> simp [workVector, iv]
    · have h12 : i ≠ 12 := by omega
      have h13 : i ≠ 13 := by omega
      have h14 : i ≠ 14 := by omega
      have hzero : workVector h (t + inc) f i = iv (i - 8) := by
        cases f <;> simp [workVector, Function.update_of_ne, h12, h13, h14, Nat.not_lt.mpr
          (Nat.le_trans (by decide : 8 ≤ 16) hi)]
      rw [hzero, iv, List.getD_eq_default _ _ (by simpa using hi),
        List.getD_eq_default _ _ (by simp; omega)]
  have hwords : (fun i => u8to32 input (4 * i)) = blockWords input 0 := by
    funext i
    rw [blockWords, Nat.zero_add]
    rfl
  simp only [compressStep, chainingOf, h0, h1, hrounds, hwork, hwords]
  simp only [compress, BitVec.xor_assoc]

/-! ### Words in memory -/

theorem getLsbD_u8to32 (p : Buffer) (off i : ℕ) (hi : i < 32) :
    (u8to32 p off).getLsbD i = (p (off + i / 8)).getLsbD (i % 8) := by
  have hhigh : ∀ (b : Byte) (k : ℕ), 8 ≤ k → b.getLsbD k = false := fun b k hk =>
    BitVec.getLsbD_of_ge b k hk
  have hcases : i / 8 = 0 ∨ i / 8 = 1 ∨ i / 8 = 2 ∨ i / 8 = 3 := by omega
  simp only [u8to32, BitVec.getLsbD_or, BitVec.getLsbD_shiftLeft, BitVec.getLsbD_setWidth]
  rcases hcases with h | h | h | h
  · grind
  · grind
  · grind
  · grind

theorem u32to8_byte (p : Buffer) (off : ℕ) (v : Word) (j : ℕ) (hj : j < 4) :
    u32to8 p off v (off + j) = (v >>> (8 * j)).setWidth 8 := by
  have hmask : ∀ x : Word, (x &&& 0xff#32).setWidth 8 = x.setWidth 8 := by
    intro x
    apply BitVec.eq_of_getLsbD_eq
    intro i hi
    have hones : ∀ i < 8, (0xff#32).getLsbD i = true := by decide
    rw [BitVec.getLsbD_setWidth, BitVec.getLsbD_setWidth, BitVec.getLsbD_and, hones i hi,
      Bool.and_true]
  interval_cases j <;> simp [u32to8, hmask]

theorem u32to8_of_ne (p : Buffer) (off : ℕ) (v : Word) (k : ℕ) (hk : k < off ∨ off + 4 ≤ k) :
    u32to8 p off v k = p k := by
  simp only [u32to8, Function.update_apply]
  rw [if_neg (by omega), if_neg (by omega), if_neg (by omega), if_neg (by omega)]

theorem u8to32_u32to8 (p : Buffer) (off : ℕ) (v : Word) : u8to32 (u32to8 p off v) off = v := by
  apply BitVec.eq_of_getLsbD_eq
  intro i hi
  have hpos : 8 * (i / 8) + i % 8 = i := by omega
  rw [getLsbD_u8to32 _ _ _ hi, u32to8_byte _ _ _ _ (by omega), BitVec.getLsbD_setWidth,
    BitVec.getLsbD_ushiftRight, hpos, decide_eq_true (Nat.mod_lt i (by decide)), Bool.true_and]

theorem u8to32_congr (p q : Buffer) (off : ℕ) (h : ∀ j < 4, p (off + j) = q (off + j)) :
    u8to32 p off = u8to32 q off := by
  have h0 := h 0 (by decide)
  rw [Nat.add_zero] at h0
  rw [u8to32, u8to32, h0, h 1 (by decide), h 2 (by decide), h 3 (by decide)]

theorem u8to32_u32to8_of_ne (p : Buffer) (off off' : ℕ) (v : Word)
    (hne : off' + 4 ≤ off ∨ off + 4 ≤ off') : u8to32 (u32to8 p off v) off' = u8to32 p off' :=
  u8to32_congr _ _ _ fun j hj => u32to8_of_ne _ _ _ _ (by omega)

/- The eight words of the hash, stored one after the other. -/
theorem u8to32_stored (h : Words) (p : Buffer) (n i : ℕ) (hi : i < n) :
    u8to32 (forRange n (fun i p => u32to8 p (4 * i) (h i)) p) (4 * i) = h i := by
  induction n with
  | zero => exact absurd hi (Nat.not_lt_zero i)
  | succ n ih =>
    rw [forRange_succ]
    rcases eq_or_ne i n with rfl | hne
    · exact u8to32_u32to8 _ _ _
    · rw [u8to32_u32to8_of_ne _ _ _ _ (by omega), ih (by omega)]

/-! ### Chains -/

theorem workVector_congr (h h' : Words) (hh : ∀ i < 8, h i = h' i) (t : ℕ) (f : Bool) :
    workVector h t f = workVector h' t f := by
  have hstart : (fun i => if i < 8 then h i else iv (i - 8)) =
      fun i => if i < 8 then h' i else iv (i - 8) := by
    funext i
    split
    case isTrue hi => exact hh i hi
    case isFalse => rfl
  unfold workVector
  rw [hstart]

theorem mixRound_congr (m m' : Words) (hm : ∀ i < 16, m i = m' i) (s : List ℕ)
    (hs : ∀ x ∈ s, x < 16) : mixRound m s = mixRound m' s := by
  have hargs : (fun i => m (s.getD i 0)) = fun i => m' (s.getD i 0) := by
    funext i
    refine hm _ ?_
    rcases Nat.lt_or_ge i s.length with hi | hi
    · rw [List.getD_eq_getElem s 0 hi]
      exact hs _ (List.getElem_mem hi)
    · rw [List.getD_eq_default s 0 hi]
      decide
  funext v
  unfold mixRound
  rw [hargs]

/- Only eight words of the state and sixteen of the block count. -/
theorem compress_congr (h h' m m' : Words) (hh : ∀ i < 8, h i = h' i) (hm : ∀ i < 16, m i = m' i)
    (t : ℕ) (f : Bool) : ∀ i < 8, compress h m t f i = compress h' m' t f i := by
  have hbelow : ∀ s ∈ sigma, ∀ x ∈ s, x < 16 := by decide
  have hrounds : ∀ v, sigma.foldl (fun v s => mixRound m s v) v =
      sigma.foldl (fun v s => mixRound m' s v) v := fun v =>
    List.foldl_ext _ _ v fun v s hs => by rw [mixRound_congr m m' hm s (hbelow s hs)]
  intro i hi
  simp only [compress, if_pos hi, hh i hi, workVector_congr h h' hh, hrounds]

/-- `chain` from the byte count `t` on. -/
def chainFrom (t : ℕ) (h : Words) (data : Buffer) (n : ℕ) : Words :=
  forRange n (fun i h => compress h (blockWords data (64 * i)) (t + 64 * (i + 1)) false) h

theorem chainFrom_zero (t : ℕ) (h : Words) (data : Buffer) : chainFrom t h data 0 = h := rfl

theorem chainFrom_succ (t : ℕ) (h : Words) (data : Buffer) (n : ℕ) : chainFrom t h data (n + 1) =
    compress (chainFrom t h data n) (blockWords data (64 * n)) (t + 64 * (n + 1)) false := rfl

theorem chain_eq (h : Words) (data : Buffer) (n : ℕ) : chain h data n = chainFrom 0 h data n := by
  simp only [chain, chainFrom, Nat.zero_add]

theorem blockWords_shift (data : Buffer) (k p : ℕ) :
    blockWords (fun q => data (q + k)) p = blockWords data (p + k) := by
  funext i
  have hpos : ∀ j, p + 4 * i + j + k = p + k + 4 * i + j := fun j => by omega
  have hpos0 : p + 4 * i + k = p + k + 4 * i := by omega
  simp only [blockWords, leWord, hpos, hpos0]

theorem chainFrom_add (t : ℕ) (h : Words) (data : Buffer) (n m : ℕ) :
    chainFrom t h data (n + m) =
      chainFrom (t + 64 * n) (chainFrom t h data n) (fun p => data (p + 64 * n)) m := by
  rw [chainFrom, forRange_add]
  refine forRange_congr _ _ _ _ fun i _ h => ?_
  have hcount : t + 64 * (n + i + 1) = t + 64 * n + 64 * (i + 1) := by omega
  have hpos : 64 * (n + i) = 64 * i + 64 * n := by omega
  rw [blockWords_shift, hcount, hpos]

theorem chainFrom_congr (t : ℕ) (h h' : Words) (hh : ∀ i < 8, h i = h' i) (data : Buffer) (n : ℕ) :
    ∀ i < 8, chainFrom t h data n i = chainFrom t h' data n i := by
  induction n with
  | zero => exact hh
  | succ n ih =>
    rw [chainFrom_succ, chainFrom_succ]
    exact compress_congr _ _ _ _ ih (fun _ _ => rfl) _ _

theorem blockWords_congr (data data' : Buffer) (p : ℕ)
    (h : ∀ q, p ≤ q → q < p + 64 → data q = data' q) (i : ℕ) (hi : i < 16) :
    blockWords data p i = blockWords data' p i := by
  rw [blockWords, blockWords, leWord, leWord, h _ (by omega) (by omega), h _ (by omega) (by omega),
    h _ (by omega) (by omega), h _ (by omega) (by omega)]

end Pobc.Blake2s
