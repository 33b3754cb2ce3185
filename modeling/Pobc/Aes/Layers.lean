import Pobc.Aes.Fips197

/-!
# The layers of AES-128

The recurrence of the key expansion, as equations of the finished schedule, and
the invertibility of the cipher: each layer is injective, so two different
blocks never encrypt to the same one.
-/

namespace Pobc.Aes
open Pobc.Loop

variable {α : Type*}

/-! ### Columns -/

theorem column_ofColumns (f : ℕ → Fin 4 → α) (c : ℕ) (hc : c < 4) :
    column (ofColumns f) c = f c := by
  funext r
  have hr := r.isLt
  have hmod : (4 * c + r.val) % 16 = 4 * c + r.val := by omega
  have hdiv : (4 * c + r.val) / 4 = c := by omega
  have hrow : Fin.ofNat 4 (4 * c + r.val) = r := by
    apply Fin.ext
    simp only [Fin.ofNat]
    omega
  simp only [column, byteAt, ofColumns, Fin.ofNat, hmod, hdiv]
  exact congrArg (f c) hrow

theorem ofColumns_column (s : Fin 16 → α) : ofColumns (column s) = s := by
  funext i
  have hi : 4 * (i.val / 4) + i.val % 4 = i.val := by omega
  simp only [ofColumns, column, Fin.ofNat, hi]
  exact byteAt_val s i

theorem column_ext (s t : Fin 16 → α) (h : ∀ c < 4, column s c = column t c) : s = t := by
  rw [← ofColumns_column s, ← ofColumns_column t]
  funext i
  have hi := i.isLt
  simp only [ofColumns, h (i.val / 4) (by omega)]

/-! ### Key expansion -/

theorem word_setWord_self (w : ℕ → α) (i : ℕ) (v : Fin 4 → α) : word (setWord w i v) i = v := by
  funext j
  have hj := j.isLt
  have hdiv : (4 * i + j.val) / 4 = i := by omega
  have hcol : Fin.ofNat 4 (4 * i + j.val) = j := by
    apply Fin.ext
    simp only [Fin.ofNat]
    omega
  simp only [word, setWord, hdiv, if_true, hcol]

theorem word_setWord_of_ne (w : ℕ → α) (i k : ℕ) (v : Fin 4 → α) (hk : k ≠ i) :
    word (setWord w i v) k = word w k := by
  funext j
  have hj := j.isLt
  have hdiv : ¬ (4 * k + j.val) / 4 = i := by omega
  simp only [word, setWord, if_neg hdiv]

section Words

variable (f : ℕ → (ℕ → α) → Fin 4 → α)

/- Round `n` writes word `n + 4`; the words below keep their final values. -/
theorem word_forRange_setWord (w : ℕ → α) (n d i : ℕ) (hi : i < n + 4) :
    word (forRange (n + d) (fun n w => setWord w (n + 4) (f n w)) w) i =
      word (forRange n (fun n w => setWord w (n + 4) (f n w)) w) i := by
  induction d with
  | zero => rfl
  | succ d ih =>
    have hne : i ≠ n + d + 4 := by omega
    rw [← Nat.add_assoc, forRange_succ, word_setWord_of_ne _ _ _ _ hne, ih]

/- The words of a loop whose rounds read finished words satisfy its recurrence. -/
theorem word_forRange_recurrence
    (hf : ∀ n w w', (∀ i < n + 4, word w i = word w' i) → f n w = f n w') (w : ℕ → α)
    (m n : ℕ) (hn : n < m) :
    word (forRange m (fun n w => setWord w (n + 4) (f n w)) w) (n + 4) =
      f n (forRange m (fun n w => setWord w (n + 4) (f n w)) w) := by
  have hfinal : ∀ k ≤ m, ∀ i < k + 4,
      word (forRange m (fun n w => setWord w (n + 4) (f n w)) w) i =
      word (forRange k (fun n w => setWord w (n + 4) (f n w)) w) i := by
    intro k hk i hi
    have h := word_forRange_setWord f w k (m - k) i hi
    have hsum : k + (m - k) = m := by omega
    rwa [hsum] at h
  rw [hfinal (n + 1) hn (n + 4) (by omega), forRange_succ, word_setWord_self]
  exact hf n _ _ fun i hi => (hfinal n (by omega) i hi).symm

end Words

theorem word_forRange_expandStep (w : ℕ → Byte) (n d i : ℕ) (hi : i < n + 4) :
    word (forRange (n + d) expandStep w) i = word (forRange n expandStep w) i :=
  word_forRange_setWord _ w n d i hi

theorem word_keyExpansion_key (key : Block) (i : ℕ) (hi : i < 4) :
    word (keyExpansion key) i = column key i := by
  have hkeep := word_forRange_expandStep (keyBytes key 0) 0 40 i (by omega)
  rw [keyExpansion, hkeep]
  funext j
  have hj := j.isLt
  have hlt : 4 * i + j.val < 16 := by omega
  simp only [forRange_zero, word, keyBytes, if_pos hlt, column]

theorem scheduleWord_congr (w w' : ℕ → Byte) (i : ℕ) (h : word w (i - 1) = word w' (i - 1)) :
    scheduleWord w i = scheduleWord w' i := by
  simp only [scheduleWord, h]

theorem word_keyExpansion (key : Block) (n : ℕ) (hn : n < 40) :
    word (keyExpansion key) (n + 4) =
      fun j => word (keyExpansion key) n j ^^^ scheduleWord (keyExpansion key) (n + 4) j := by
  refine word_forRange_recurrence (fun n w j => word w n j ^^^ scheduleWord w (n + 4) j)
    (fun n w w' h => ?_) (keyBytes key 0) 40 n hn
  rw [h n (by omega), scheduleWord_congr w w' (n + 4) (h (n + 4 - 1) (by omega))]

/- The recurrence has one solution. -/
theorem word_keyExpansion_unique (key : Block) (w : ℕ → Byte)
    (hkey : ∀ i < 4, word w i = column key i)
    (hstep : ∀ n < 40, word w (n + 4) = fun j => word w n j ^^^ scheduleWord w (n + 4) j)
    (i : ℕ) (hi : i < 44) : word (keyExpansion key) i = word w i := by
  induction i using Nat.strong_induction_on with
  | h i ih =>
    by_cases h4 : i < 4
    · rw [hkey i h4, word_keyExpansion_key key i h4]
    · have hn : i - 4 + 4 = i := by omega
      rw [← hn, word_keyExpansion key (i - 4) (by omega), hstep (i - 4) (by omega),
        ih (i - 4) (by omega) (by omega),
        scheduleWord_congr _ w (i - 4 + 4) (ih (i - 4 + 4 - 1) (by omega) (by omega))]

theorem roundKey_congr (w w' : ℕ → Byte) (h : ∀ i < 44, word w i = word w' i) (r : ℕ)
    (hr : r < 11) : roundKey w r = roundKey w' r := by
  funext i
  have hi := i.isLt
  have hj : i.val % 4 < 4 := Nat.mod_lt _ (by omega)
  have hpos : 4 * (4 * r + i.val / 4) + i.val % 4 = 16 * r + i.val := by omega
  have hbyte := congrFun (h (4 * r + i.val / 4) (by omega)) ⟨i.val % 4, hj⟩
  simp only [word, hpos] at hbyte
  exact hbyte

/-! ### Evaluating the cipher -/

/- The cipher along a given schedule and given states between its rounds. -/
theorem aes128_of_trace (key input : Block) (w : ℕ → Byte) (s : ℕ → Block)
    (hkey : ∀ i < 4, word w i = column key i)
    (hstep : ∀ n < 40, word w (n + 4) = fun j => word w n j ^^^ scheduleWord w (n + 4) j)
    (hinput : s 0 = xorBlocks input (roundKey w 0))
    (hround : ∀ n < 9, s (n + 1) = cipherRound w n (s n)) :
    aes128 key input = finalRound w (s 9) := by
  have hkeys := roundKey_congr _ w (word_keyExpansion_unique key w hkey hstep)
  have hrounds : ∀ n ≤ 9, forRange n (cipherRound (keyExpansion key))
      (xorBlocks input (roundKey (keyExpansion key) 0)) = s n := by
    intro n
    induction n with
    | zero =>
      intro _
      rw [forRange_zero, hkeys 0 (by omega), hinput]
    | succ n ih =>
      intro hn
      rw [forRange_succ, ih (by omega), hround n (by omega), cipherRound, cipherRound,
        hkeys (n + 1) (by omega)]
  rw [aes128, cipher, hrounds 9 (le_refl 9), finalRound, finalRound, hkeys 10 (by omega)]

/-- `c` is the value of the S-box at `b`: the affine map takes an inverse of `b` to it. -/
def SboxPair (b c : Byte) : Prop :=
  let y := invAffineLinear (c ^^^ 0x63)
  affineLinear y ^^^ 0x63 = c ∧ (b = 0 ∧ y = 0 ∨ lane b * lane y = 1)

instance (b c : Byte) : Decidable (SboxPair b c) := inferInstanceAs (Decidable (_ ∧ _))

theorem sbox_of_pair (b c : Byte) (h : SboxPair b c) : sbox b = c := by
  obtain ⟨hc, hinv⟩ := h
  have hy : gfInv (lane b) = lane (invAffineLinear (c ^^^ 0x63)) := by
    rcases hinv with ⟨hb, hzero⟩ | hmul
    · rw [hb, hzero]
      decide
    · exact gfInv_of_mul_eq_one _ _ hmul
  rw [sbox, hy]
  exact hc

/- The same with the states on both sides of `SubBytes`; no inverse has to be computed. -/
theorem aes128_of_states (key input : Block) (w : ℕ → Byte) (s sub : ℕ → Block)
    (hkey : ∀ i < 4, word w i = column key i)
    (hstep : ∀ n < 40, word w (n + 4) = fun j => word w n j ^^^ scheduleWord w (n + 4) j)
    (hinput : s 0 = xorBlocks input (roundKey w 0))
    (hsub : ∀ n < 9, ∀ j, SboxPair (s n j) (sub n j))
    (hlinear : ∀ n < 9,
      s (n + 1) = xorBlocks (mixColumns (shiftRows (sub n))) (roundKey w (n + 1))) :
    aes128 key input = finalRound w (s 9) := by
  refine aes128_of_trace key input w s hkey hstep hinput fun n hn => ?_
  have hbytes : subBytes (s n) = sub n := funext fun j => sbox_of_pair _ _ (hsub n hn j)
  rw [cipherRound, hbytes]
  exact hlinear n hn

/-! ### The zero key on `00 00 00 01 00 … 00` -/

def blockOf (x : BitVec 128) : Block := fun j => x.extractLsb' (8 * (15 - j)) 8

def zeroKeySchedule (p : ℕ) : Byte :=
  byteAt (blockOf ([0x00000000000000000000000000000000#128, 0x62636363626363636263636362636363#128,
    0x9b9898c9f9fbfbaa9b9898c9f9fbfbaa#128, 0x90973450696ccffaf2f457330b0fac99#128,
    0xee06da7b876a1581759e42b27e91ee2b#128, 0x7f2e2b88f8443e098dda7cbbf34b9290#128,
    0xec614b851425758c99ff09376ab49ba7#128, 0x217517873550620bacaf6b3cc61bf09b#128,
    0x0ef903333ba9613897060a04511dfa9f#128, 0xb1d4d8e28a7db9da1d7bb3de4c664941#128,
    0xb4ef5bcb3e92e21123e951cf6f8f188e#128].getD (p / 16) 0)) (p % 16)

def zeroKeyTrace (n : ℕ) : Block :=
  blockOf ([0x00000001000000000000000000000000#128, 0x010000001e1f213e0100000001000000#128,
    0x38b94728b88989fa17358c323a3ea076#128, 0x305114eac438b25049ad39706ef24ab5#128,
    0x28ef99d34aa1b9f32aeaea2a55bf3dd5#128, 0xc5ef3d679c888b04a70b4173d90d29d7#128,
    0x61c4262feedc456a968dc1dcc8ec811f#128, 0xcdc5d5c89bc330082bb8c6aac1ff49dd#128,
    0x681ebbec74c04c9867eebb79f892c3f6#128, 0x46992ef92d0316f671037c63c70ee9ae#128].getD n 0)

/-- The states of `zeroKeyTrace` after `SubBytes`. -/
def zeroKeyTraceSub (n : ℕ) : Block :=
  blockOf ([0x6363637c636363636363636363636363#128, 0x7c63636372c0fdb27c6363637c636363#128,
    0x0756a0346ca7a72df096642380b2e038#128, 0x04d1fa871c0737533b9512519f89d6d5#128,
    0x34dfee66d632560de58787e5fc082703#128, 0xa6df2785dec43df25c2b838f35d7a50e#128,
    0xef1cf71528866e02905d7886e8ce0cc0#128, 0xbda603e8142e0430f16cb4ac78163bc1#128,
    0x4572eace92ba29468528eab6414f2e42#128].getD n 0)

theorem zeroKeyTrace_pairs : ∀ n < 9, ∀ j, SboxPair (zeroKeyTrace n j) (zeroKeyTraceSub n j) := by
  decide +kernel

theorem zeroKeySchedule_step : ∀ n < 40, word zeroKeySchedule (n + 4) =
    fun j => word zeroKeySchedule n j ^^^ scheduleWord zeroKeySchedule (n + 4) j := by
  decide +kernel

theorem aes128_zero_one : aes128 zeroBlock (blockOf 0x00000001000000000000000000000000#128) =
    blockOf 0xee944b2fe6e9fc888042608da9615f75#128 := by
  rw [aes128_of_states _ _ zeroKeySchedule zeroKeyTrace zeroKeyTraceSub (by decide)
    zeroKeySchedule_step (by decide +kernel) zeroKeyTrace_pairs (by decide +kernel)]
  decide +kernel

/-! ### Invertibility -/

theorem subBytes_injective : Function.Injective subBytes := by
  intro s t h
  funext i
  exact sbox_injective (congrFun h i)

theorem shiftRows_injective : Function.Injective (shiftRows : (Fin 16 → α) → Fin 16 → α) := by
  intro s t h
  have hsource : ∀ i : Fin 16, ∃ k : Fin 16,
      Fin.ofNat 16 (4 * ((k.val / 4 + k.val % 4) % 4) + k.val % 4) = i := by decide
  funext i
  obtain ⟨k, hk⟩ := hsource i
  have hbyte := congrFun h k
  simp only [shiftRows, byteAt, hk] at hbyte
  exact hbyte

/- Row `r` of `MixColumns` as a combination of the four rows from `r` on. -/
theorem lane_mixColumn (a : Fin 4 → Byte) (r : Fin 4) :
    lane (mixColumn a r) = Gf.power 8 0x1b#8 1 * lane (a r) +
      (Gf.power 8 0x1b#8 1 + 1) * lane (a (r + 1)) + lane (a (r + 2)) + lane (a (r + 3)) := by
  have hx : ∀ b : Byte, lane (xtime b) = Gf.power 8 0x1b#8 1 * lane b := fun b =>
    Gf.mulY_eq (by decide) (lane b)
  rw [add_mul, one_mul, ← hx, ← hx]
  match r with
  | 0 => rfl
  | 1 =>
    show lane (a 0) + lane (xtime (a 1)) + (lane (xtime (a 2)) + lane (a 2)) + lane (a 3) =
      lane (xtime (a 1)) + (lane (xtime (a 2)) + lane (a 2)) + lane (a 3) + lane (a 0)
    abel
  | 2 =>
    show lane (a 0) + lane (a 1) + lane (xtime (a 2)) + (lane (xtime (a 3)) + lane (a 3)) =
      lane (xtime (a 2)) + (lane (xtime (a 3)) + lane (a 3)) + lane (a 0) + lane (a 1)
    abel
  | 3 =>
    show (lane (xtime (a 0)) + lane (a 0)) + lane (a 1) + lane (a 2) + lane (xtime (a 3)) =
      lane (xtime (a 3)) + (lane (xtime (a 0)) + lane (a 0)) + lane (a 1) + lane (a 2)
    abel

theorem mixColumn_xor (a b : Fin 4 → Byte) :
    mixColumn (fun j => a j ^^^ b j) = fun j => mixColumn a j ^^^ mixColumn b j := by
  funext r
  apply lane_inj
  simp only [lane_xor, lane_mixColumn, mul_add]
  abel

/- The inverse circulant works over any ring of characteristic two. -/
theorem circulant_inverse {R : Type*} [CommRing R] (h2 : (2 : R) = 0) (x a b c d : R) :
    (x^3 + x^2 + x) * (x * a + (x + 1) * b + c + d) +
      (x^3 + x + 1) * (x * b + (x + 1) * c + d + a) +
      (x^3 + x^2 + 1) * (x * c + (x + 1) * d + a + b) +
      (x^3 + 1) * (x * d + (x + 1) * a + b + c) = a := by
  linear_combination ((x^4 + 2 * x^3 + x^2 + x + 1) * a + (x^4 + 2 * x^3 + 2 * x^2 + x + 1) * b +
    (x^4 + 2 * x^3 + x^2 + 2 * x + 1) * c + (x^4 + 2 * x^3 + x^2 + 2 * x + 1) * d) * h2

/- Row `r` of the inverse matrix, `{0e} {0b} {0d} {09}`, gives back byte `r`. -/
theorem lane_of_mixColumn (a : Fin 4 → Byte) (r : Fin 4) :
    let y := Gf.power 8 0x1b#8 1
    (y^3 + y^2 + y) * lane (mixColumn a r) + (y^3 + y + 1) * lane (mixColumn a (r + 1)) +
      (y^3 + y^2 + 1) * lane (mixColumn a (r + 2)) + (y^3 + 1) * lane (mixColumn a (r + 3)) =
      lane (a r) := by
  intro y
  have h4 : ∀ r : Fin 4, r + 1 + 1 = r + 2 ∧ r + 1 + 2 = r + 3 ∧ r + 1 + 3 = r ∧
      r + 2 + 1 = r + 3 ∧ r + 2 + 2 = r ∧ r + 2 + 3 = r + 1 ∧
      r + 3 + 1 = r ∧ r + 3 + 2 = r + 1 ∧ r + 3 + 3 = r + 2 := by
    decide
  obtain ⟨h11, h12, h13, h21, h22, h23, h31, h32, h33⟩ := h4 r
  rw [lane_mixColumn a r, lane_mixColumn a (r + 1), lane_mixColumn a (r + 2),
    lane_mixColumn a (r + 3), h11, h12, h13, h21, h22, h23, h31, h32, h33]
  exact circulant_inverse Gf.two_eq_zero y _ _ _ _

theorem mixColumn_injective : Function.Injective mixColumn := by
  intro a b h
  funext r
  apply lane_inj
  rw [← lane_of_mixColumn a r, ← lane_of_mixColumn b r, h]

theorem mixColumns_injective : Function.Injective mixColumns := by
  intro s t h
  refine column_ext s t fun c hc => mixColumn_injective ?_
  have hcol := congrArg (fun u => column u c) h
  simp only [mixColumns, column_ofColumns _ c hc] at hcol
  exact hcol

theorem xorBlocks_injective (k : Block) : Function.Injective fun s => xorBlocks s k := by
  intro s t h
  funext i
  exact (BitVec.xor_left_inj _).mp (congrFun h i)

theorem cipherRound_injective (w : ℕ → Byte) (n : ℕ) : Function.Injective (cipherRound w n) := by
  intro s t h
  exact subBytes_injective (shiftRows_injective (mixColumns_injective (xorBlocks_injective _ h)))

theorem rounds_injective (w : ℕ → Byte) (n : ℕ) :
    Function.Injective (forRange n (cipherRound w)) := by
  induction n with
  | zero => exact fun _ _ h => h
  | succ n ih => exact (cipherRound_injective w n).comp ih

theorem cipher_injective (w : ℕ → Byte) : Function.Injective (cipher w) := by
  intro s t h
  have hlast := subBytes_injective (shiftRows_injective (xorBlocks_injective _ h))
  exact xorBlocks_injective _ (rounds_injective w 9 hlast)

end Pobc.Aes
