import Pobc.Iot.MbedtlsKeys

/-!
# The block functions of mbedTLS

The four words of the state are the columns of FIPS-197. `AES_FROUND` is a round of the
cipher and `AES_RROUND` one of the equivalent inverse cipher, whose inner round keys
`mbedtls_aes_setkey_dec` has sent through the inverse of `MixColumns`.
-/

namespace Pobc.MbedtlsAes
open Pobc.Loop Pobc.Iot
open Pobc.Aes (sbox invSbox column column_ext column_ofColumns mixColumn mixColumns shiftRows subBytes
  invMixColumn invMixColumns invShiftRows invSubBytes roundKey cipherRound cipherOf finalRoundOf)

/-! ### States -/

def Quad.word (x : Quad) (c : ℕ) : Word := [x.x0, x.x1, x.x2, x.x3].getD c 0

/-- The state of FIPS-197 in four words. -/
def quadState (x : Quad) : Block := fun i => wordByte (i.val % 4) (x.word (i.val / 4))

/-- The round key at `RK + p`. -/
def keyBlock (RK : ℕ → Word) (p : ℕ) : Block := fun i => wordByte (i.val % 4) (RK (p + i.val / 4))

theorem column_quadState (x : Quad) (c : ℕ) (hc : c < 4) :
    column (quadState x) c = fun r : Fin 4 => wordByte r (x.word c) := by
  funext r
  have hr := r.isLt
  have hin : (4 * c + r.val) % 16 = 4 * c + r.val := by omega
  have hdiv : (4 * c + r.val) / 4 = c := by omega
  have hmod : (4 * c + r.val) % 4 = r.val := by omega
  rw [column, byteAt, quadState, Fin.val_ofNat, hin, hdiv, hmod]

theorem column_keyBlock (RK : ℕ → Word) (p c : ℕ) (hc : c < 4) :
    column (keyBlock RK p) c = fun r : Fin 4 => wordByte r (RK (p + c)) := by
  funext r
  have hr := r.isLt
  have hin : (4 * c + r.val) % 16 = 4 * c + r.val := by omega
  have hdiv : (4 * c + r.val) / 4 = c := by omega
  have hmod : (4 * c + r.val) % 4 = r.val := by omega
  rw [column, byteAt, keyBlock, Fin.val_ofNat, hin, hdiv, hmod]

theorem column_xorBlocks (s k : Block) (c : ℕ) :
    column (xorBlocks s k) c = fun r => column s c r ^^^ column k c r := rfl

/- A state made of four words, each with its part of the round key. -/
theorem quadState_eq (x : Quad) (s : Block) (RK : ℕ → Word) (p : ℕ)
    (h : ∀ c < 4, x.word c = RK (p + c) ^^^ wordOf (column s c)) :
    quadState x = xorBlocks s (keyBlock RK p) := by
  refine column_ext _ _ fun c hc => ?_
  rw [column_quadState x c hc, column_xorBlocks, column_keyBlock RK p c hc, h c hc]
  funext r
  rw [wordByte_xor, wordByte_wordOf, BitVec.xor_comm]

/-! ### Rounds -/

theorem wordOf_xor (a b : Fin 4 → Byte) : wordOf a ^^^ wordOf b = wordOf fun r => a r ^^^ b r := by
  refine wordOf_ext _ _ fun r => ?_
  rw [wordByte_xor, wordByte_wordOf, wordByte_wordOf]

theorem mixColumn_eq (a : Fin 4 → Byte) : mixColumn a = fun r =>
    mixOf (a 0) r ^^^ mixOf (a 1) (r + 3) ^^^ mixOf (a 2) (r + 2) ^^^ mixOf (a 3) (r + 1) := by
  funext r
  fin_cases r <;> rfl

theorem invMixColumn_eq (a : Fin 4 → Byte) : invMixColumn a = fun r =>
    invMixOf (a 0) r ^^^ invMixOf (a 1) (r + 3) ^^^ invMixOf (a 2) (r + 2) ^^^
      invMixOf (a 3) (r + 1) := by
  funext r
  fin_cases r <;> rfl

/-- Whatever the tables and the two arrays hold before, four look-ups are then a column
of `SubBytes` and `MixColumns`, or of the inverse layers. -/
theorem aesGenTables_lookups (pow₀ log₀ : ℕ → ℕ) (t₀ : Tables) :
    let t := aesGenTables pow₀ log₀ t₀
    (∀ b : Byte, t.FSb b.toNat = sbox b ∧ t.RSb (sbox b).toNat = b) ∧
    (∀ a : Fin 4 → Byte, t.FT0 (a 0).toNat ^^^ t.FT1 (a 1).toNat ^^^ t.FT2 (a 2).toNat ^^^
      t.FT3 (a 3).toNat = wordOf (mixColumn fun r => sbox (a r))) ∧
    (∀ a : Fin 4 → Byte, t.RT0 (a 0).toNat ^^^ t.RT1 (a 1).toNat ^^^ t.RT2 (a 2).toNat ^^^
      t.RT3 (a 3).toNat = wordOf (invMixColumn fun r => invSbox (a r))) ∧
    ∀ i < 10, t.RCON i = (Aes.xtime^[i] 1).setWidth 32 := by
  intro t
  have ht : Correct t := correct_aesGenTables pow₀ log₀ t₀
  refine ⟨fun b => ⟨ht.fsb b, ?_⟩, fun a => ?_, fun a => ?_, ht.rcon⟩
  · rw [ht.rsb, Aes.invSbox_sbox]
  · rw [ht.ft0, ht.ft1, ht.ft2, ht.ft3, mixColumn_eq, ← wordOf_xor, ← wordOf_xor, ← wordOf_xor]
  · rw [ht.rt0, ht.rt1, ht.rt2, ht.rt3, invMixColumn_eq, ← wordOf_xor, ← wordOf_xor, ← wordOf_xor]

section Correct

variable {t : Tables} (ht : Correct t)

include ht in
theorem fWord_eq (k y0 y1 y2 y3 : Word) : fWord t k y0 y1 y2 y3 = k ^^^ wordOf (mixColumn
    ![sbox (wordByte 0 y0), sbox (wordByte 1 y1), sbox (wordByte 2 y2), sbox (wordByte 3 y3)]) := by
  rw [fWord, ht.ft0, ht.ft1, ht.ft2, ht.ft3, mixColumn_eq, ← wordOf_xor, ← wordOf_xor, ← wordOf_xor,
    BitVec.xor_assoc, BitVec.xor_assoc, BitVec.xor_assoc, BitVec.xor_assoc, BitVec.xor_assoc]
  rfl

include ht in
theorem rWord_eq (k y0 y1 y2 y3 : Word) : rWord t k y0 y1 y2 y3 = k ^^^ wordOf (invMixColumn
    ![invSbox (wordByte 0 y0), invSbox (wordByte 1 y1), invSbox (wordByte 2 y2),
      invSbox (wordByte 3 y3)]) := by
  rw [rWord, ht.rt0, ht.rt1, ht.rt2, ht.rt3, invMixColumn_eq, ← wordOf_xor, ← wordOf_xor,
    ← wordOf_xor, BitVec.xor_assoc, BitVec.xor_assoc, BitVec.xor_assoc, BitVec.xor_assoc,
    BitVec.xor_assoc]
  rfl

theorem lastWord_eq (box : ℕ → Byte) (f : Byte → Byte) (hbox : ∀ b : Byte, box b.toNat = f b)
    (k y0 y1 y2 y3 : Word) : lastWord box k y0 y1 y2 y3 = k ^^^ wordOf
      ![f (wordByte 0 y0), f (wordByte 1 y1), f (wordByte 2 y2), f (wordByte 3 y3)] := by
  rw [lastWord, hbox, hbox, hbox, hbox, BitVec.xor_assoc, BitVec.xor_assoc, BitVec.xor_assoc,
    wordOf, BitVec.xor_assoc, BitVec.xor_assoc]
  rfl

/- The columns of the state behind `SubBytes` and `ShiftRows`. -/
theorem column_shiftRows_subBytes (y : Quad) (c : ℕ) (hc : c < 4) :
    column (shiftRows (subBytes (quadState y))) c =
      ![sbox (wordByte 0 (y.word c)), sbox (wordByte 1 (y.word ((c + 1) % 4))),
        sbox (wordByte 2 (y.word ((c + 2) % 4))), sbox (wordByte 3 (y.word ((c + 3) % 4)))] := by
  have hcases : c = 0 ∨ c = 1 ∨ c = 2 ∨ c = 3 := by omega
  funext r
  rcases hcases with rfl | rfl | rfl | rfl <;> fin_cases r <;> rfl

theorem column_invShiftRows_invSubBytes (y : Quad) (c : ℕ) (hc : c < 4) :
    column (invShiftRows (invSubBytes (quadState y))) c =
      ![invSbox (wordByte 0 (y.word c)), invSbox (wordByte 1 (y.word ((c + 3) % 4))),
        invSbox (wordByte 2 (y.word ((c + 2) % 4))),
        invSbox (wordByte 3 (y.word ((c + 1) % 4)))] := by
  have hcases : c = 0 ∨ c = 1 ∨ c = 2 ∨ c = 3 := by omega
  funext r
  rcases hcases with rfl | rfl | rfl | rfl <;> fin_cases r <;> rfl

include ht in
theorem quadState_fround (RK : ℕ → Word) (s : Rounds) : quadState (fround t RK s).x =
    xorBlocks (mixColumns (shiftRows (subBytes (quadState s.x)))) (keyBlock RK s.p) := by
  refine quadState_eq _ _ _ _ fun c hc => ?_
  rw [mixColumns, column_ofColumns _ c hc, column_shiftRows_subBytes _ c hc, ← fWord_eq ht]
  have hcases : c = 0 ∨ c = 1 ∨ c = 2 ∨ c = 3 := by omega
  rcases hcases with rfl | rfl | rfl | rfl <;> rfl

include ht in
theorem quadState_rround (RK : ℕ → Word) (s : Rounds) : quadState (rround t RK s).x =
    xorBlocks (invMixColumns (invShiftRows (invSubBytes (quadState s.x)))) (keyBlock RK s.p) := by
  refine quadState_eq _ _ _ _ fun c hc => ?_
  rw [invMixColumns, column_ofColumns _ c hc, column_invShiftRows_invSubBytes _ c hc,
    ← rWord_eq ht]
  have hcases : c = 0 ∨ c = 1 ∨ c = 2 ∨ c = 3 := by omega
  rcases hcases with rfl | rfl | rfl | rfl <;> rfl

include ht in
theorem quadState_lastFround (RK : ℕ → Word) (s : Rounds) : quadState (lastFround t RK s) =
    xorBlocks (shiftRows (subBytes (quadState s.x))) (keyBlock RK s.p) := by
  refine quadState_eq _ _ _ _ fun c hc => ?_
  rw [column_shiftRows_subBytes _ c hc, ← lastWord_eq t.FSb sbox ht.fsb]
  have hcases : c = 0 ∨ c = 1 ∨ c = 2 ∨ c = 3 := by omega
  rcases hcases with rfl | rfl | rfl | rfl <;> rfl

include ht in
theorem quadState_lastRround (RK : ℕ → Word) (s : Rounds) : quadState (lastRround t RK s) =
    xorBlocks (invShiftRows (invSubBytes (quadState s.x))) (keyBlock RK s.p) := by
  refine quadState_eq _ _ _ _ fun c hc => ?_
  rw [column_invShiftRows_invSubBytes _ c hc, ← lastWord_eq t.RSb invSbox ht.rsb]
  have hcases : c = 0 ∨ c = 1 ∨ c = 2 ∨ c = 3 := by omega
  rcases hcases with rfl | rfl | rfl | rfl <;> rfl

end Correct

/-! ### Loading and storing -/

theorem wordByte_eq (k : ℕ) (x : Word) : wordByte k x = (x >>> (8 * k)).setWidth 8 := by
  apply BitVec.eq_of_getLsbD_eq
  intro i hi
  rw [getLsbD_wordByte _ _ _ hi, BitVec.getLsbD_setWidth, BitVec.getLsbD_ushiftRight,
    decide_eq_true hi, Bool.true_and]

theorem quadState_loadQuad (RK : ℕ → Word) (input : Block) :
    quadState (loadQuad RK input) = xorBlocks input (keyBlock RK 0) := by
  refine quadState_eq _ _ _ _ fun c hc => ?_
  have hword : getUint32Le input (4 * c) = wordOf (column input c) := by
    refine wordOf_ext _ _ fun r => ?_
    exact wordByte_bufferWord (fun p => byteAt input p) (4 * c) r r.isLt
  rw [← hword, Nat.zero_add, BitVec.xor_comm]
  have hcases : c = 0 ∨ c = 1 ∨ c = 2 ∨ c = 3 := by omega
  rcases hcases with rfl | rfl | rfl | rfl <;> rfl

theorem storeQuad_eq (x : Quad) (output : Block) : storeQuad x output = quadState x := by
  refine block_ext _ _ fun j hj => ?_
  interval_cases j <;> simp [storeQuad, putUint32Le, quadState, byteAt, setByte, wordByte_eq, Quad.word]

/-! ### Runs of rounds -/

section Run

variable (RK : ℕ → Word) (round : Rounds → Rounds) (layer : Block → Block)
  (hp : ∀ s, (round s).p = s.p + 4)
  (hround : ∀ s, quadState (round s).x = xorBlocks (layer (quadState s.x)) (keyBlock RK s.p))

/-- `n` rounds on the state, the first one with the key at `RK + 4`. -/
def layers (n : ℕ) (s : Block) : Block :=
  forRange n (fun i s => xorBlocks (layer s) (keyBlock RK (4 * (i + 1)))) s

include hp hround in
theorem round_layers (n : ℕ) (s₀ : Block) (s : Rounds) (hs : s.p = 4 * (n + 1))
    (hx : quadState s.x = layers RK layer n s₀) :
    (round s).p = 4 * (n + 1 + 1) ∧ quadState (round s).x = layers RK layer (n + 1) s₀ := by
  refine ⟨by rw [hp, hs]; rfl, ?_⟩
  rw [hround, hx, hs]
  rfl

include hp hround in
/- Two rounds a turn, and one behind the loop. -/
theorem rounds_layers (m : ℕ) (x : Quad) :
    let s := round (forRange m (fun _ s => round (round s)) ⟨4, x⟩)
    s.p = 4 * (2 * m + 2) ∧ quadState s.x = layers RK layer (2 * m + 1) (quadState x) := by
  have hrun := forRange_inv
    (fun m (s : Rounds) => s.p = 4 * (2 * m + 1) ∧
      quadState s.x = layers RK layer (2 * m) (quadState x))
    m (fun _ s => round (round s)) ⟨4, x⟩ ⟨rfl, rfl⟩ fun n _ s hs => by
      obtain ⟨hs1, hx1⟩ := round_layers RK round layer hp hround (2 * n) _ s hs.1 hs.2
      exact round_layers RK round layer hp hround (2 * n + 1) _ _ hs1 hx1
  exact round_layers RK round layer hp hround (2 * m) _ _ hrun.1 hrun.2

end Run

/-- The round keys of a context. -/
def contextKey (ctx : Context) (r : ℕ) : Block :=
  keyBlock (fun k => ctx.buf (ctx.rkOffset + k)) (4 * r)

/-- A block function with the rounds `layer` and the last round `last`. -/
def roundsOn (layer last : Block → Block) (key : ℕ → Block) (nr : ℕ) (input : Block) : Block :=
  xorBlocks (last (forRange (nr - 1) (fun n s => xorBlocks (layer s) (key (n + 1)))
    (xorBlocks input (key 0)))) (key nr)

theorem halfRounds (ctx : Context) (m : ℕ) (hnr : ctx.nr = 2 * m + 2) :
    (ctx.nr >>> 1) - 1 = m := by
  rw [hnr, Nat.shiftRight_eq_div_pow]
  omega

theorem internalAesEncrypt_eq (t : Tables) (ht : Correct t) (ctx : Context) (m : ℕ)
    (hnr : ctx.nr = 2 * m + 2) (input output : Block) : internalAesEncrypt t ctx input output =
      roundsOn (fun s => mixColumns (shiftRows (subBytes s))) (fun s => shiftRows (subBytes s))
        (contextKey ctx) ctx.nr input := by
  let RK := fun k => ctx.buf (ctx.rkOffset + k)
  obtain ⟨hp, hx⟩ := rounds_layers RK (fround t RK) (fun s => mixColumns (shiftRows (subBytes s)))
    (fun _ => rfl) (quadState_fround ht RK) m (loadQuad RK input)
  rw [internalAesEncrypt, halfRounds ctx m hnr, storeQuad_eq, quadState_lastFround ht, hx, hp,
    quadState_loadQuad, hnr]
  rfl

theorem internalAesDecrypt_eq (t : Tables) (ht : Correct t) (ctx : Context) (m : ℕ)
    (hnr : ctx.nr = 2 * m + 2) (input output : Block) : internalAesDecrypt t ctx input output =
      roundsOn (fun s => invMixColumns (invShiftRows (invSubBytes s)))
        (fun s => invShiftRows (invSubBytes s)) (contextKey ctx) ctx.nr input := by
  let RK := fun k => ctx.buf (ctx.rkOffset + k)
  obtain ⟨hp, hx⟩ := rounds_layers RK (rround t RK)
    (fun s => invMixColumns (invShiftRows (invSubBytes s)))
    (fun _ => rfl) (quadState_rround ht RK) m (loadQuad RK input)
  rw [internalAesDecrypt, halfRounds ctx m hnr, storeQuad_eq, quadState_lastRround ht, hx, hp,
    quadState_loadQuad, hnr]
  rfl

/-! ### Encryption -/

/-- The round keys of FIPS-197. -/
def scheduleKey (nk : ℕ) (key : Buffer) : ℕ → Block :=
  roundKey (Aes.keyExpansionOf nk (nk + 6) key)

theorem contextKey_encrypts (nk : ℕ) (hnk : 0 < nk) (key : Buffer) (ctx : Context)
    (h : Encrypts nk key ctx) (r : ℕ) (hr : r ≤ nk + 6) :
    contextKey ctx r = scheduleKey nk key r := by
  have hbytes : contextKey ctx r = roundKey (scheduleBytes ctx.buf) r := by
    funext i
    have hdiv : (16 * r + i.val) / 4 = 4 * r + i.val / 4 := by omega
    have hmod : (16 * r + i.val) % 4 = i.val % 4 := by omega
    rw [roundKey, scheduleBytes, hdiv, hmod, contextKey, keyBlock, h.rkOffset, Nat.zero_add]
  have hwords := Aes.word_isSchedule_unique nk (nk + 6) hnk key _ _ h.schedule
    (Aes.isSchedule_keyExpansionOf nk (nk + 6) hnk key)
  rw [hbytes, Aes.roundKey_of_words _ _ (nk + 6) hwords r hr, scheduleKey]

theorem roundsOn_congr (layer last : Block → Block) (key key' : ℕ → Block) (nr : ℕ)
    (h : ∀ r ≤ nr, key r = key' r) : roundsOn layer last key nr = roundsOn layer last key' nr := by
  funext input
  have hrounds : forRange (nr - 1) (fun n s => xorBlocks (layer s) (key (n + 1)))
      (xorBlocks input (key 0)) =
      forRange (nr - 1) (fun n s => xorBlocks (layer s) (key' (n + 1)))
      (xorBlocks input (key' 0)) := by
    rw [h 0 (Nat.zero_le nr)]
    exact forRange_congr _ _ _ _ fun n hn s => by rw [h (n + 1) (by omega)]
  rw [roundsOn, roundsOn, hrounds, h nr (le_refl nr)]

theorem cipherOf_eq (nk : ℕ) (key : Buffer) (input : Block) :
    cipherOf (nk + 6) (Aes.keyExpansionOf nk (nk + 6) key) input =
      roundsOn (fun s => mixColumns (shiftRows (subBytes s))) (fun s => shiftRows (subBytes s))
        (scheduleKey nk key) (nk + 6) input := rfl

/- Under the keys of `mbedtls_aes_setkey_enc` encryption is the cipher of FIPS-197. -/
theorem internalAesEncrypt_encrypts (t : Tables) (ht : Correct t) (nk : ℕ)
    (hnk : nk = 4 ∨ nk = 6 ∨ nk = 8) (key : Buffer) (ctx : Context) (h : Encrypts nk key ctx)
    (input output : Block) : internalAesEncrypt t ctx input output =
      cipherOf (nk + 6) (Aes.keyExpansionOf nk (nk + 6) key) input := by
  have hnr : ctx.nr = 2 * (nk / 2 + 2) + 2 := by
    rw [h.nr]
    omega
  rw [internalAesEncrypt_eq t ht ctx _ hnr, cipherOf_eq, h.nr]
  exact congrFun (roundsOn_congr _ _ _ _ (nk + 6)
    (contextKey_encrypts nk (by omega) key ctx h)) input

end Pobc.MbedtlsAes
