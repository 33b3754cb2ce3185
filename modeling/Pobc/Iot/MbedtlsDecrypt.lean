import Pobc.Iot.MbedtlsCipher

/-!
# Decryption in mbedTLS

`mbedtls_aes_setkey_dec` stores the round keys of the equivalent inverse cipher, and with
them `mbedtls_internal_aes_decrypt` takes every block back that was encrypted under the
same key.
-/

namespace Pobc.MbedtlsAes
open Pobc.Loop Pobc.Iot
open Pobc.Aes (sbox invSbox column column_ext column_ofColumns mixColumns shiftRows subBytes mixRow
  invMixColumn invMixColumns invShiftRows invSubBytes)

/-! ### The equivalent inverse cipher -/

theorem mixRow_xor (k a b : Fin 4 → Byte) :
    mixRow k (fun j => a j ^^^ b j) = mixRow k a ^^^ mixRow k b := by
  apply lane_inj
  show lane (k 0) * lane (a 0 ^^^ b 0) + lane (k 1) * lane (a 1 ^^^ b 1) +
      lane (k 2) * lane (a 2 ^^^ b 2) + lane (k 3) * lane (a 3 ^^^ b 3) =
    (lane (k 0) * lane (a 0) + lane (k 1) * lane (a 1) + lane (k 2) * lane (a 2) +
      lane (k 3) * lane (a 3)) + (lane (k 0) * lane (b 0) + lane (k 1) * lane (b 1) +
      lane (k 2) * lane (b 2) + lane (k 3) * lane (b 3))
  simp only [lane_xor, mul_add]
  abel

theorem invMixColumn_xor (a b : Fin 4 → Byte) :
    invMixColumn (fun j => a j ^^^ b j) = fun j => invMixColumn a j ^^^ invMixColumn b j := by
  funext r
  match r with
  | 0 => exact mixRow_xor _ a b
  | 1 => exact mixRow_xor _ a b
  | 2 => exact mixRow_xor _ a b
  | 3 => exact mixRow_xor _ a b

theorem invMixColumns_xor (s k : Block) :
    invMixColumns (xorBlocks s k) = xorBlocks (invMixColumns s) (invMixColumns k) := by
  refine column_ext _ _ fun c hc => ?_
  rw [column_xorBlocks, invMixColumns, invMixColumns, invMixColumns, column_ofColumns _ c hc,
    column_ofColumns _ c hc, column_ofColumns _ c hc, column_xorBlocks, invMixColumn_xor]

theorem invShiftRows_invSubBytes (s : Block) :
    invShiftRows (invSubBytes (shiftRows (subBytes s))) = s := by
  have hswap : invSubBytes (shiftRows (subBytes s)) = shiftRows (invSubBytes (subBytes s)) := rfl
  rw [hswap, Aes.invShiftRows_shiftRows, Aes.invSubBytes_subBytes]

/-- The round keys of decryption for those of encryption. -/
def decryptKey (key : ℕ → Block) (nr r : ℕ) : Block :=
  if r = 0 then key nr else if r < nr then invMixColumns (key (nr - r)) else key 0

/- Before each of its rounds decryption holds a state of encryption, behind `SubBytes` and
`ShiftRows`. -/
theorem roundsOn_decryptKey (key : ℕ → Block) (nr : ℕ) (hnr : 0 < nr) (input : Block) :
    roundsOn (fun s => invMixColumns (invShiftRows (invSubBytes s)))
      (fun s => invShiftRows (invSubBytes s)) (decryptKey key nr) nr
      (roundsOn (fun s => mixColumns (shiftRows (subBytes s))) (fun s => shiftRows (subBytes s))
        key nr input) = input := by
  let e (n : ℕ) : Block := forRange n
    (fun n s => xorBlocks (mixColumns (shiftRows (subBytes s))) (key (n + 1)))
    (xorBlocks input (key 0))
  have hrun := forRange_inv (fun j s => s = shiftRows (subBytes (e (nr - 1 - j)))) (nr - 1)
    (fun n s => xorBlocks (invMixColumns (invShiftRows (invSubBytes s)))
      (decryptKey key nr (n + 1)))
    (xorBlocks (xorBlocks (shiftRows (subBytes (e (nr - 1)))) (key nr)) (decryptKey key nr 0))
    (Aes.xorBlocks_cancel _ _) fun j hj s hs => by
      obtain ⟨d, hd⟩ : ∃ d, nr = d + 1 + j + 1 := ⟨nr - 2 - j, by omega⟩
      have hnow : nr - 1 - j = d + 1 := by omega
      have hnext : nr - 1 - (j + 1) = d := by omega
      have hkey : decryptKey key nr (j + 1) = invMixColumns (key (d + 1)) := by
        have hpos : nr - (j + 1) = d + 1 := by omega
        rw [decryptKey, if_neg (Nat.succ_ne_zero j), if_pos (by omega), hpos]
      have he : e (d + 1) = xorBlocks (mixColumns (shiftRows (subBytes (e d)))) (key (d + 1)) := rfl
      rw [hs, hnow, hnext, hkey, invShiftRows_invSubBytes, ← invMixColumns_xor, he,
        Aes.xorBlocks_cancel, Aes.invMixColumns_mixColumns]
  have hlast : decryptKey key nr nr = key 0 := by
    rw [decryptKey, if_neg (by omega), if_neg (Nat.lt_irrefl nr)]
  have hstart : nr - 1 - (nr - 1) = 0 := Nat.sub_self _
  rw [hstart] at hrun
  have hstate : forRange (nr - 1) (fun n s => xorBlocks (invMixColumns (invShiftRows
      (invSubBytes s))) (decryptKey key nr (n + 1))) (xorBlocks (roundsOn
      (fun s => mixColumns (shiftRows (subBytes s))) (fun s => shiftRows (subBytes s)) key nr input)
      (decryptKey key nr 0)) = shiftRows (subBytes (e 0)) := hrun
  rw [roundsOn, hstate, invShiftRows_invSubBytes, hlast]
  exact Aes.xorBlocks_cancel input (key 0)

/-! ### `mbedtls_aes_setkey_dec` -/

theorem inverseMix_eq (t : Tables) (ht : Correct t) (x : Word) :
    inverseMix t x = wordOf (invMixColumn fun r : Fin 4 => wordByte r x) := by
  rw [inverseMix, ht.fsb, ht.fsb, ht.fsb, ht.fsb, ht.rt0, ht.rt1, ht.rt2, ht.rt3,
    Aes.invSbox_sbox, Aes.invSbox_sbox, Aes.invSbox_sbox, Aes.invSbox_sbox, invMixColumn_eq,
    ← wordOf_xor, ← wordOf_xor, ← wordOf_xor]
  rfl

/- Four words written from `base` on. -/
theorem forRange_four (base : ℕ) (v : ℕ → Word) (buf : ℕ → Word) (k : ℕ) :
    forRange 4 (fun j buf => Function.update buf (base + j) (v j)) buf k =
      if base ≤ k ∧ k < base + 4 then v (k - base) else buf k := by
  have hcases : k < base ∨ k = base ∨ k = base + 1 ∨ k = base + 2 ∨ k = base + 3 ∨
      base + 4 ≤ k := by
    omega
  simp only [forRange_succ, forRange_zero, Function.update_apply]
  rcases hcases with h | rfl | rfl | rfl | rfl | h
  · rw [if_neg (by omega), if_neg (by omega), if_neg (by omega), if_neg (by omega),
      if_neg (by omega)]
  · simp
  · simp
  · simp
  · simp
  · rw [if_neg (by omega), if_neg (by omega), if_neg (by omega), if_neg (by omega),
      if_neg (by omega)]

/-- Word `k` of the decryption schedule. -/
def decryptWord (t : Tables) (SK : ℕ → Word) (nr k : ℕ) : Word :=
  if k < 4 then SK (4 * nr + k)
  else if k < 4 * nr then inverseMix t (SK (4 * (nr - k / 4) + k % 4))
  else SK (k - 4 * nr)

theorem decryptSchedule (t : Tables) (SK buf : ℕ → Word) (nr : ℕ) (hnr : 0 < nr) (k : ℕ)
    (hk : k < 4 * nr + 4) :
    let buf := forRange 4 (fun j buf => Function.update buf j (SK (4 * nr + j))) buf
    let buf := forRange (nr - 1) (fun n buf => forRange 4 (fun j buf =>
      Function.update buf (4 * (n + 1) + j) (inverseMix t (SK (4 * (nr - 1 - n) + j)))) buf) buf
    forRange 4 (fun j buf => Function.update buf (4 * nr + j) (SK j)) buf k =
      decryptWord t SK nr k := by
  intro buf₁ buf₂
  have hfirst : ∀ k < 4, buf₁ k = decryptWord t SK nr k := by
    intro k hk
    have hbuf : buf₁ = forRange 4 (fun j buf => Function.update buf (0 + j) (SK (4 * nr + j))) buf := by
      simp only [Nat.zero_add]
      rfl
    rw [hbuf, forRange_four, if_pos (by omega), decryptWord, if_pos hk, Nat.sub_zero]
  have hinner : ∀ k < 4 * nr, buf₂ k = decryptWord t SK nr k := by
    have hrun := forRange_inv (fun n buf => ∀ k < 4 * (n + 1), buf k = decryptWord t SK nr k)
      (nr - 1) (fun n buf => forRange 4 (fun j buf =>
        Function.update buf (4 * (n + 1) + j) (inverseMix t (SK (4 * (nr - 1 - n) + j)))) buf) buf₁
      hfirst fun n hn buf hbuf k hk => by
        rw [forRange_four]
        by_cases hin : 4 * (n + 1) ≤ k ∧ k < 4 * (n + 1) + 4
        · have hpos : 4 * (nr - 1 - n) + (k - 4 * (n + 1)) = 4 * (nr - k / 4) + k % 4 := by omega
          rw [if_pos hin, decryptWord, if_neg (by omega), if_pos (by omega), hpos]
        · rw [if_neg hin, hbuf k (by omega)]
    have hcount : nr - 1 + 1 = nr := by omega
    rwa [hcount] at hrun
  rw [forRange_four]
  by_cases hlast : 4 * nr ≤ k ∧ k < 4 * nr + 4
  · rw [if_pos hlast, decryptWord, if_neg (by omega), if_neg (by omega)]
  · rw [if_neg hlast, hinner k (by omega)]

/- The round keys in the words of the schedule. -/
theorem contextKey_decrypt (t : Tables) (ht : Correct t) (cty ctx : Context) (nr : ℕ)
    (hbuf : ∀ k < 4 * nr + 4, ctx.buf (ctx.rkOffset + k) =
      decryptWord t (fun k => cty.buf (cty.rkOffset + k)) nr k) (r : ℕ) (hr : r ≤ nr) :
    contextKey ctx r = decryptKey (contextKey cty) nr r := by
  let SK := fun k => cty.buf (cty.rkOffset + k)
  refine column_ext _ _ fun c hc => ?_
  have hleft : column (contextKey ctx r) c = fun j : Fin 4 =>
      wordByte j (decryptWord t SK nr (4 * r + c)) := by
    rw [contextKey, column_keyBlock _ _ c hc, hbuf _ (by omega)]
  rw [hleft, decryptKey, decryptWord]
  rcases Nat.eq_zero_or_pos r with hzero | hpos
  · have hlow : 4 * r + c < 4 := by omega
    rw [if_pos hzero, if_pos hlow, contextKey, column_keyBlock _ _ c hc, hzero, Nat.mul_zero,
      Nat.zero_add]
  · have hlow : ¬ 4 * r + c < 4 := by omega
    have hne : ¬ r = 0 := by omega
    rw [if_neg hlow, if_neg hne]
    rcases Nat.lt_or_ge r nr with hlt | hge
    · have hinner : 4 * r + c < 4 * nr := by omega
      have hdiv : (4 * r + c) / 4 = r := by omega
      have hmod : (4 * r + c) % 4 = c := by omega
      rw [if_pos hinner, if_pos hlt, hdiv, hmod, inverseMix_eq t ht, invMixColumns,
        column_ofColumns _ c hc, contextKey, column_keyBlock _ _ c hc]
      exact funext fun j => wordByte_wordOf _ j
    · have hinner : ¬ 4 * r + c < 4 * nr := by omega
      have hword : 4 * r + c - 4 * nr = c := by omega
      rw [if_neg hinner, if_neg (Nat.not_lt.mpr hge), hword, contextKey, column_keyBlock _ _ c hc,
        Nat.mul_zero, Nat.zero_add]

/-- A context with the round keys that undo a key of `nk` words. -/
structure Decrypts (nk : ℕ) (key : Buffer) (ctx : Context) : Prop where
  nr : ctx.nr = nk + 6
  keys : ∀ r ≤ nk + 6, contextKey ctx r = decryptKey (scheduleKey nk key) (nk + 6) r

structure SetkeyDecSpec (nk : ℕ) (key : Buffer) (out : Setkey) : Prop where
  ret : out.ret = 0
  done : out.statics.aesInitDone ≠ 0
  correct : Correct out.statics.tables
  ctx : Decrypts nk key out.ctx

theorem decryptKey_congr (key key' : ℕ → Block) (nr : ℕ) (h : ∀ r ≤ nr, key r = key' r) (r : ℕ) :
    decryptKey key nr r = decryptKey key' nr r := by
  rw [decryptKey, decryptKey, h nr (le_refl nr), h (nr - r) (Nat.sub_le nr r), h 0 (Nat.zero_le nr)]

theorem setkeyDec_spec (pow₀ log₀ : ℕ → ℕ) (g : Statics) (hg : Ready g) (ctx : Context)
    (key : Buffer) (nk : ℕ) (hnk : nk = 4 ∨ nk = 6 ∨ nk = 8) :
    SetkeyDecSpec nk key (setkeyDec pow₀ log₀ g ctx key (32 * nk)) := by
  let cty := setkeyEnc pow₀ log₀ g aesInit key (32 * nk)
  have hspec : SetkeyEncSpec nk key cty := setkeyEnc_spec pow₀ log₀ g hg aesInit key nk hnk
  have hnr : 0 < cty.ctx.nr := by
    rw [hspec.ctx.nr]
    omega
  let SK := fun k => cty.ctx.buf (cty.ctx.rkOffset + k)
  let t := cty.statics.tables
  let buf := forRange 4 (fun j buf => Function.update buf j (SK (4 * cty.ctx.nr + j))) ctx.buf
  let buf := forRange (cty.ctx.nr - 1) (fun n buf => forRange 4 (fun j buf =>
    Function.update buf (4 * (n + 1) + j)
      (inverseMix t (SK (4 * (cty.ctx.nr - 1 - n) + j)))) buf) buf
  let buf := forRange 4 (fun j buf => Function.update buf (4 * cty.ctx.nr + j) (SK j)) buf
  have hout : setkeyDec pow₀ log₀ g ctx key (32 * nk) = ⟨0, cty.statics, ⟨cty.ctx.nr, 0, buf⟩⟩ :=
    if_neg (not_not.mpr hspec.ret)
  have hkeys := contextKey_encrypts nk (by omega) key cty.ctx hspec.ctx
  rw [hout]
  refine ⟨rfl, hspec.done, hspec.correct, hspec.ctx.nr, fun r hr => ?_⟩
  rw [contextKey_decrypt t hspec.correct cty.ctx _ cty.ctx.nr (fun k hk => ?_) r
    (by rw [hspec.ctx.nr]; exact hr), hspec.ctx.nr, decryptKey_congr _ _ (nk + 6) hkeys]
  rw [← decryptSchedule t SK ctx.buf cty.ctx.nr hnr k hk]
  exact congrArg buf (Nat.zero_add k)

/-! ### The round trip -/

theorem internalAesDecrypt_decrypts (t : Tables) (ht : Correct t) (nk : ℕ)
    (hnk : nk = 4 ∨ nk = 6 ∨ nk = 8) (key : Buffer) (ctx : Context) (h : Decrypts nk key ctx)
    (input output : Block) : internalAesDecrypt t ctx
      (Aes.cipherOf (nk + 6) (Aes.keyExpansionOf nk (nk + 6) key) input) output = input := by
  have hnr : ctx.nr = 2 * (nk / 2 + 2) + 2 := by
    rw [h.nr]
    omega
  rw [internalAesDecrypt_eq t ht ctx _ hnr, cipherOf_eq, h.nr,
    roundsOn_congr _ _ _ _ (nk + 6) h.keys]
  exact roundsOn_decryptKey (scheduleKey nk key) (nk + 6) (Nat.succ_pos _) input

end Pobc.MbedtlsAes
