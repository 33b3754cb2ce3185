import Pobc.Iot.MbedtlsAes
import Pobc.Aes.KeySizes

/-!
# The tables of mbedTLS

`aes_gen_tables` works with logarithms to the base `{03}`. Whatever its arrays hold at
the start, the S-boxes are those of FIPS-197 and the other tables hold the products of
`MixColumns` and its inverse.
-/

namespace Pobc.MbedtlsAes
open Pobc.Loop Pobc.Iot
open Pobc.Aes (sbox invSbox affineLinear gfInv)

/-! ### Words of four bytes -/

/-- Byte `r` of the word is `a r`. -/
def wordOf (a : Fin 4 → Byte) : Word :=
  (a 0).setWidth 32 ^^^ (a 1).setWidth 32 <<< 8 ^^^ (a 2).setWidth 32 <<< 16 ^^^
    (a 3).setWidth 32 <<< 24

theorem getLsbD_wordByte (k : ℕ) (x : Word) (i : ℕ) (hi : i < 8) :
    (wordByte k x).getLsbD i = x.getLsbD (8 * k + i) := by
  have hones : ∀ i < 8, (0xff#32).getLsbD i = true := by decide
  rw [wordByte, BitVec.getLsbD_setWidth, BitVec.getLsbD_and, BitVec.getLsbD_ushiftRight, hones i hi,
    decide_eq_true hi, Bool.true_and, Bool.and_true]

theorem word_ext (x y : Word) (h : ∀ k < 4, wordByte k x = wordByte k y) : x = y := by
  apply BitVec.eq_of_getLsbD_eq
  intro p hp
  have hpos : 8 * (p / 8) + p % 8 = p := by omega
  have hbyte := congrArg (fun b => b.getLsbD (p % 8)) (h (p / 8) (by omega))
  simp only [getLsbD_wordByte _ _ _ (Nat.mod_lt p (by decide)), hpos] at hbyte
  exact hbyte

theorem wordByte_wordOf (a : Fin 4 → Byte) (r : Fin 4) : wordByte r (wordOf a) = a r := by
  apply BitVec.eq_of_getLsbD_eq
  intro i hi
  have hhigh : ∀ (b : Byte) (k : ℕ), 8 ≤ k → b.getLsbD k = false := fun b k hk =>
    BitVec.getLsbD_of_ge b k hk
  rw [getLsbD_wordByte _ _ _ hi]
  simp only [wordOf, BitVec.getLsbD_xor, BitVec.getLsbD_shiftLeft, BitVec.getLsbD_setWidth]
  match r with
  | 0 => grind
  | 1 => grind
  | 2 => grind
  | 3 => grind

theorem wordByte_xor (k : ℕ) (x y : Word) :
    wordByte k (x ^^^ y) = wordByte k x ^^^ wordByte k y := by
  apply BitVec.eq_of_getLsbD_eq
  intro i hi
  rw [BitVec.getLsbD_xor, getLsbD_wordByte k _ i hi, getLsbD_wordByte k _ i hi,
    getLsbD_wordByte k _ i hi, BitVec.getLsbD_xor]

theorem wordOf_ext (x : Word) (a : Fin 4 → Byte) (h : ∀ r : Fin 4, wordByte r x = a r) :
    x = wordOf a := by
  refine word_ext _ _ fun k hk => ?_
  exact (h ⟨k, hk⟩).trans (wordByte_wordOf a ⟨k, hk⟩).symm

theorem getLsbD_rotl8 (x : Word) (p : ℕ) (hp : p < 32) :
    (rotl8 x).getLsbD p = x.getLsbD (if p < 8 then 24 + p else p - 8) := by
  have hones : ∀ p < 32, (0xffffffff#32).getLsbD p = true := by decide
  rw [rotl8, BitVec.getLsbD_or, BitVec.getLsbD_and, BitVec.getLsbD_shiftLeft,
    BitVec.getLsbD_ushiftRight, hones p hp, Bool.and_true, decide_eq_true hp, Bool.true_and]
  by_cases h : p < 8
  · rw [if_pos h, decide_eq_true h, Bool.not_true, Bool.false_and, Bool.false_or]
  · rw [if_neg h, decide_eq_false h, Bool.not_false, Bool.true_and,
      BitVec.getLsbD_of_ge x (24 + p) (by omega), Bool.or_false]

/- A turn of the word moves its bytes up by one. -/
theorem rotl8_wordOf (a : Fin 4 → Byte) : rotl8 (wordOf a) = wordOf fun r => a (r + 3) := by
  refine wordOf_ext _ _ fun r => ?_
  rw [← wordByte_wordOf a (r + 3)]
  apply BitVec.eq_of_getLsbD_eq
  intro i hi
  have hr := r.isLt
  have hval : ((r + 3 : Fin 4) : ℕ) = (r.val + 3) % 4 := rfl
  rw [getLsbD_wordByte _ _ _ hi, getLsbD_wordByte _ _ _ hi, getLsbD_rotl8 _ _ (by omega), hval]
  congr 1
  split <;> omega

/-! ### Logarithms -/

/-- `{03}`. -/
def generator : AesField := lane 3

/-- `γ^k` as an `int`. -/
def powerInt (k : ℕ) : ℕ := (generator ^ k).bits.toNat

theorem toNat_bits_injective {x y : AesField} (h : x.bits.toNat = y.bits.toNat) : x = y :=
  Gf.ext (BitVec.eq_of_toNat_eq h)

theorem byte0_xtime : ∀ b : Byte, byte0 (xtime b.toNat) = (Aes.xtime b).toNat := by
  decide +kernel

theorem byte0_xtime_xor : ∀ b : Byte,
    byte0 (b.toNat ^^^ xtime b.toNat) = (b ^^^ Aes.xtime b).toNat := by
  decide +kernel

theorem affine_eq : ∀ b : Byte, affine b.toNat = (affineLinear b ^^^ 0x63).toNat := by
  decide +kernel

theorem powerInt_zero : powerInt 0 = 1 := by
  rw [powerInt, pow_zero]
  rfl

/- A round of the first loop multiplies by `{03}`. -/
theorem powerInt_succ (k : ℕ) :
    powerInt (k + 1) = byte0 (powerInt k ^^^ xtime (powerInt k)) := by
  have hgen : generator = 1 + Gf.power 8 0x1b#8 1 := by decide
  have hmul : generator ^ (k + 1) = lane ((generator ^ k).bits ^^^
      Aes.xtime (generator ^ k).bits) := by
    rw [pow_succ', lane_xor, hgen, add_mul, one_mul, ← Gf.mulY_eq (by decide)]
    rfl
  rw [powerInt, powerInt, byte0_xtime_xor, hmul]
  rfl

/- `{03}` generates the group of the field. -/
theorem generator_pow_255 : generator ^ 255 = 1 := by
  have h := Aes.mul_gfInv generator (by decide)
  rwa [Aes.gfInv_eq, ← pow_succ'] at h

theorem exists_generator_pow (x : AesField) (hx : x ≠ 0) : ∃ k < 255, generator ^ k = x := by
  -- the values met so far are the bits of a number
  let mark : ℕ → ℕ × ℕ → ℕ × ℕ := fun _ s =>
    (byte0 (s.1 ^^^ xtime s.1), s.2 ||| 1 <<< s.1)
  have hmarks := forRange_inv
    (fun n (s : ℕ × ℕ) => s.1 = powerInt n ∧ ∀ v, s.2.testBit v = true → ∃ k < n, powerInt k = v)
    255 mark (1, 0) ⟨powerInt_zero.symm, fun v hv => by simp at hv⟩ fun n _ s hs => by
      obtain ⟨hval, hseen⟩ := hs
      refine ⟨by rw [powerInt_succ, ← hval], fun v hv => ?_⟩
      rw [Nat.testBit_or, Bool.or_eq_true] at hv
      rcases hv with hv | hv
      · obtain ⟨k, hk, hkv⟩ := hseen v hv
        exact ⟨k, by omega, hkv⟩
      · rw [Nat.one_shiftLeft, Nat.testBit_two_pow] at hv
        exact ⟨n, by omega, by rw [← hval]; exact of_decide_eq_true hv⟩
  have hfull : (forRange 255 mark (1, 0)).2 = 2 ^ 256 - 2 := by decide +kernel
  have hbits : ∀ b : Byte, b ≠ 0 → (2 ^ 256 - 2).testBit b.toNat = true := by decide +kernel
  obtain ⟨k, hk, hpow⟩ := hmarks.2 x.bits.toNat (by
    rw [hfull]
    exact hbits _ fun h => hx (Gf.ext h))
  exact ⟨k, hk, toNat_bits_injective hpow⟩

/-- The two arrays after the first loop. -/
structure Logarithms (pow log : ℕ → ℕ) : Prop where
  pow : ∀ k < 256, pow k = powerInt k
  log : ∀ b : Byte, b ≠ 0 → log b.toNat < 256 ∧ generator ^ log b.toNat = lane b

/-- The arrays at the head of round `n` of the first loop. -/
structure PowLogInv (n : ℕ) (s : PowLog) : Prop where
  x : s.x = powerInt n
  pow : ∀ k < n, s.pow k = powerInt k
  log : ∀ k < n, s.log (powerInt k) < n ∧ generator ^ s.log (powerInt k) = generator ^ k

/- A value that comes twice keeps one of its logarithms. -/
theorem powLogStep_inv (n : ℕ) (s : PowLog) (h : PowLogInv n s) :
    PowLogInv (n + 1) (powLogStep n s) where
  x := by
    rw [powerInt_succ, ← h.x]
    rfl
  pow k hk := by
    show Function.update s.pow n s.x k = powerInt k
    rcases eq_or_ne k n with rfl | hne
    · rw [Function.update_self, h.x]
    · rw [Function.update_of_ne hne, h.pow k (by omega)]
  log k hk := by
    have hupdate : (powLogStep n s).log = Function.update s.log s.x n := rfl
    rw [hupdate]
    rcases eq_or_ne (powerInt k) s.x with heq | hne
    · rw [heq, Function.update_self]
      rw [h.x] at heq
      exact ⟨by omega, (toNat_bits_injective heq).symm⟩
    · have hkn : k ≠ n := fun hkn => hne (by rw [hkn, h.x])
      obtain ⟨hbound, heq⟩ := h.log k (by omega)
      rw [Function.update_of_ne hne]
      exact ⟨by omega, heq⟩

theorem logarithms_powLog (pow₀ log₀ : ℕ → ℕ) :
    let s := forRange 256 powLogStep ⟨pow₀, log₀, 1⟩
    Logarithms s.pow s.log := by
  have hrun := forRange_inv PowLogInv 256 powLogStep ⟨pow₀, log₀, 1⟩
    ⟨powerInt_zero.symm, fun k hk => absurd hk (Nat.not_lt_zero k),
      fun k hk => absurd hk (Nat.not_lt_zero k)⟩ fun n _ s hs => powLogStep_inv n s hs
  refine ⟨hrun.pow, fun b hb => ?_⟩
  obtain ⟨k, hk, hgen⟩ := exists_generator_pow (lane b) fun h => hb (congrArg Gf.bits h)
  have hval : powerInt k = b.toNat := by
    rw [powerInt, hgen]
    rfl
  obtain ⟨hbound, heq⟩ := hrun.log k (by omega)
  rw [hval] at hbound heq
  exact ⟨hbound, heq.trans hgen⟩

section Logs

variable {pow log : ℕ → ℕ} (h : Logarithms pow log)

include h in
/- `MUL` is the product of the field. -/
theorem mul_eq (a b : Byte) : mul pow log a.toNat b.toNat = (lane a * lane b).bits.toNat := by
  have hzero : ∀ c : Byte, c.toNat = 0 ↔ c = 0 := by
    intro c
    exact ⟨fun hc => BitVec.eq_of_toNat_eq hc, fun hc => by rw [hc]; rfl⟩
  rw [mul]
  by_cases hab : a ≠ 0 ∧ b ≠ 0
  · obtain ⟨ha, hb⟩ := hab
    have hlogs : generator ^ ((log a.toNat + log b.toNat) % 255) = lane a * lane b := by
      rw [← (h.log a ha).2, ← (h.log b hb).2, ← pow_add]
      conv_rhs => rw [← Nat.mod_add_div (log a.toNat + log b.toNat) 255, pow_add, pow_mul,
        generator_pow_255, one_pow, mul_one]
    rw [if_pos ⟨fun h0 => ha ((hzero a).mp h0), fun h0 => hb ((hzero b).mp h0)⟩,
      h.pow _ (by omega), powerInt, hlogs]
  · have hone : a = 0 ∨ b = 0 := by
      by_contra hno
      exact hab ⟨fun h0 => hno (Or.inl h0), fun h0 => hno (Or.inr h0)⟩
    have hprod : lane a * lane b = 0 := by
      rcases hone with h0 | h0
      · rw [h0]
        exact zero_mul (lane b)
      · rw [h0]
        exact mul_zero (lane a)
    rw [if_neg (fun hn => hone.elim (fun h0 => hn.1 ((hzero a).mpr h0))
      fun h0 => hn.2 ((hzero b).mpr h0)), hprod]
    rfl

include h in
/- The logarithm of the inverse. -/
theorem affine_inverse (b : Byte) (hb : b ≠ 0) :
    affine (pow (255 - log b.toNat)) = (sbox b).toNat := by
  obtain ⟨hlt, hlog⟩ := h.log b hb
  have hprod : lane b * generator ^ (255 - log b.toNat) = 1 := by
    have hsum : log b.toNat + (255 - log b.toNat) = 255 := by omega
    rw [← hlog, ← pow_add, hsum, generator_pow_255]
  rw [h.pow _ (by omega), powerInt, affine_eq, ← Aes.gfInv_of_mul_eq_one _ _ hprod]
  rfl

/-! ### S-boxes -/

/-- The S-boxes after `n` rounds. -/
structure SboxInv (n : ℕ) (s : Sboxes) : Prop where
  fsb : ∀ b : Byte, b.toNat ≤ n → s.FSb b.toNat = sbox b
  rsb : ∀ b : Byte, b.toNat ≤ n → s.RSb (sbox b).toNat = b

include h in
theorem sboxStep_inv (n : ℕ) (hn : n < 255) (s : Sboxes) (hs : SboxInv n s) :
    SboxInv (n + 1) (sboxStep pow log n s) := by
  let c : Byte := BitVec.ofNat 8 (n + 1)
  have hc : c.toNat = n + 1 := by
    rw [BitVec.toNat_ofNat]
    omega
  have hbox : affine (pow (255 - log (n + 1))) = (sbox c).toNat := by
    rw [← hc]
    refine affine_inverse h c fun h0 => ?_
    rw [h0] at hc
    exact absurd hc (Nat.succ_ne_zero n).symm
  have hstep : sboxStep pow log n s = ⟨Function.update s.FSb (n + 1) (sbox c),
      Function.update s.RSb (sbox c).toNat c⟩ := by
    rw [sboxStep, hbox, BitVec.ofNat_toNat, BitVec.setWidth_eq]
  rw [hstep]
  constructor
  · intro b hb
    rcases eq_or_ne b c with rfl | hne
    · show Function.update s.FSb (n + 1) (sbox c) c.toNat = sbox c
      rw [hc, Function.update_self]
    · have hbn : b.toNat ≠ n + 1 := fun h0 => hne (BitVec.eq_of_toNat_eq (h0.trans hc.symm))
      exact (Function.update_of_ne hbn _ _).trans (hs.fsb b (by omega))
  · intro b hb
    rcases eq_or_ne b c with rfl | hne
    · exact Function.update_self _ _ _
    · have hbn : b.toNat ≠ n + 1 := fun h0 => hne (BitVec.eq_of_toNat_eq (h0.trans hc.symm))
      have hbox : (sbox b).toNat ≠ (sbox c).toNat := fun h0 =>
        hne (Aes.sbox_injective (BitVec.eq_of_toNat_eq h0))
      exact (Function.update_of_ne hbox _ _).trans (hs.rsb b (by omega))

include h in
theorem sboxes_eq (fsb rsb : ℕ → Byte) :
    let s := forRange 255 (sboxStep pow log)
      ⟨Function.update fsb 0x00 0x63, Function.update rsb 0x63 0x00⟩
    (∀ b : Byte, s.FSb b.toNat = sbox b) ∧ ∀ b : Byte, s.RSb b.toNat = invSbox b := by
  intro s
  have hzero : sbox 0#8 = 0x63#8 := by decide +kernel
  have hstart : SboxInv 0 ⟨Function.update fsb 0x00 0x63, Function.update rsb 0x63 0x00⟩ := by
    constructor
    · intro b hb
      have hb0 : b = 0#8 := BitVec.eq_of_toNat_eq (Nat.le_zero.mp hb)
      rw [hb0, hzero]
      rfl
    · intro b hb
      have hb0 : b = 0#8 := BitVec.eq_of_toNat_eq (Nat.le_zero.mp hb)
      rw [hb0, hzero]
      rfl
  have hrun := forRange_inv SboxInv 255 (sboxStep pow log) _ hstart
    fun n hn s hs => sboxStep_inv h n hn s hs
  refine ⟨fun b => hrun.fsb b (by have := b.isLt; omega), fun b => ?_⟩
  have hrsb := hrun.rsb (invSbox b) (by have := (invSbox b).isLt; omega)
  rwa [Aes.sbox_invSbox] at hrsb

/-! ### Products -/

/-- `{c} • b`. -/
def times (c b : Byte) : Byte := (lane c * lane b).bits

/-- A column of the matrix of `MixColumns` times `s`. -/
def mixOf (s : Byte) : Fin 4 → Byte := ![Aes.xtime s, s, s, Aes.xtime s ^^^ s]

/-- A column of the inverse matrix times `s`. -/
def invMixOf (s : Byte) : Fin 4 → Byte := ![times 0xe s, times 0x9 s, times 0xd s, times 0xb s]

/-- The finished tables. -/
structure Correct (t : Tables) : Prop where
  fsb : ∀ b : Byte, t.FSb b.toNat = sbox b
  ft0 : ∀ b : Byte, t.FT0 b.toNat = wordOf (mixOf (sbox b))
  ft1 : ∀ b : Byte, t.FT1 b.toNat = wordOf fun r => mixOf (sbox b) (r + 3)
  ft2 : ∀ b : Byte, t.FT2 b.toNat = wordOf fun r => mixOf (sbox b) (r + 2)
  ft3 : ∀ b : Byte, t.FT3 b.toNat = wordOf fun r => mixOf (sbox b) (r + 1)
  rsb : ∀ b : Byte, t.RSb b.toNat = invSbox b
  rt0 : ∀ b : Byte, t.RT0 b.toNat = wordOf (invMixOf (invSbox b))
  rt1 : ∀ b : Byte, t.RT1 b.toNat = wordOf fun r => invMixOf (invSbox b) (r + 3)
  rt2 : ∀ b : Byte, t.RT2 b.toNat = wordOf fun r => invMixOf (invSbox b) (r + 2)
  rt3 : ∀ b : Byte, t.RT3 b.toNat = wordOf fun r => invMixOf (invSbox b) (r + 1)
  rcon : ∀ i < 10, t.RCON i = (Aes.xtime^[i] 1).setWidth 32

theorem wordOf_toNat (a b c d : Byte) : BitVec.ofNat 32 a.toNat ^^^ BitVec.ofNat 32 b.toNat <<< 8 ^^^
    BitVec.ofNat 32 c.toNat <<< 16 ^^^ BitVec.ofNat 32 d.toNat <<< 24 = wordOf ![a, b, c, d] := by
  simp only [BitVec.ofNat_toNat]
  rfl

/- Three turns of a word. -/
theorem rotl8_turns (a : Fin 4 → Byte) : rotl8 (wordOf fun r => a (r + 3)) =
      (wordOf fun r => a (r + 2)) ∧
    rotl8 (wordOf fun r => a (r + 2)) = wordOf fun r => a (r + 1) := by
  have hadd : ∀ r : Fin 4, r + 3 + 3 = r + 2 ∧ r + 3 + 2 = r + 1 := by decide
  constructor
  · rw [rotl8_wordOf]
    exact congrArg wordOf (funext fun r => congrArg a (hadd r).1)
  · rw [rotl8_wordOf]
    exact congrArg wordOf (funext fun r => congrArg a (hadd r).2)

include h in
/- Round `i` fills entry `i` of the eight tables. -/
theorem tableStep_eq (i : ℕ) (t : Tables) (s r : Byte) (hs : t.FSb i = s) (hr : t.RSb i = r) :
    tableStep pow log i t = { t with
      FT0 := Function.update t.FT0 i (wordOf (mixOf s))
      FT1 := Function.update t.FT1 i (wordOf fun k => mixOf s (k + 3))
      FT2 := Function.update t.FT2 i (wordOf fun k => mixOf s (k + 2))
      FT3 := Function.update t.FT3 i (wordOf fun k => mixOf s (k + 1))
      RT0 := Function.update t.RT0 i (wordOf (invMixOf r))
      RT1 := Function.update t.RT1 i (wordOf fun k => invMixOf r (k + 3))
      RT2 := Function.update t.RT2 i (wordOf fun k => invMixOf r (k + 2))
      RT3 := Function.update t.RT3 i (wordOf fun k => invMixOf r (k + 1)) } := by
  have hxor : byte0 ((Aes.xtime s).toNat ^^^ s.toNat) = (Aes.xtime s ^^^ s).toNat := by
    have hmask : ∀ b : Byte, byte0 b.toNat = b.toNat := by decide +kernel
    rw [← BitVec.toNat_xor, hmask]
  have he : mul pow log 0x0e r.toNat = (times 0xe r).toNat := mul_eq h 0xe r
  have h9 : mul pow log 0x09 r.toNat = (times 0x9 r).toNat := mul_eq h 0x9 r
  have hd : mul pow log 0x0d r.toNat = (times 0xd r).toNat := mul_eq h 0xd r
  have hb : mul pow log 0x0b r.toNat = (times 0xb r).toNat := mul_eq h 0xb r
  have hf := rotl8_turns (mixOf s)
  have hi := rotl8_turns (invMixOf r)
  simp only [tableStep, hs, hr, Function.update_self, byte0_xtime, hxor, he, h9, hd, hb, wordOf_toNat]
  have hmix : ![Aes.xtime s, s, s, Aes.xtime s ^^^ s] = mixOf s := rfl
  have hinv : ![times 14 r, times 9 r, times 13 r, times 11 r] = invMixOf r := rfl
  rw [hmix, hinv, rotl8_wordOf, hf.1, hf.2, rotl8_wordOf, hi.1, hi.2]

end Logs

/-- The first `n` entries of a table. -/
def Filled (n : ℕ) (T : ℕ → Word) (f : Byte → Word) : Prop :=
  ∀ b : Byte, b.toNat < n → T b.toNat = f b

theorem filled_zero (T : ℕ → Word) (f : Byte → Word) : Filled 0 T f :=
  fun b hb => absurd hb (Nat.not_lt_zero b.toNat)

theorem Filled.update {n : ℕ} {T : ℕ → Word} {f : Byte → Word} (hT : Filled n T f) (c : Byte)
    (hc : c.toNat = n) : Filled (n + 1) (Function.update T n (f c)) f := by
  intro b hb
  rcases eq_or_ne b c with rfl | hne
  · rw [hc, Function.update_self]
  · have hbn : b.toNat ≠ n := fun h0 => hne (BitVec.eq_of_toNat_eq (h0.trans hc.symm))
    rw [Function.update_of_ne hbn, hT b (by omega)]

theorem Filled.all {T : ℕ → Word} {f : Byte → Word} (hT : Filled 256 T f) (b : Byte) :
    T b.toNat = f b := hT b b.isLt

/-- The tables at the head of round `n` of the last loop. -/
structure TableInv (n : ℕ) (t : Tables) : Prop where
  fsb : ∀ b : Byte, t.FSb b.toNat = sbox b
  rsb : ∀ b : Byte, t.RSb b.toNat = invSbox b
  rcon : ∀ i < 10, t.RCON i = (Aes.xtime^[i] 1).setWidth 32
  ft0 : Filled n t.FT0 fun b => wordOf (mixOf (sbox b))
  ft1 : Filled n t.FT1 fun b => wordOf fun r => mixOf (sbox b) (r + 3)
  ft2 : Filled n t.FT2 fun b => wordOf fun r => mixOf (sbox b) (r + 2)
  ft3 : Filled n t.FT3 fun b => wordOf fun r => mixOf (sbox b) (r + 1)
  rt0 : Filled n t.RT0 fun b => wordOf (invMixOf (invSbox b))
  rt1 : Filled n t.RT1 fun b => wordOf fun r => invMixOf (invSbox b) (r + 3)
  rt2 : Filled n t.RT2 fun b => wordOf fun r => invMixOf (invSbox b) (r + 2)
  rt3 : Filled n t.RT3 fun b => wordOf fun r => invMixOf (invSbox b) (r + 1)

theorem tableStep_inv {pow log : ℕ → ℕ} (h : Logarithms pow log) (n : ℕ) (hn : n < 256) (t : Tables)
    (ht : TableInv n t) : TableInv (n + 1) (tableStep pow log n t) := by
  let c : Byte := BitVec.ofNat 8 n
  have hc : c.toNat = n := by
    rw [BitVec.toNat_ofNat]
    omega
  have hs : t.FSb n = sbox c := by rw [← hc, ht.fsb]
  have hr : t.RSb n = invSbox c := by rw [← hc, ht.rsb]
  rw [tableStep_eq h n t _ _ hs hr]
  exact ⟨ht.fsb, ht.rsb, ht.rcon, ht.ft0.update c hc, ht.ft1.update c hc, ht.ft2.update c hc,
    ht.ft3.update c hc, ht.rt0.update c hc, ht.rt1.update c hc, ht.rt2.update c hc,
    ht.rt3.update c hc⟩

theorem rcon_eq (RCON : ℕ → Word) :
    ∀ i < 10, (forRange 10 rconStep ⟨RCON, 1⟩).RCON i = (Aes.xtime^[i] 1).setWidth 32 := by
  have hrun := forRange_inv
    (fun n (s : Rcon) => s.x = (Aes.xtime^[n] 1).toNat ∧
      ∀ i < n, s.RCON i = (Aes.xtime^[i] 1).setWidth 32)
    10 rconStep ⟨RCON, 1⟩ ⟨rfl, fun i hi => absurd hi (Nat.not_lt_zero i)⟩ fun n _ s hs => by
      obtain ⟨hx, hall⟩ := hs
      refine ⟨?_, fun i hi => ?_⟩
      · rw [Function.iterate_succ_apply', ← byte0_xtime, ← hx]
        rfl
      · have hupdate : (rconStep n s).RCON = Function.update s.RCON n (BitVec.ofNat 32 s.x) := rfl
        rw [hupdate]
        rcases eq_or_ne i n with rfl | hne
        · rw [Function.update_self, hx, BitVec.ofNat_toNat]
        · rw [Function.update_of_ne hne, hall i (by omega)]
  exact hrun.2

/-- Whatever the arrays and the static memory hold before, the tables are right. -/
theorem correct_aesGenTables (pow₀ log₀ : ℕ → ℕ) (t : Tables) :
    Correct (aesGenTables pow₀ log₀ t) := by
  have hlogs := logarithms_powLog pow₀ log₀
  obtain ⟨hfsb, hrsb⟩ := sboxes_eq hlogs t.FSb t.RSb
  let logs := forRange 256 powLogStep ⟨pow₀, log₀, 1⟩
  let boxes := forRange 255 (sboxStep logs.pow logs.log)
    ⟨Function.update t.FSb 0x00 0x63, Function.update t.RSb 0x63 0x00⟩
  let start : Tables := { t with FSb := boxes.FSb, RSb := boxes.RSb,
                                 RCON := (forRange 10 rconStep ⟨t.RCON, 1⟩).RCON }
  have hstart : TableInv 0 start :=
    ⟨hfsb, hrsb, rcon_eq t.RCON, filled_zero _ _, filled_zero _ _, filled_zero _ _, filled_zero _ _,
      filled_zero _ _, filled_zero _ _, filled_zero _ _, filled_zero _ _⟩
  have hrun := forRange_inv TableInv 256 (tableStep logs.pow logs.log) start hstart
    fun n hn s hs => tableStep_inv hlogs n hn s hs
  have htables : aesGenTables pow₀ log₀ t = forRange 256 (tableStep logs.pow logs.log) start := rfl
  rw [htables]
  exact ⟨hrun.fsb, hrun.ft0.all, hrun.ft1.all, hrun.ft2.all, hrun.ft3.all, hrun.rsb, hrun.rt0.all,
    hrun.rt1.all, hrun.rt2.all, hrun.rt3.all, hrun.rcon⟩

end Pobc.MbedtlsAes
