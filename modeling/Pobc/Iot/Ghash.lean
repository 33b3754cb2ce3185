import Pobc.Gcm
import Mathlib.Tactic.FinCases
import Mathlib.Tactic.IntervalCases

/-!
# GHASH with a sixteen-entry table (`aes/ghash.c`)

`ghash_init` fills the two halves of Shoup's table from the key, and `gcm_mult`
runs through the half-bytes of a block from the last one, shifting the product by
four places with the table `last4` for what falls off. A pair of halves is the
128-bit word `zh ‖ zl`.
-/

namespace Pobc.Iot
open Pobc.Loop Pobc.Gcm Pobc.Reflected
open Pobc.Aes (blockOf)

structure GhashContext where
  HL : ℕ → BitVec 64
  HH : ℕ → BitVec 64
  buf : Block

def getUint32Be (data : Block) (offset : ℕ) : BitVec 32 :=
  (byteAt data offset).setWidth 32 <<< 24 ||| (byteAt data (offset + 1)).setWidth 32 <<< 16 |||
    (byteAt data (offset + 2)).setWidth 32 <<< 8 ||| (byteAt data (offset + 3)).setWidth 32

/-- `PUT_UINT32_BE`, which is also given 64-bit values. -/
def putUint32Be (n : BitVec 64) (data : Block) (offset : ℕ) : Block :=
  setByte (setByte (setByte (setByte data offset ((n >>> 24).setWidth 8))
    (offset + 1) ((n >>> 16).setWidth 8)) (offset + 2) ((n >>> 8).setWidth 8))
    (offset + 3) (n.setWidth 8)

def setEntry (t : ℕ → BitVec 64) (i : ℕ) (v : BitVec 64) : ℕ → BitVec 64 :=
  fun k => if k = i then v else t k

/-- The tables while `ghash_init` fills them, and its running `vl`, `vh`. -/
structure TableState where
  vl : BitVec 64
  vh : BitVec 64
  HL : ℕ → BitVec 64
  HH : ℕ → BitVec 64

/-- A round of `for (i = 4; i > 0; i >>= 1)` (`ghash.c:46-54`). -/
def halveStep (n : ℕ) (s : TableState) : TableState :=
  let i := 4 >>> n
  let T : BitVec 32 := (s.vl &&& 1).setWidth 32 * 0xe1000000#32
  let vl := s.vh <<< 63 ||| s.vl >>> 1
  let vh := s.vh >>> 1 ^^^ T.setWidth 64 <<< 32
  ⟨vl, vh, setEntry s.HL i vl, setEntry s.HH i vh⟩

/-- A round of `for (i = 2; i <= 8; i *= 2)` (`ghash.c:56-66`). -/
def sumStep (n : ℕ) (s : TableState) : TableState :=
  let i := 2 * 2 ^ n
  let vh := s.HH i
  let vl := s.HL i
  forRange (i - 1) (fun k t =>
    let j := k + 1
    { t with HH := setEntry t.HH (i + j) (vh ^^^ t.HH j)
             HL := setEntry t.HL (i + j) (vl ^^^ t.HL j) }) s

/-- `ghash_init` (`ghash.c:26-67`). -/
def ghashInit (h : Block) : GhashContext :=
  let hi := (getUint32Be h 0).setWidth 64
  let lo := (getUint32Be h 4).setWidth 64
  let vh := hi <<< 32 ||| lo
  let hi := (getUint32Be h 8).setWidth 64
  let lo := (getUint32Be h 12).setWidth 64
  let vl := hi <<< 32 ||| lo
  let HL := setEntry (setEntry (fun _ => 0) 8 vl) 0 0
  let HH := setEntry (setEntry (fun _ => 0) 8 vh) 0 0
  let s := forRange 3 sumStep (forRange 3 halveStep ⟨vl, vh, HL, HH⟩)
  ⟨s.HL, s.HH, zeroBlock⟩

def last4 : List (BitVec 64) :=
  [0x0000, 0x1c20, 0x3840, 0x2460, 0x7080, 0x6ca0, 0x48c0, 0x54e0,
   0xe100, 0xfd20, 0xd940, 0xc560, 0x9180, 0x8da0, 0xa9c0, 0xb5e0]

/-- `zl`, `zh` moved by four places, plus an entry of the tables. -/
def shiftAdd (ctx : GhashContext) (nibble : ℕ) (z : BitVec 64 × BitVec 64) :
    BitVec 64 × BitVec 64 :=
  let (zl, zh) := z
  let rem := (zl &&& 0xf).toNat
  let zl := zh <<< 60 ||| zl >>> 4
  let zh := zh >>> 4
  let zh := zh ^^^ last4.getD rem 0 <<< 48
  (zl ^^^ ctx.HL nibble, zh ^^^ ctx.HH nibble)

/-- `gcm_mult` (`ghash.c:86-125`). -/
def gcmMult (ctx : GhashContext) (x : Block) : Block :=
  let lo := (byteAt x 15 &&& 0xf).toNat
  let (zl, zh) := forRange 16 (fun n z =>
    let i := 15 - n
    let lo := (byteAt x i &&& 0xf).toNat
    let hi := (byteAt x i >>> 4 &&& 0xf).toNat
    let z := if i ≠ 15 then shiftAdd ctx lo z else z
    shiftAdd ctx hi z) (ctx.HL lo, ctx.HH lo)
  let output := putUint32Be (zh >>> 32) zeroBlock 0
  let output := putUint32Be zh output 4
  let output := putUint32Be (zl >>> 32) output 8
  putUint32Be zl output 12

/-- `ghash_process_block` (`ghash.c:127-134`). -/
def ghashProcessBlock (ctx : GhashContext) (block : Block) : GhashContext :=
  { ctx with buf := gcmMult ctx (xorBlocks ctx.buf block) }

/-! ### Words -/

def joined (z : BitVec 64 × BitVec 64) : BitVec 128 := z.2 ++ z.1

theorem joined_xor (y z : BitVec 64 × BitVec 64) :
    joined (y.1 ^^^ z.1, y.2 ^^^ z.2) = joined y ^^^ joined z := BitVec.xor_append.symm

theorem getLsbD_joined (z : BitVec 64 × BitVec 64) (i : ℕ) :
    (joined z).getLsbD i = if i < 64 then z.1.getLsbD i else z.2.getLsbD (i - 64) := by
  rw [joined, BitVec.getLsbD_append]

theorem joined_ushiftRight (zl zh : BitVec 64) (k : ℕ) (hk : k ≤ 64) :
    joined (zh <<< (64 - k) ||| zl >>> k, zh >>> k) = joined (zl, zh) >>> k := by
  apply BitVec.eq_of_getLsbD_eq
  intro i hi
  rw [BitVec.getLsbD_ushiftRight, getLsbD_joined, getLsbD_joined]
  by_cases hlow : i < 64
  · rw [if_pos hlow, BitVec.getLsbD_or, BitVec.getLsbD_shiftLeft, BitVec.getLsbD_ushiftRight]
    by_cases hin : k + i < 64
    · have hout : i < 64 - k := by omega
      rw [if_pos hin, decide_eq_true hout]
      simp
    · have hout : ¬ i < 64 - k := by omega
      have hpos : i - (64 - k) = k + i - 64 := by omega
      have hzero : zl.getLsbD (k + i) = false := BitVec.getLsbD_of_ge _ _ (by omega)
      rw [if_neg hin, decide_eq_false hout, decide_eq_true hlow, hpos, hzero]
      simp
  · have hin : ¬ k + i < 64 := by omega
    have hpos : k + (i - 64) = k + i - 64 := by omega
    rw [if_neg hlow, if_neg hin, BitVec.getLsbD_ushiftRight, hpos]

theorem getLsbD_getUint32Be (h : Block) (offset k : ℕ) (hk : k < 32) :
    (getUint32Be h offset).getLsbD k = (byteAt h (offset + 3 - k / 8)).getLsbD (k % 8) := by
  have hcases : k / 8 = 0 ∨ k / 8 = 1 ∨ k / 8 = 2 ∨ k / 8 = 3 := by omega
  have hrest : k = 8 * (k / 8) + k % 8 := by omega
  have hlt : k % 8 < 8 := by omega
  have hhigh : ∀ (b : Byte) (j : ℕ), 8 ≤ j → b.getLsbD j = false := fun b j hj =>
    BitVec.getLsbD_of_ge b j hj
  simp only [getUint32Be, BitVec.getLsbD_or, BitVec.getLsbD_shiftLeft, BitVec.getLsbD_setWidth]
  rcases hcases with h0 | h1 | h2 | h3
  · grind
  · grind
  · grind
  · grind

/- The words of the key in big-endian order are its bit string. -/
theorem joined_getUint32Be (h : Block) :
    joined ((getUint32Be h 8).setWidth 64 <<< 32 ||| (getUint32Be h 12).setWidth 64,
      (getUint32Be h 0).setWidth 64 <<< 32 ||| (getUint32Be h 4).setWidth 64) = bitString h := by
  have hdouble : ∀ (hi lo : BitVec 32) (k : ℕ), k < 64 →
      (hi.setWidth 64 <<< 32 ||| lo.setWidth 64).getLsbD k =
        if k < 32 then lo.getLsbD k else hi.getLsbD (k - 32) := by
    intro hi lo k hk
    have hzero : 32 ≤ k → lo.getLsbD k = false := fun hge => BitVec.getLsbD_of_ge lo k hge
    simp only [BitVec.getLsbD_or, BitVec.getLsbD_shiftLeft, BitVec.getLsbD_setWidth]
    grind
  apply BitVec.eq_of_getLsbD_eq
  intro i hi
  rw [getLsbD_bitString h i hi, getLsbD_joined]
  by_cases h64 : i < 64
  · rw [if_pos h64, hdouble _ _ i h64]
    by_cases h32 : i < 32
    · rw [if_pos h32, getLsbD_getUint32Be h 12 i h32]
    · have hdiv : 8 + 3 - (i - 32) / 8 = 15 - i / 8 := by omega
      have hmod : (i - 32) % 8 = i % 8 := by omega
      rw [if_neg h32, getLsbD_getUint32Be h 8 _ (by omega), hdiv, hmod]
  · rw [if_neg h64, hdouble _ _ _ (by omega)]
    by_cases h96 : i - 64 < 32
    · have hdiv : 4 + 3 - (i - 64) / 8 = 15 - i / 8 := by omega
      have hmod : (i - 64) % 8 = i % 8 := by omega
      rw [if_pos h96, getLsbD_getUint32Be h 4 _ h96, hdiv, hmod]
    · have hdiv : 0 + 3 - (i - 64 - 32) / 8 = 15 - i / 8 := by omega
      have hmod : (i - 64 - 32) % 8 = i % 8 := by omega
      rw [if_neg h96, getLsbD_getUint32Be h 0 _ (by omega), hdiv, hmod]

/- Written out byte by byte, a word is its block. -/
theorem putUint32Be_joined (zl zh : BitVec 64) :
    putUint32Be zl (putUint32Be (zl >>> 32) (putUint32Be zh
      (putUint32Be (zh >>> 32) zeroBlock 0) 4) 8) 12 = blockOf (joined (zl, zh)) := by
  funext j
  apply BitVec.eq_of_getLsbD_eq
  intro k hk
  rw [blockOf, BitVec.getLsbD_extractLsb', decide_eq_true hk, Bool.true_and, getLsbD_joined]
  fin_cases j <;>
    simp [putUint32Be, setByte, BitVec.getLsbD_setWidth, BitVec.getLsbD_ushiftRight] <;> grind

/-! ### Four places at once -/

theorem shiftReduce_xor (r a b : BitVec 128) :
    shiftReduce r (a ^^^ b) = shiftReduce r a ^^^ shiftReduce r b := by
  simp only [shiftReduce, BitVec.ushiftRight_xor_distrib, BitVec.getLsbD_xor]
  cases a.getLsbD 0 <;> cases b.getLsbD 0 <;> simp [BitVec.xor_assoc, BitVec.xor_comm r]

theorem iterate_shiftReduce_xor (r a b : BitVec 128) (k : ℕ) :
    (shiftReduce r)^[k] (a ^^^ b) = (shiftReduce r)^[k] a ^^^ (shiftReduce r)^[k] b := by
  induction k generalizing a b with
  | zero => rfl
  | succ k ih =>
    rw [Function.iterate_succ_apply, shiftReduce_xor, ih, Function.iterate_succ_apply,
      Function.iterate_succ_apply]

/- Nothing falls off a word with `k` zeros at the end. -/
theorem iterate_shiftReduce_of_zeros (r x : BitVec 128) (k : ℕ)
    (h : ∀ i < k, x.getLsbD i = false) : (shiftReduce r)^[k] x = x >>> k := by
  induction k generalizing x with
  | zero => simp
  | succ k ih =>
    have hfirst : shiftReduce r x = x >>> 1 := by
      rw [shiftReduce, h 0 (Nat.succ_pos k)]
      simp
    have hrest : ∀ i < k, (x >>> 1).getLsbD i = false := by
      intro i hi
      rw [BitVec.getLsbD_ushiftRight]
      exact h (1 + i) (by omega)
    rw [Function.iterate_succ_apply, hfirst, ih _ hrest, ← BitVec.shiftRight_add,
      Nat.add_comm]

/-- What `last4` adds for the four bits that fall off. -/
def reduction4 (n : ℕ) : BitVec 128 := joined (0#64, last4.getD n 0 <<< 48)

theorem iterate_shiftReduce_four (z : BitVec 128) :
    (shiftReduce gcmR)^[4] z = z >>> 4 ^^^ reduction4 (z &&& 0xf#128).toNat := by
  have hmask : ∀ i, (0xf#128).getLsbD i = decide (i < 4) := by
    intro i
    rcases Nat.lt_or_ge i 128 with hlt | hge
    · revert i
      decide
    · rw [BitVec.getLsbD_of_ge _ _ hge]
      symm
      rw [decide_eq_false_iff_not]
      omega
  have hsplit : z = (z &&& ~~~ 0xf#128) ^^^ (z &&& 0xf#128) := by
    apply BitVec.eq_of_getLsbD_eq
    intro i hi
    rw [BitVec.getLsbD_xor, BitVec.getLsbD_and, BitVec.getLsbD_and, BitVec.getLsbD_not,
      decide_eq_true hi]
    cases z.getLsbD i <;> cases (0xf#128).getLsbD i <;> rfl
  have hhigh : (shiftReduce gcmR)^[4] (z &&& ~~~ 0xf#128) = z >>> 4 := by
    rw [iterate_shiftReduce_of_zeros]
    · apply BitVec.eq_of_getLsbD_eq
      intro i hi
      have hout : ¬ 4 + i < 4 := by omega
      rw [BitVec.getLsbD_ushiftRight, BitVec.getLsbD_ushiftRight, BitVec.getLsbD_and,
        BitVec.getLsbD_not, hmask, decide_eq_false hout]
      by_cases hin : 4 + i < 128
      · simp [hin]
      · rw [BitVec.getLsbD_of_ge z _ (by omega)]
        simp
    · intro i hi
      rw [BitVec.getLsbD_and, BitVec.getLsbD_not, hmask, decide_eq_true hi]
      simp
  have hlow : (shiftReduce gcmR)^[4] (z &&& 0xf#128) = reduction4 (z &&& 0xf#128).toNat := by
    have htable : ∀ n < 16, (shiftReduce gcmR)^[4] (BitVec.ofNat 128 n) = reduction4 n := by
      decide +kernel
    have hlt : (z &&& 0xf#128).toNat < 16 := by
      rw [BitVec.toNat_and]
      exact Nat.lt_succ_of_le Nat.and_le_right
    have hof : BitVec.ofNat 128 (z &&& 0xf#128).toNat = z &&& 0xf#128 := by
      rw [BitVec.ofNat_toNat, BitVec.setWidth_eq]
    rw [← htable _ hlt, hof]
  conv_lhs => rw [hsplit]
  rw [iterate_shiftReduce_xor, hhigh, hlow]

theorem toGf_shiftAdd (ctx : GhashContext) (nibble : ℕ) (z : BitVec 64 × BitVec 64) :
    toGf 0x87#128 (joined (shiftAdd ctx nibble z)) =
      Gf.mulY^[4] (toGf 0x87#128 (joined z)) +
        toGf 0x87#128 (joined (ctx.HL nibble, ctx.HH nibble)) := by
  obtain ⟨zl, zh⟩ := z
  have hrem : (zl &&& 0xf).toNat = (joined (zl, zh) &&& 0xf#128).toNat := by
    have hmask : (0xf#128) = joined (0xf, 0) := by decide
    have hand : joined (zl, zh) &&& joined (0xf, 0) = joined (zl &&& 0xf, zh &&& 0) :=
      BitVec.and_append
    have hzero : joined (zl &&& 0xf, zh &&& 0) = (zl &&& 0xf).setWidth 128 := by
      apply BitVec.eq_of_getLsbD_eq
      intro i hi
      rw [getLsbD_joined, BitVec.getLsbD_setWidth]
      by_cases h : i < 64
      · rw [if_pos h, decide_eq_true hi, Bool.true_and]
      · rw [if_neg h, BitVec.getLsbD_of_ge (zl &&& 0xf) i (by omega)]
        simp
    rw [hmask, hand, hzero, BitVec.toNat_setWidth]
    omega
  have hshift := joined_ushiftRight zl zh 4 (by omega)
  have hword : joined (shiftAdd ctx nibble (zl, zh)) =
      (joined (zl, zh) >>> 4 ^^^ reduction4 (zl &&& 0xf).toNat) ^^^
        joined (ctx.HL nibble, ctx.HH nibble) := by
    rw [← hshift, reduction4, ← joined_xor, ← joined_xor]
    simp only [shiftAdd, BitVec.xor_zero, Nat.reduceSub]
  rw [hword, hrem, ← iterate_shiftReduce_four, toGf_xor, gcmR_eq, toGf_iterate_shiftReduce]

/-! ### The tables -/

/-- Entry `n` of the tables: bit 3 of `n` stands for `h`, bit 0 for `y^3 h`. -/
def tableGf (h : GcmField) (n : ℕ) : GcmField :=
  (if n.testBit 3 then h else 0) + ((if n.testBit 2 then Gf.mulY h else 0) +
    ((if n.testBit 1 then Gf.mulY^[2] h else 0) + (if n.testBit 0 then Gf.mulY^[3] h else 0)))

/-- The tables belong to the key `h`. -/
def KeyedBy (ctx : GhashContext) (h : Block) : Prop :=
  ∀ n < 16, toGf 0x87#128 (joined (ctx.HL n, ctx.HH n)) = tableGf (fieldOf h) n

theorem joined_halve (vl vh : BitVec 64) :
    joined (vh <<< 63 ||| vl >>> 1,
      vh >>> 1 ^^^ (((vl &&& 1).setWidth 32 * 0xe1000000#32).setWidth 64 <<< 32)) =
      shiftReduce gcmR (joined (vl, vh)) := by
  have hshift := joined_ushiftRight vl vh 1 (by omega)
  have hbit : (joined (vl, vh)).getLsbD 0 = vl.getLsbD 0 := by
    rw [getLsbD_joined, if_pos (by omega)]
  have hone : vl &&& 1 = if vl.getLsbD 0 then 1#64 else 0#64 := by
    apply BitVec.eq_of_getLsbD_eq
    intro i hi
    have hlit : (1 : BitVec 64) = 1#64 := rfl
    rw [hlit, BitVec.getLsbD_and, BitVec.getLsbD_one]
    by_cases h0 : i = 0
    · subst h0
      cases vl.getLsbD 0 <;> simp
    · have hne : ¬ 0 = i := fun h => h0 h.symm
      cases vl.getLsbD 0 <;> simp [h0]
  have hsum : ∀ t : BitVec 64, joined (vh <<< 63 ||| vl >>> 1, vh >>> 1 ^^^ t) =
      joined (vl, vh) >>> 1 ^^^ joined (0#64, t) := by
    intro t
    rw [← hshift, ← joined_xor, BitVec.xor_zero]
  rw [hsum, shiftReduce, hbit, hone]
  cases vl.getLsbD 0 with
  | false => rfl
  | true =>
    have hr : joined (0#64, ((1#64).setWidth 32 * 0xe1000000#32).setWidth 64 <<< 32) = gcmR := by
      decide +kernel
    exact congrArg (joined (vl, vh) >>> 1 ^^^ ·) hr

def TableState.entry (s : TableState) (k : ℕ) : BitVec 128 := joined (s.HL k, s.HH k)

theorem entry_setEntry (s : TableState) (i k : ℕ) (vl vh : BitVec 64) :
    TableState.entry { s with HL := setEntry s.HL i vl, HH := setEntry s.HH i vh } k =
      if k = i then joined (vl, vh) else s.entry k := by
  by_cases h : k = i
  · simp only [TableState.entry, setEntry, if_pos h]
  · simp only [TableState.entry, setEntry, if_neg h]

/- One round of the second loop fills the entries behind `i` up to `2i`. -/
theorem entry_sumStep (n : ℕ) (s : TableState) (k : ℕ) :
    (sumStep n s).entry k = if 2 * 2^n < k ∧ k < 2 * (2 * 2^n)
      then s.entry (2 * 2^n) ^^^ s.entry (k - 2 * 2^n) else s.entry k := by
  generalize hi : 2 * 2^n = i
  have hpos : 0 < i := by
    have h2 := Nat.two_pow_pos n
    omega
  have hrun := forRange_inv
    (fun m (t : TableState) => ∀ k, t.entry k =
      if i < k ∧ k < i + 1 + m then s.entry i ^^^ s.entry (k - i) else s.entry k)
    (i - 1) (fun k t => { t with HH := setEntry t.HH (i + (k + 1)) (s.HH i ^^^ t.HH (k + 1))
                                 HL := setEntry t.HL (i + (k + 1)) (s.HL i ^^^ t.HL (k + 1)) })
    s (fun k => (if_neg (by omega)).symm) fun m hm t ht k => by
      rw [entry_setEntry]
      have hread : joined (s.HL i ^^^ t.HL (m + 1), s.HH i ^^^ t.HH (m + 1)) =
          s.entry i ^^^ t.entry (m + 1) := joined_xor (s.HL i, s.HH i) (t.HL (m + 1), t.HH (m + 1))
      have hbelow : t.entry (m + 1) = s.entry (m + 1) := by
        rw [ht, if_neg (by omega)]
      by_cases hk : k = i + (m + 1)
      · have hoff : k - i = m + 1 := by omega
        rw [if_pos hk, if_pos (by omega), hread, hbelow, hoff]
      · have hiff : (i < k ∧ k < i + 1 + m) ↔ (i < k ∧ k < i + 1 + (m + 1)) := by omega
        rw [if_neg hk, ht, if_congr hiff rfl rfl]
  have hlen : i + 1 + (i - 1) = 2 * i := by omega
  have hk := hrun k
  rw [hlen] at hk
  rw [← hk, sumStep, hi]

theorem tableGf_add (h : GcmField) (n k : ℕ) (hn : n < 3) (hlo : 2 * 2^n < k)
    (hhi : k < 2 * (2 * 2^n)) : tableGf h (2 * 2^n) + tableGf h (k - 2 * 2^n) = tableGf h k := by
  have hcases : (n = 0 ∧ k = 3) ∨ (n = 1 ∧ (k = 5 ∨ k = 6 ∨ k = 7)) ∨
      (n = 2 ∧ (k = 9 ∨ k = 10 ∨ k = 11 ∨ k = 12 ∨ k = 13 ∨ k = 14 ∨ k = 15)) := by
    interval_cases n <;> omega
  rcases hcases with ⟨rfl, rfl⟩ | ⟨rfl, rfl | rfl | rfl⟩ |
    ⟨rfl, rfl | rfl | rfl | rfl | rfl | rfl | rfl⟩ <;> simp [tableGf, Nat.testBit]

/- Each round of the first loop halves the running word. -/
theorem toGf_halveSteps (n : ℕ) (s : TableState) :
    toGf 0x87#128 (joined ((forRange n halveStep s).vl, (forRange n halveStep s).vh)) =
      Gf.mulY^[n] (toGf 0x87#128 (joined (s.vl, s.vh))) := by
  induction n with
  | zero => rfl
  | succ n ih =>
    rw [Function.iterate_succ_apply', ← ih, ← toGf_shiftReduce, ← gcmR_eq, ← joined_halve]
    rfl

/- The second loop sums the table up from the zero and the four entries of the first one. -/
theorem entry_sumSteps (h : GcmField) (s : TableState)
    (hs : ∀ n, n = 0 ∨ n = 1 ∨ n = 2 ∨ n = 4 ∨ n = 8 → toGf 0x87#128 (s.entry n) = tableGf h n)
    (n : ℕ) (hn : n < 16) : toGf 0x87#128 ((forRange 3 sumStep s).entry n) = tableGf h n := by
  -- round `n` needs the entries below `2^(n + 1)` and that one
  have hsum := forRange_inv
    (fun n (s : TableState) => ∀ k < 16, k < 2 * 2^n ∨ k = 4 ∨ k = 8 ∨ k = 2 * 2^n →
      toGf 0x87#128 (s.entry k) = tableGf h k)
    3 sumStep s (fun k _ hk => hs k (by omega)) fun n hn s hs k hk hcase => by
      rw [entry_sumStep]
      have hpow : 2 * 2^n < 16 := by interval_cases n <;> decide
      have hnext : 2 * 2^(n + 1) = 2 * (2 * 2^n) := by rw [pow_succ']
      split
      · rename_i hin
        rw [toGf_xor, hs _ hpow (by omega), hs (k - 2 * 2^n) (by omega) (by omega)]
        exact tableGf_add h n k hn hin.1 hin.2
      · apply hs k hk
        interval_cases n <;> omega
  exact hsum n hn (by omega)

theorem ghashInit_keyedBy (h : Block) : KeyedBy (ghashInit h) h := by
  let vh := (getUint32Be h 0).setWidth 64 <<< 32 ||| (getUint32Be h 4).setWidth 64
  let vl := (getUint32Be h 8).setWidth 64 <<< 32 ||| (getUint32Be h 12).setWidth 64
  let s₀ : TableState := ⟨vl, vh, setEntry (setEntry (fun _ => 0) 8 vl) 0 0,
    setEntry (setEntry (fun _ => 0) 8 vh) 0 0⟩
  have hword : ∀ n, toGf 0x87#128 (joined ((forRange n halveStep s₀).vl,
      (forRange n halveStep s₀).vh)) = Gf.mulY^[n] (fieldOf h) := by
    intro n
    rw [toGf_halveSteps, joined_getUint32Be]
    rfl
  intro n hn
  refine entry_sumSteps (fieldOf h) (forRange 3 halveStep s₀) ?_ n hn
  rintro n (rfl | rfl | rfl | rfl | rfl)
  · have hzero : (forRange 3 halveStep s₀).entry 0 = 0#128 := by
      show joined (0, 0) = 0#128
      decide
    rw [hzero, toGf_zero]
    simp [tableGf]
  · refine (hword 3).trans ?_
    simp [tableGf, Nat.testBit]
  · refine (hword 2).trans ?_
    simp [tableGf, Nat.testBit]
  · refine (hword 1).trans ?_
    simp [tableGf, Nat.testBit]
  · refine (hword 0).trans ?_
    simp [tableGf, Nat.testBit]

/-! ### The product -/

/- An entry of the tables is the part of the product that reads four bits. -/
theorem tableGf_eq (b : BitVec 128) (h : GcmField) (n i : ℕ)
    (hbits : ∀ j < 4, n.testBit j = b.getLsbD (i + 3 - j)) :
    tableGf h n = Gf.mulFrom b 4 i h := by
  have h0 : n.testBit 0 = b.getLsbD (i + 1 + 1 + 1) := hbits 0 (by omega)
  have h1 : n.testBit 1 = b.getLsbD (i + 1 + 1) := hbits 1 (by omega)
  have h2 : n.testBit 2 = b.getLsbD (i + 1) := hbits 2 (by omega)
  have h3 : n.testBit 3 = b.getLsbD i := hbits 3 (by omega)
  rw [tableGf, h0, h1, h2, h3]
  simp only [Gf.mulFrom, add_zero, Function.iterate_succ_apply, Function.iterate_zero_apply]

theorem testBit_nibble (b : Byte) (j : ℕ) (hj : j < 4) :
    (b &&& 0xf).toNat.testBit j = b.getLsbD j := by
  have hmask : ∀ j < 4, (0xf#8).getLsbD j = true := by decide
  have hlit : (0xf : Byte) = 0xf#8 := rfl
  rw [← BitVec.getLsbD, hlit, BitVec.getLsbD_and, hmask j hj, Bool.and_true]

theorem nibble_lt (b : Byte) : (b &&& 0xf).toNat < 16 := by
  rw [BitVec.toNat_and]
  exact Nat.lt_succ_of_le Nat.and_le_right

section Product

variable (ctx : GhashContext) (h x : Block)

/- The low and the high half of byte `i`. -/
theorem toGf_low (hctx : KeyedBy ctx h) (i : ℕ) (hi : i < 16) :
    toGf 0x87#128 (joined (ctx.HL (byteAt x i &&& 0xf).toNat, ctx.HH (byteAt x i &&& 0xf).toNat)) =
      Gf.mulFrom (bitString x).reverse 4 (8 * i + 4) (fieldOf h) := by
  rw [hctx _ (nibble_lt _)]
  apply tableGf_eq
  intro j hj
  have hdiv : (8 * i + 4 + 3 - j) / 8 = i := by omega
  have hmod : 7 - (8 * i + 4 + 3 - j) % 8 = j := by omega
  rw [testBit_nibble _ j hj, BitVec.getLsbD_reverse, getMsbD_bitString _ _ (by omega), hdiv, hmod]

theorem toGf_high (hctx : KeyedBy ctx h) (i : ℕ) (hi : i < 16) :
    toGf 0x87#128 (joined (ctx.HL (byteAt x i >>> 4 &&& 0xf).toNat,
      ctx.HH (byteAt x i >>> 4 &&& 0xf).toNat)) =
      Gf.mulFrom (bitString x).reverse 4 (8 * i) (fieldOf h) := by
  rw [hctx _ (nibble_lt _)]
  apply tableGf_eq
  intro j hj
  have hdiv : (8 * i + 3 - j) / 8 = i := by omega
  have hmod : 7 - (8 * i + 3 - j) % 8 = 4 + j := by omega
  rw [testBit_nibble _ j hj, BitVec.getLsbD_ushiftRight, BitVec.getLsbD_reverse,
    getMsbD_bitString _ _ (by omega), hdiv, hmod]

/- One more half-byte in front of `m` bits. -/
theorem toGf_shiftAdd_mulFrom (b : BitVec 128) (a : GcmField) (nibble m i : ℕ)
    (z : BitVec 64 × BitVec 64)
    (hz : toGf 0x87#128 (joined z) = Gf.mulFrom b m (i + 4) a)
    (hentry : toGf 0x87#128 (joined (ctx.HL nibble, ctx.HH nibble)) = Gf.mulFrom b 4 i a) :
    toGf 0x87#128 (joined (shiftAdd ctx nibble z)) = Gf.mulFrom b (4 + m) i a := by
  rw [toGf_shiftAdd, hz, hentry, Gf.mulFrom_horner]

/- After `n` rounds the product reads the last `8n` bits of the block; before the
first round the low half of byte 15 is there already. -/
theorem gcmMult_eq (hctx : KeyedBy ctx h) : gcmMult ctx x = gfMul x h := by
  let b := (bitString x).reverse
  let body : ℕ → BitVec 64 × BitVec 64 → BitVec 64 × BitVec 64 := fun n z =>
    let i := 15 - n
    let lo := (byteAt x i &&& 0xf).toNat
    let hi := (byteAt x i >>> 4 &&& 0xf).toNat
    let z := if i ≠ 15 then shiftAdd ctx lo z else z
    shiftAdd ctx hi z
  let lo := (byteAt x 15 &&& 0xf).toNat
  have hrun := forRange_inv
    (fun n z => if n = 0 then z = (ctx.HL lo, ctx.HH lo)
      else toGf 0x87#128 (joined z) = Gf.mulFrom b (8 * n) (128 - 8 * n) (fieldOf h))
    16 body (ctx.HL lo, ctx.HH lo) rfl fun n hn z hz => by
      rw [if_neg (Nat.succ_ne_zero n)]
      have hlow : toGf 0x87#128 (joined (if 15 - n ≠ 15
          then shiftAdd ctx (byteAt x (15 - n) &&& 0xf).toNat z else z)) =
          Gf.mulFrom b (8 * n + 4) (8 * (15 - n) + 4) (fieldOf h) := by
        by_cases h0 : n = 0
        · subst h0
          rw [if_pos rfl] at hz
          rw [hz]
          exact toGf_low ctx h x hctx 15 (by omega)
        · rw [if_neg h0] at hz
          have hpos : 128 - 8 * n = 8 * (15 - n) + 4 + 4 := by omega
          have hlen : 8 * n + 4 = 4 + 8 * n := by omega
          rw [hpos] at hz
          rw [if_pos (by omega), hlen]
          exact toGf_shiftAdd_mulFrom ctx b _ _ _ _ z hz (toGf_low ctx h x hctx _ (by omega))
      have hlen : 8 * (n + 1) = 4 + (8 * n + 4) := by omega
      have hpos : 128 - (4 + (8 * n + 4)) = 8 * (15 - n) := by omega
      rw [hlen, hpos]
      exact toGf_shiftAdd_mulFrom ctx b _ _ _ _ _ hlow (toGf_high ctx h x hctx _ (by omega))
  have hall : toGf 0x87#128 (joined (forRange 16 body (ctx.HL lo, ctx.HH lo))) =
      fieldOf h * fieldOf x := hrun
  have hout : gcmMult ctx x = blockOf (joined (forRange 16 body (ctx.HL lo, ctx.HH lo))) :=
    putUint32Be_joined _ _
  apply fieldOf_injective
  rw [hout, fieldOf, bitString_blockOf, hall, fieldOf_gfMul, mul_comm]

end Product

/-! ### Whole strings -/

/-- The loops over a string (`aes_gcm.c:100-123`, `aes_gcm_siv.c:85-125`): full
blocks from `data`, then the rest of it in a cleared buffer. -/
def ghashFeed (ctx : GhashContext) (data : Buffer) (len : ℕ) : GhashContext :=
  let blocks := len / 16
  let ctx := forRange blocks (fun i ctx =>
    ghashProcessBlock ctx fun j => data (i * 16 + j)) ctx
  if len % 16 ≠ 0 then
    ghashProcessBlock ctx fun j => if j.val < len % 16 then data (blocks * 16 + j) else zeroBlock j
  else ctx

/-- `ctx` belongs to the key `h` and has taken in the blocks `xs`. -/
structure Absorbed (ctx : GhashContext) (h : Block) (xs : List Block) : Prop where
  keyed : KeyedBy ctx h
  buf : ctx.buf = ghash h xs

theorem ghashInit_absorbed (h : Block) : Absorbed (ghashInit h) h [] where
  keyed := ghashInit_keyedBy h
  buf := rfl

theorem ghashProcessBlock_absorbed (ctx : GhashContext) (h block : Block) (xs : List Block)
    (hctx : Absorbed ctx h xs) : Absorbed (ghashProcessBlock ctx block) h (xs ++ [block]) where
  keyed := hctx.keyed
  buf := by
    have hmult : (ghashProcessBlock ctx block).buf = gfMul (xorBlocks ctx.buf block) h :=
      gcmMult_eq ctx h _ hctx.keyed
    rw [hmult, hctx.buf, ghash, ghash, List.foldl_append, List.foldl_cons, List.foldl_nil]

/- After `n` rounds the first `n` blocks are in; a short last block is the last
one of the padded string. -/
theorem ghashFeed_absorbed (ctx : GhashContext) (h : Block) (xs : List Block) (data : Buffer)
    (len : ℕ) (hctx : Absorbed ctx h xs) :
    Absorbed (ghashFeed ctx data len) h (xs ++ padBlocks (bytesOf data len)) := by
  let block (i : ℕ) : Block := fun j => bufferOf (bytesOf data len) (i * 16 + j)
  have hfull : ∀ i < len / 16, (fun j : Fin 16 => data (i * 16 + j)) = block i := by
    intro i hi
    funext j
    have hj := j.isLt
    exact (bufferOf_bytesOf data len _ (by omega)).symm
  have hrun := forRange_inv
    (fun n (ctx : GhashContext) => Absorbed ctx h (xs ++ (List.range n).map block))
    (len / 16) (fun i ctx => ghashProcessBlock ctx fun j => data (i * 16 + j)) ctx
    (by rwa [List.range_zero, List.map_nil, List.append_nil]) fun i hi ctx hctx => by
      rw [hfull i hi, List.range_succ, List.map_append, List.map_cons, List.map_nil,
        ← List.append_assoc]
      exact ghashProcessBlock_absorbed ctx h _ _ hctx
  rw [ghashFeed, padBlocks, length_bytesOf]
  by_cases hrest : len % 16 = 0
  · have hcount : (len + 15) / 16 = len / 16 := by omega
    rw [if_neg (not_not.mpr hrest), hcount]
    exact hrun
  · have hcount : (len + 15) / 16 = len / 16 + 1 := by omega
    have hlast : (fun j : Fin 16 => if j.val < len % 16 then data (len / 16 * 16 + j)
        else zeroBlock j) = block (len / 16) := by
      funext j
      by_cases hj : j.val < len % 16
      · rw [if_pos hj]
        exact (bufferOf_bytesOf data len _ (by omega)).symm
      · rw [if_neg hj]
        have hout : (bytesOf data len).length ≤ len / 16 * 16 + j.val := by
          rw [length_bytesOf]
          omega
        show zeroBlock j = (bytesOf data len).getD (len / 16 * 16 + j.val) 0
        exact (List.getD_eq_default _ _ hout).symm
    rw [if_pos hrest, hcount, hlast, List.range_succ, List.map_append, List.map_cons,
      List.map_nil, ← List.append_assoc]
    exact ghashProcessBlock_absorbed _ h _ _ hrun

end Pobc.Iot
