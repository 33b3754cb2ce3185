import Pobc.MiniGmp.Mpz

/-!
# Numerals of mini-gmp (`mimc-gmp/mini-gmp.c:1316-1347,4265-4368`)

`mpz_set_str` for the bases `2, 4, 8, 16, 32`, given by the number of bits of a digit; MiMC reads
its prime and its constants to the base 16. A string is the list of its characters, without the
NUL. Of the two assertions, the one on the base holds for these five, and `rn <= alloc` is about
memory, which is left out.
-/

namespace Pobc.MiniGmp
open Pobc.Limbs

variable {w : ℕ}

/-- `isspace` of the C locale. -/
def isspace (c : Char) : Bool := c = ' ' || ('\t' ≤ c && c ≤ '\r')

/-- The digit that a character stands for, `base` for one that is no digit. -/
def digitOf (base : ℕ) (c : Char) : ℕ :=
  if '0' ≤ c ∧ c ≤ '9' then c.toNat - '0'.toNat
  else if 'a' ≤ c ∧ c ≤ 'z' then c.toNat - 'a'.toNat + 10
  else if 'A' ≤ c ∧ c ≤ 'Z' then c.toNat - 'A'.toNat + 10
  else base

/-- The digits of a string: spaces are skipped, another character that is no digit fails. -/
def readDigits (base : ℕ) : List Char → Option (List (BitVec 8))
  | [] => some []
  | c :: sp =>
    if isspace c then readDigits base sp
    else
      let digit := digitOf base c
      if digit ≥ base then none else (readDigits base sp).map (BitVec.ofNat 8 digit :: ·)

/-- A digit of `mpn_set_str_bits`: the limbs, and the bits in the highest one. -/
def setStrStep (bits : ℕ) (s : List (BitVec w) × ℕ) (digit : BitVec 8) : List (BitVec w) × ℕ :=
  let (rp, shift) := s
  let limb := digit.setWidth w
  if shift = 0 then (rp ++ [limb], shift + bits)
  else
    let rp := rp.take (rp.length - 1) ++ [rp.getD (rp.length - 1) 0 ||| (limb <<< shift)]
    let shift := shift + bits
    if shift ≥ w then
      let shift := shift - w
      if shift > 0 then (rp ++ [limb >>> (bits - shift)], shift) else (rp, shift)
    else (rp, shift)

/-- `mpn_set_str_bits`, from the last digit on. -/
def mpnSetStrBits (sp : List (BitVec 8)) (bits : ℕ) : List (BitVec w) :=
  let (rp, _) := sp.reverse.foldl (setStrStep bits) ([], 0)
  rp.take (mpnNormalizedSize rp rp.length)

/-- `mpz_set_str`; `none` where it returns -1. -/
def mpzSetStr (bits : ℕ) (sp : List Char) : Option (Mpz w) :=
  let sp := sp.dropWhile isspace
  let sign := sp.head? = some '-'
  let sp := if sign then sp.tail else sp
  if sp = [] then none
  else
    match readDigits (2 ^ bits) sp with
    | none => none
    | some dp =>
      if dp = [] then none
      else
        let rp := mpnSetStrBits dp bits
        some { size := if sign then -rp.length else rp.length, d := rp }

/-! ### The digits -/

/-- A `-` behind the leading spaces. -/
def Negative (sp : List Char) : Prop := (sp.dropWhile isspace).head? = some '-'

instance (sp : List Char) : Decidable (Negative sp) := inferInstanceAs (Decidable (_ = _))

/-- What the string has behind the sign, but for spaces. -/
def digitChars (sp : List Char) : List Char :=
  (if Negative sp then (sp.dropWhile isspace).tail else sp.dropWhile isspace).filter (!isspace ·)

theorem readDigits_some (base : ℕ) (sp : List Char)
    (h : ∀ c ∈ sp.filter (!isspace ·), digitOf base c < base) :
    readDigits base sp =
      some ((sp.filter (!isspace ·)).map fun c => BitVec.ofNat 8 (digitOf base c)) := by
  induction sp with
  | nil => rfl
  | cons c sp ih =>
    unfold readDigits
    by_cases hspace : isspace c
    · have hfilter : (c :: sp).filter (!isspace ·) = sp.filter (!isspace ·) := by simp [hspace]
      rw [hfilter] at h ⊢
      rw [if_pos hspace, ih h]
    · have hfilter : (c :: sp).filter (!isspace ·) = c :: sp.filter (!isspace ·) := by
        simp [hspace]
      rw [hfilter] at h ⊢
      have hlt := h c List.mem_cons_self
      rw [if_neg hspace, if_neg (not_le.mpr hlt), ih fun c hc => h c (List.mem_cons_of_mem _ hc)]
      rfl

theorem readDigits_none {base : ℕ} {sp : List Char}
    (h : ¬ ∀ c ∈ sp.filter (!isspace ·), digitOf base c < base) : readDigits base sp = none := by
  induction sp with
  | nil => simp at h
  | cons c sp ih =>
    unfold readDigits
    by_cases hspace : isspace c
    · have hfilter : (c :: sp).filter (!isspace ·) = sp.filter (!isspace ·) := by simp [hspace]
      rw [hfilter] at h
      rw [if_pos hspace, ih h]
    · have hfilter : (c :: sp).filter (!isspace ·) = c :: sp.filter (!isspace ·) := by
        simp [hspace]
      rw [hfilter, List.forall_mem_cons, not_and] at h
      rw [if_neg hspace]
      by_cases hdigit : digitOf base c ≥ base
      · rw [if_pos hdigit]
      · rw [if_neg hdigit, ih (h (not_le.mp hdigit))]
        rfl

/-! ### The limbs -/

/-- What the loop of `mpn_set_str_bits` has read, the last digit first. -/
structure SetDigits (bits : ℕ) (ds : List (BitVec 8)) (s : List (BitVec w) × ℕ) : Prop where
  shift_lt : s.2 < w
  value : value s.1 = Nat.ofDigits (2 ^ bits) (ds.map BitVec.toNat)
  whole : s.2 = 0 → w * s.1.length = bits * ds.length
  filling : s.2 ≠ 0 → ∃ low limb, s.1 = low ++ [limb] ∧ limb.toNat < 2 ^ s.2 ∧
    w * low.length + s.2 = bits * ds.length

section Digits

variable (hw : LimbBits w) {bits : ℕ} (hpos : 0 < bits) (hbits : bits < w)

include hw hpos hbits

omit hw hpos hbits in
theorem ofDigits_concat (ds : List (BitVec 8)) (digit : BitVec 8) :
    Nat.ofDigits (2 ^ bits) ((ds ++ [digit]).map BitVec.toNat) =
      Nat.ofDigits (2 ^ bits) (ds.map BitVec.toNat) + 2 ^ (bits * ds.length) * digit.toNat := by
  rw [List.map_append, Nat.ofDigits_append, List.length_map, ← Nat.pow_mul]
  simp

section Step

variable {ds : List (BitVec 8)} {digit : BitVec 8} (hdigit : digit.toNat < 2 ^ bits)

include hdigit

/- The limb is full: the digit starts a new one. -/
theorem SetDigits.newLimb {rp : List (BitVec w)} (h : SetDigits bits ds (rp, 0)) :
    SetDigits bits (ds ++ [digit]) (rp ++ [digit.setWidth w], bits) := by
  have hw8 : 8 ≤ w := Nat.le_of_dvd hw.pos hw.bytes
  have hlimb : (digit.setWidth w).toNat = digit.toNat := BitVec.toNat_setWidth_of_le hw8
  have hwhole : w * rp.length = bits * ds.length := h.whole rfl
  have hpow : base w ^ rp.length = 2 ^ (bits * ds.length) := by
    rw [← hwhole, Nat.pow_mul]
    rfl
  constructor
  case shift_lt => exact hbits
  case value => rw [ofDigits_concat, ← h.value, value_concat, hlimb, hpow]
  case whole => exact fun h => absurd h hpos.ne'
  case filling =>
    intro _
    refine ⟨rp, digit.setWidth w, rfl, by rwa [hlimb], ?_⟩
    rw [List.length_append, List.length_singleton, Nat.mul_succ, hwhole]

section Filling

variable {low : List (BitVec w)} {limb : BitVec w} {shift : ℕ} (hshift : shift < w)
  (hlt : limb.toNat < 2 ^ shift) (hcount : w * low.length + shift = bits * ds.length)
  (hval : value (low ++ [limb]) = Nat.ofDigits (2 ^ bits) (ds.map BitVec.toNat))

include hshift hlt hcount hval

omit hpos hbits hdigit in
/- The digit in the highest limb, and what of it does not fit there. -/
theorem value_filled (digit : BitVec 8) :
    value (low ++ [limb ||| (digit.setWidth w <<< shift)]) +
        base w ^ (low.length + 1) * (digit.setWidth w >>> (w - shift)).toNat =
      Nat.ofDigits (2 ^ bits) ((ds ++ [digit]).map BitVec.toNat) := by
  have hw8 : 8 ≤ w := Nat.le_of_dvd hw.pos hw.bytes
  have hlimb : (digit.setWidth w).toNat = digit.toNat := BitVec.toNat_setWidth_of_le hw8
  have hsplit := shift_split hshift.le (digit.setWidth w)
  have hor : (limb ||| (digit.setWidth w <<< shift)).toNat =
      limb.toNat + (digit.setWidth w <<< shift).toNat := by
    rw [BitVec.or_comm, toNat_shiftLeft_or hshift.le _ hlt, Nat.add_comm]
  have hpow : base w ^ low.length * 2 ^ shift = 2 ^ (bits * ds.length) := by
    rw [← hcount, Nat.pow_add, Nat.pow_mul]
    rfl
  rw [hlimb] at hsplit
  rw [ofDigits_concat, ← hval, value_concat, value_concat, hor, ← hpow, Nat.pow_succ]
  zify at hsplit ⊢
  linear_combination (base w : ℤ) ^ low.length * hsplit

omit hbits in
/- The digit fits. -/
theorem setDigits_fits (hfull : shift + bits < w) :
    SetDigits bits (ds ++ [digit])
      (low ++ [limb ||| (digit.setWidth w <<< shift)], shift + bits) := by
  have hw8 : 8 ≤ w := Nat.le_of_dvd hw.pos hw.bytes
  have hlimb : (digit.setWidth w).toNat = digit.toNat := BitVec.toNat_setWidth_of_le hw8
  have hfits : digit.toNat < 2 ^ (w - shift) :=
    hdigit.trans_le (Nat.pow_le_pow_right (by decide) (by omega))
  have hall := value_filled hw hshift hlt hcount hval digit
  have hnone : (digit.setWidth w >>> (w - shift)).toNat = 0 := by
    rw [BitVec.toNat_ushiftRight, Nat.shiftRight_eq_div_pow, hlimb, Nat.div_eq_of_lt hfits]
  rw [hnone, Nat.mul_zero, Nat.add_zero] at hall
  constructor
  case shift_lt => exact hfull
  case value => exact hall
  case whole => exact fun h => absurd h (by simp only; omega)
  case filling =>
    intro _
    refine ⟨low, _, rfl, ?_, ?_⟩
    · have hmul := Nat.mul_le_mul_left (2 ^ shift) (Nat.succ_le_of_lt hdigit)
      rw [BitVec.or_comm, toNat_shiftLeft_or hshift.le _ hlt, toNat_shiftLeft hshift.le, hlimb,
        Nat.mod_eq_of_lt hfits, Nat.pow_add]
      rw [Nat.mul_succ] at hmul
      omega
    · rw [List.length_append, List.length_singleton, Nat.mul_succ]
      simp only
      omega

omit hpos in
/- The digit goes over the end of the limb. -/
theorem setDigits_over (hfull : w < shift + bits) :
    SetDigits bits (ds ++ [digit])
      (low ++ [limb ||| (digit.setWidth w <<< shift)] ++ [digit.setWidth w >>> (w - shift)],
        shift + bits - w) := by
  have hw8 : 8 ≤ w := Nat.le_of_dvd hw.pos hw.bytes
  have hlimb : (digit.setWidth w).toNat = digit.toNat := BitVec.toNat_setWidth_of_le hw8
  have hall := value_filled hw hshift hlt hcount hval digit
  constructor
  case shift_lt => simp only; omega
  case value => rw [value_concat, List.length_append, List.length_singleton, hall]
  case whole => exact fun h => absurd h (by simp only; omega)
  case filling =>
    intro _
    refine ⟨_, _, rfl, ?_, ?_⟩
    · rw [BitVec.toNat_ushiftRight, Nat.shiftRight_eq_div_pow, hlimb]
      refine Nat.div_lt_of_lt_mul ?_
      rw [← Nat.pow_add]
      refine hdigit.trans_le (Nat.pow_le_pow_right (by decide) ?_)
      simp only
      omega
    · simp only [List.length_append, List.length_singleton, Nat.mul_succ]
      omega

omit hbits in
/- The digit ends with the limb. -/
theorem setDigits_ends (hfull : shift + bits = w) :
    SetDigits bits (ds ++ [digit]) (low ++ [limb ||| (digit.setWidth w <<< shift)], 0) := by
  have hw8 : 8 ≤ w := Nat.le_of_dvd hw.pos hw.bytes
  have hlimb : (digit.setWidth w).toNat = digit.toNat := BitVec.toNat_setWidth_of_le hw8
  have hexact : w - shift = bits := by omega
  have hall := value_filled hw hshift hlt hcount hval digit
  have hnone : (digit.setWidth w >>> (w - shift)).toNat = 0 := by
    rw [BitVec.toNat_ushiftRight, Nat.shiftRight_eq_div_pow, hlimb, hexact,
      Nat.div_eq_of_lt hdigit]
  rw [hnone, Nat.mul_zero, Nat.add_zero] at hall
  constructor
  case shift_lt => exact hw.pos
  case value => exact hall
  case whole =>
    intro _
    simp only [List.length_append, List.length_singleton, Nat.mul_succ]
    omega
  case filling => exact fun h => absurd rfl h

end Filling

theorem SetDigits.step {s : List (BitVec w) × ℕ} (h : SetDigits bits ds s) :
    SetDigits bits (ds ++ [digit]) (setStrStep bits s digit) := by
  obtain ⟨rp, shift⟩ := s
  unfold setStrStep
  by_cases hzero : shift = 0
  · subst hzero
    simp only [if_true, Nat.zero_add]
    exact h.newLimb hw hpos hbits hdigit
  · have hshift : shift < w := h.shift_lt
    obtain ⟨low, limb, rfl, hlt, hcount⟩ := h.filling hzero
    have hset : (low ++ [limb]).take ((low ++ [limb]).length - 1) ++
        [(low ++ [limb]).getD ((low ++ [limb]).length - 1) 0 ||| (digit.setWidth w <<< shift)] =
        low ++ [limb ||| (digit.setWidth w <<< shift)] := by simp
    simp only [if_neg hzero, hset]
    rcases lt_trichotomy (shift + bits) w with hless | hends | hover
    · rw [if_neg (not_le.mpr hless)]
      exact setDigits_fits hw hpos hdigit hshift hlt hcount h.value hless
    · rw [if_pos hends.ge, if_neg (by omega), hends, Nat.sub_self]
      exact setDigits_ends hw hpos hdigit hshift hlt hcount h.value hends
    · have hback : bits - (shift + bits - w) = w - shift := by omega
      rw [if_pos hover.le, if_pos (by omega), hback]
      exact setDigits_over hw hbits hdigit hshift hlt hcount h.value hover

end Step

/- The limbs of a string of digits. -/
theorem mpnSetStrBits_spec (sp : List (BitVec 8)) (hsp : ∀ d ∈ sp, d.toNat < 2 ^ bits) :
    Normal (mpnSetStrBits (w := w) sp bits) ∧
      value (mpnSetStrBits (w := w) sp bits) =
        Nat.ofDigits (2 ^ bits) (sp.reverse.map BitVec.toNat) := by
  have hloop (ds : List (BitVec 8)) (hds : ∀ d ∈ ds, d.toNat < 2 ^ bits) :
      SetDigits bits ds (ds.foldl (setStrStep (w := w) bits) ([], 0)) := by
    induction ds using List.reverseRecOn with
    | nil =>
      constructor
      case shift_lt => exact hw.pos
      case value => rfl
      case whole => simp
      case filling => exact fun h => absurd rfl h
    | append_singleton ds digit ih =>
      rw [List.foldl_concat]
      exact (ih fun d hd => hds d (by simp [hd])).step hw hpos hbits (hds digit (by simp))
  have hread := hloop sp.reverse fun d hd => hsp d (List.mem_reverse.mp hd)
  obtain ⟨-, hnormal, hval⟩ := mpnNormalizedSize_spec
    (sp.reverse.foldl (setStrStep (w := w) bits) ([], 0)).1 _ le_rfl
  refine ⟨hnormal, ?_⟩
  rw [List.take_length, hread.value] at hval
  exact hval

end Digits

theorem ofNat_digitOf {bits : ℕ} (hbits : bits ≤ 5) {c : Char}
    (hc : digitOf (2 ^ bits) c < 2 ^ bits) :
    (BitVec.ofNat 8 (digitOf (2 ^ bits) c)).toNat = digitOf (2 ^ bits) c := by
  rw [BitVec.toNat_ofNat]
  refine Nat.mod_eq_of_lt (hc.trans_le ?_)
  exact Nat.pow_le_pow_right (by decide) (by omega)

/-- `mpz_set_str` takes a string exactly when it has a digit behind the sign and nothing but digits
and spaces there, and the number is then the one that the digits spell. -/
theorem mpzSetStr_eq (hw : LimbBits w) (bits : ℕ) (hpos : 0 < bits) (hbits : bits ≤ 5)
    (sp : List Char) :
    (mpzSetStr (w := w) bits sp = none ↔
      ¬ (digitChars sp ≠ [] ∧ ∀ c ∈ digitChars sp, digitOf (2 ^ bits) c < 2 ^ bits)) ∧
      ∀ r : Mpz w, mpzSetStr bits sp = some r →
        r.Holds ((if Negative sp then -1 else 1) *
          (Nat.ofDigits (2 ^ bits) ((digitChars sp).reverse.map (digitOf (2 ^ bits))) : ℕ)) := by
  have hw8 : 8 ≤ w := Nat.le_of_dvd hw.pos hw.bytes
  obtain ⟨body, hbody⟩ : ∃ body, body = if Negative sp then (sp.dropWhile isspace).tail
    else sp.dropWhile isspace := ⟨_, rfl⟩
  have hchars : digitChars sp = body.filter (!isspace ·) := by rw [digitChars, hbody]
  have hset : mpzSetStr (w := w) bits sp = if body = [] then none else
      match readDigits (2 ^ bits) body with
      | none => none
      | some dp => if dp = [] then none else
          some { size := if Negative sp then -(mpnSetStrBits (w := w) dp bits).length
                         else (mpnSetStrBits (w := w) dp bits).length,
                 d := mpnSetStrBits dp bits } := by
    rw [hbody]
    rfl
  by_cases hall : ∀ c ∈ digitChars sp, digitOf (2 ^ bits) c < 2 ^ bits
  · have hread := readDigits_some (2 ^ bits) body (hchars ▸ hall)
    rw [← hchars] at hread
    by_cases hnil : digitChars sp = []
    · have hnone : mpzSetStr (w := w) bits sp = none := by
        rw [hset, hread, hnil]
        simp
      simp [hnone, hnil]
    · have hne : body ≠ [] := by
        rintro rfl
        exact hnil (by simpa using hchars)
      obtain ⟨dp, hdp⟩ : ∃ dp, dp = (digitChars sp).map
        fun c => BitVec.ofNat 8 (digitOf (2 ^ bits) c) := ⟨_, rfl⟩
      have hdigit (c : Char) (hc : c ∈ digitChars sp) := ofNat_digitOf hbits (hall c hc)
      have hdpne : dp ≠ [] := by simpa [hdp] using hnil
      obtain ⟨hnormal, hval⟩ := mpnSetStrBits_spec (w := w) hw hpos (by omega) dp (by
        intro d hd
        obtain ⟨c, hc, rfl⟩ := List.mem_map.mp (hdp ▸ hd)
        rw [hdigit c hc]
        exact hall c hc)
      have hdigits : dp.reverse.map BitVec.toNat =
          (digitChars sp).reverse.map (digitOf (2 ^ bits)) := by
        rw [hdp, List.map_reverse, List.map_map, List.map_reverse]
        exact congrArg List.reverse (List.map_congr_left hdigit)
      rw [hset, if_neg hne, hread, ← hdp]
      simp only [if_neg hdpne]
      refine ⟨by simpa [hnil] using hall, ?_⟩
      intro r hr
      have h := holds_of_limbs hnormal (¬ Negative sp)
      rw [hval, hdigits] at h
      rw [← Option.some.inj hr]
      simp only [ite_not] at h
      by_cases hneg : Negative sp
      · simpa [hneg] using h
      · simpa [hneg] using h
  · have hnone : mpzSetStr (w := w) bits sp = none := by
      rw [hset, readDigits_none (hchars ▸ hall)]
      simp
    simp [hnone, hall]

/- A sign, a space among the digits, and more digits than a limb holds. -/
theorem mpzSetStr_eq_hex :
    let sp := " -1f00c0ffee12345678 90ABcdef".toList
    ∃ r : Mpz 64, mpzSetStr 4 sp = some r ∧ r.Holds (-0x1f00c0ffee1234567890abcdef) := by
  intro sp
  have hall : (digitChars sp).all (digitOf (2 ^ 4) · < 2 ^ 4) = true := by decide +kernel
  have hdigits : digitChars sp ≠ [] ∧ ∀ c ∈ digitChars sp, digitOf (2 ^ 4) c < 2 ^ 4 :=
    ⟨by decide, fun c hc => of_decide_eq_true (List.all_eq_true.mp hall c hc)⟩
  have hval : Nat.ofDigits (2 ^ 4) ((digitChars sp).reverse.map (digitOf (2 ^ 4))) =
      0x1f00c0ffee1234567890abcdef := by decide +kernel
  have hneg : Negative sp := by decide
  have h := mpzSetStr_eq (w := 64) ⟨by decide, by decide⟩ 4 (by decide) (by decide) sp
  cases hr : mpzSetStr (w := 64) 4 sp with
  | none => exact absurd hdigits (h.1.mp hr)
  | some r =>
    have hholds := h.2 r hr
    rw [hval, if_pos hneg] at hholds
    exact ⟨r, rfl, by simpa using hholds⟩

end Pobc.MiniGmp
