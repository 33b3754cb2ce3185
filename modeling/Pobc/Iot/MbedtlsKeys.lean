import Pobc.Iot.MbedtlsTables

/-!
# The key schedules of mbedTLS

A key set-up writes the words of the key and then `nk` words a round. Byte by byte the
words are the schedule of FIPS-197, for the three key sizes.
-/

namespace Pobc.MbedtlsAes
open Pobc.Loop Pobc.Iot
open Pobc.Aes (sbox invSbox word rcon subWord rotWord IsSchedule scheduleWordOf)

/-! ### Rounds -/

/-- What word `j` of round `i` adds, `temp` being the word before it. -/
def addend (t : Tables) (nk i j : ℕ) (temp : Word) : Word :=
  if j = 0 then t.RCON i ^^^ subBytesFrom t.FSb 1 temp
  else if 6 < nk ∧ j = 4 then subBytesFrom t.FSb 0 temp
  else temp

/-- Round `i` writes `nk` words behind those it finds. -/
structure RoundSpec (t : Tables) (nk i : ℕ) (buf buf' : ℕ → Word) : Prop where
  kept : ∀ k < nk * i + nk, buf' k = buf k
  written : ∀ j < nk, buf' (nk * i + nk + j) =
    buf' (nk * i + j) ^^^ addend t nk i j (buf' (nk * i + nk + j - 1))

theorem round128_spec (t : Tables) (i : ℕ) (buf : ℕ → Word) :
    RoundSpec t 4 i buf (round128 t i buf) where
  kept k hk := by
    simp only [round128, Function.update_apply]
    rw [if_neg (by omega), if_neg (by omega), if_neg (by omega), if_neg (by omega)]
  written j hj := by
    have hcases : j = 0 ∨ j = 1 ∨ j = 2 ∨ j = 3 := by omega
    rcases hcases with rfl | rfl | rfl | rfl <;>
      simp [round128, addend, BitVec.xor_assoc]

theorem round192_spec (t : Tables) (i : ℕ) (buf : ℕ → Word) :
    RoundSpec t 6 i buf (round192 t i buf) where
  kept k hk := by
    simp only [round192, Function.update_apply]
    rw [if_neg (by omega), if_neg (by omega), if_neg (by omega), if_neg (by omega),
      if_neg (by omega), if_neg (by omega)]
  written j hj := by
    have hcases : j = 0 ∨ j = 1 ∨ j = 2 ∨ j = 3 ∨ j = 4 ∨ j = 5 := by omega
    rcases hcases with rfl | rfl | rfl | rfl | rfl | rfl <;>
      simp [round192, addend, BitVec.xor_assoc]

theorem round256_spec (t : Tables) (i : ℕ) (buf : ℕ → Word) :
    RoundSpec t 8 i buf (round256 t i buf) where
  kept k hk := by
    simp only [round256, Function.update_apply]
    rw [if_neg (by omega), if_neg (by omega), if_neg (by omega), if_neg (by omega),
      if_neg (by omega), if_neg (by omega), if_neg (by omega), if_neg (by omega)]
  written j hj := by
    have hcases : j = 0 ∨ j = 1 ∨ j = 2 ∨ j = 3 ∨ j = 4 ∨ j = 5 ∨ j = 6 ∨ j = 7 := by omega
    rcases hcases with rfl | rfl | rfl | rfl | rfl | rfl | rfl | rfl <;>
      simp [round256, addend, BitVec.xor_assoc]

/-- The words after `n` rounds. -/
structure RunSpec (t : Tables) (nk n : ℕ) (buf buf' : ℕ → Word) : Prop where
  kept : ∀ k < nk, buf' k = buf k
  written : ∀ i < n, ∀ j < nk, buf' (nk * i + nk + j) =
    buf' (nk * i + j) ^^^ addend t nk i j (buf' (nk * i + nk + j - 1))

/- Later rounds leave the words of a round alone. -/
theorem runSpec_forRange (t : Tables) (nk : ℕ) (hnk : 0 < nk)
    (round : ℕ → (ℕ → Word) → ℕ → Word) (hround : ∀ i buf, RoundSpec t nk i buf (round i buf))
    (n : ℕ) (buf : ℕ → Word) : RunSpec t nk n buf (forRange n round buf) := by
  refine forRange_inv (fun n buf' => RunSpec t nk n buf buf') n round buf
    ⟨fun _ _ => rfl, fun i hi => absurd hi (Nat.not_lt_zero i)⟩ fun n _ buf' h => ?_
  have hstep := hround n buf'
  refine ⟨fun k hk => ?_, fun i hi j hj => ?_⟩
  · rw [hstep.kept k (by omega), h.kept k hk]
  · rcases Nat.lt_or_ge i n with hlt | hge
    · have hbelow : nk * i + nk ≤ nk * n := by
        rw [← Nat.mul_succ]
        exact Nat.mul_le_mul_left nk hlt
      rw [hstep.kept _ (by omega), hstep.kept _ (by omega), hstep.kept _ (by omega), h.written i hlt j hj]
    · have hin : i = n := by omega
      rw [hin]
      exact hstep.written j hj

/-! ### Bytes -/

/-- The bytes of the words, lowest byte first. -/
def scheduleBytes (buf : ℕ → Word) (p : ℕ) : Byte := wordByte (p % 4) (buf (p / 4))

theorem word_scheduleBytes (buf : ℕ → Word) (i : ℕ) :
    word (scheduleBytes buf) i = fun j : Fin 4 => wordByte j (buf i) := by
  funext j
  have hj := j.isLt
  have hdiv : (4 * i + j.val) / 4 = i := by omega
  have hmod : (4 * i + j.val) % 4 = j.val := by omega
  rw [word, scheduleBytes, hdiv, hmod]

theorem wordByte_bufferWord (data : Buffer) (offset r : ℕ) (hr : r < 4) :
    wordByte r (bufferWord data offset) = data (offset + r) := by
  have hhigh : ∀ (b : Byte) (k : ℕ), 8 ≤ k → b.getLsbD k = false := fun b k hk =>
    BitVec.getLsbD_of_ge b k hk
  have hcases : r = 0 ∨ r = 1 ∨ r = 2 ∨ r = 3 := by omega
  apply BitVec.eq_of_getLsbD_eq
  intro i hi
  rw [getLsbD_wordByte _ _ _ hi]
  simp only [bufferWord, BitVec.getLsbD_or, BitVec.getLsbD_shiftLeft, BitVec.getLsbD_setWidth]
  rcases hcases with rfl | rfl | rfl | rfl
  · grind
  · grind
  · grind
  · grind

theorem subBytesFrom_eq (t : Tables) (ht : Correct t) (k : ℕ) (x : Word) :
    subBytesFrom t.FSb k x = wordOf fun j => sbox (wordByte ((k + j) % 4) x) := by
  simp only [subBytesFrom, ht.fsb]
  rfl

/- Byte `j` of what a word adds. -/
theorem wordByte_addend (t : Tables) (ht : Correct t) (nk i j : ℕ) (hi : i < 10) (hj : j < nk)
    (buf : ℕ → Word) : (fun r : Fin 4 => wordByte r
      (addend t nk i j (buf (nk * i + nk + j - 1)))) =
      scheduleWordOf nk (scheduleBytes buf) (nk * i + nk + j) := by
  have hmod : (nk * i + nk + j) % nk = j := by
    rw [← Nat.mul_succ, Nat.mul_add_mod, Nat.mod_eq_of_lt hj]
  have hdiv : (nk * i + nk + j) / nk = i + 1 := by
    rw [← Nat.mul_succ, Nat.mul_add_div (by omega), Nat.div_eq_of_lt hj, Nat.add_zero]
  rw [scheduleWordOf, hmod, hdiv, word_scheduleBytes, addend]
  by_cases hj0 : j = 0
  · rw [if_pos hj0, if_pos hj0]
    funext r
    rw [wordByte_xor, subBytesFrom_eq t ht, wordByte_wordOf, ht.rcon i hi, BitVec.xor_comm]
    congr 1
    · have hrot : (1 + r.val) % 4 = (r + 1 : Fin 4).val := by
        rw [Nat.add_comm]
        rfl
      rw [hrot]
      rfl
    · rw [rcon, Nat.add_sub_cancel]
      have hword : (Aes.xtime^[i] 1).setWidth 32 = wordOf ![Aes.xtime^[i] 1, 0, 0, 0] := by
        generalize Aes.xtime^[i] 1 = b
        simp [wordOf]
      rw [hword, wordByte_wordOf]
      fin_cases r <;> rfl
  · rw [if_neg hj0, if_neg hj0]
    by_cases h8 : 6 < nk ∧ j = 4
    · rw [if_pos h8, if_pos h8, subBytesFrom_eq t ht]
      funext r
      have hr := r.isLt
      have hmod : (0 + r.val) % 4 = r.val := by omega
      rw [wordByte_wordOf, hmod]
      rfl
    · rw [if_neg h8, if_neg h8]

/- The words of a run are a schedule of FIPS-197. -/
theorem isSchedule_of_runSpec (t : Tables) (ht : Correct t) (nk nr n : ℕ) (hnk : 0 < nk)
    (hn : n ≤ 10) (hlast : 4 * (nr + 1) ≤ nk * n + nk) (key : Buffer) (buf buf' : ℕ → Word)
    (hkey : ∀ i < nk, buf i = bufferWord key (4 * i)) (hrun : RunSpec t nk n buf buf') :
    IsSchedule nk nr key (scheduleBytes buf') where
  key p hp := by
    have hpos : 4 * (p / 4) + p % 4 = p := by omega
    rw [scheduleBytes, hrun.kept _ (by omega), hkey _ (by omega),
      wordByte_bufferWord _ _ _ (Nat.mod_lt p (by decide)), hpos]
  step k hlow hhigh := by
    obtain ⟨q, rfl⟩ : ∃ q, k = q + nk := ⟨k - nk, by omega⟩
    have hsplit : nk * (q / nk) + q % nk = q := Nat.div_add_mod q nk
    have hi : q / nk < n := by
      rw [Nat.div_lt_iff_lt_mul hnk, Nat.mul_comm]
      omega
    have hj := Nat.mod_lt q hnk
    have hpos : nk * (q / nk) + nk + q % nk = q + nk := by omega
    have hprev : q + nk - nk = q := Nat.add_sub_cancel q nk
    have hword := hrun.written (q / nk) hi (q % nk) hj
    have hadd := wordByte_addend t ht nk (q / nk) (q % nk) (by omega) hj buf'
    rw [hpos, hsplit] at hword
    rw [hpos] at hadd
    rw [hprev, ← hadd, word_scheduleBytes, word_scheduleBytes, hword]
    funext r
    exact wordByte_xor r _ _

/-! ### `mbedtls_aes_setkey_enc` -/

/-- The tables are right once they are marked as computed. -/
def Ready (g : Statics) : Prop := g.aesInitDone ≠ 0 → Correct g.tables

/-- A context with the round keys of a key of `nk` words. -/
structure Encrypts (nk : ℕ) (key : Buffer) (ctx : Context) : Prop where
  nr : ctx.nr = nk + 6
  rkOffset : ctx.rkOffset = 0
  schedule : IsSchedule nk (nk + 6) key (scheduleBytes ctx.buf)

structure SetkeyEncSpec (nk : ℕ) (key : Buffer) (out : Setkey) : Prop where
  ret : out.ret = 0
  done : out.statics.aesInitDone ≠ 0
  correct : Correct out.statics.tables
  ctx : Encrypts nk key out.ctx

theorem correct_of_ready (pow₀ log₀ : ℕ → ℕ) (g : Statics) (hg : Ready g) :
    let g' := if g.aesInitDone = 0 then ⟨1, aesGenTables pow₀ log₀ g.tables⟩ else g
    g'.aesInitDone ≠ 0 ∧ Correct g'.tables := by
  intro g'
  by_cases hdone : g.aesInitDone = 0
  · have hg' : g' = ⟨1, aesGenTables pow₀ log₀ g.tables⟩ := if_pos hdone
    rw [hg']
    exact ⟨Nat.one_ne_zero, correct_aesGenTables pow₀ log₀ g.tables⟩
  · have hg' : g' = g := if_neg hdone
    rw [hg']
    exact ⟨hdone, hg hdone⟩

theorem loadedKey (key : Buffer) (n : ℕ) (buf : ℕ → Word) (i : ℕ) (hi : i < n) :
    forRange n (fun i buf => Function.update buf i (bufferWord key (i <<< 2))) buf i =
      bufferWord key (4 * i) := by
  have hword := forRange_update n (fun i _ => bufferWord key (i <<< 2)) buf i
  rw [hword, if_pos hi, Nat.shiftLeft_eq, Nat.mul_comm]

theorem setkeyEnc_spec (pow₀ log₀ : ℕ → ℕ) (g : Statics) (hg : Ready g) (ctx : Context)
    (key : Buffer) (nk : ℕ) (hnk : nk = 4 ∨ nk = 6 ∨ nk = 8) :
    SetkeyEncSpec nk key (setkeyEnc pow₀ log₀ g ctx key (32 * nk)) := by
  obtain ⟨hdone, ht⟩ := correct_of_ready pow₀ log₀ g hg
  let t := (if g.aesInitDone = 0 then ⟨1, aesGenTables pow₀ log₀ g.tables⟩ else g).tables
  let buf (n : ℕ) := forRange n
    (fun i buf => Function.update buf i (bufferWord key (i <<< 2))) ctx.buf
  have hkey : ∀ n, ∀ i < n, buf n i = bufferWord key (4 * i) := fun n i hi =>
    loadedKey key n ctx.buf i hi
  rcases hnk with rfl | rfl | rfl
  · have hrun := runSpec_forRange t 4 (by decide) (round128 t) (round128_spec t) 10 (buf 4)
    exact ⟨rfl, hdone, ht, rfl, rfl, isSchedule_of_runSpec t ht 4 10 10 (by decide) (by decide)
      (by decide) key _ _ (hkey 4) hrun⟩
  · have hrun := runSpec_forRange t 6 (by decide) (round192 t) (round192_spec t) 8 (buf 6)
    exact ⟨rfl, hdone, ht, rfl, rfl, isSchedule_of_runSpec t ht 6 12 8 (by decide) (by decide)
      (by decide) key _ _ (hkey 6) hrun⟩
  · have hrun := runSpec_forRange t 8 (by decide) (round256 t) (round256_spec t) 7 (buf 8)
    exact ⟨rfl, hdone, ht, rfl, rfl, isSchedule_of_runSpec t ht 8 14 7 (by decide) (by decide)
      (by decide) key _ _ (hkey 8) hrun⟩

end Pobc.MbedtlsAes
