import Pobc.Mimc.Htmac

/-!
# The buffers of MiMC decryption

The two decryption functions again, with every `read` of the ciphertext and every
`write` to the message entered in a log. A block is unmasked before the tag is checked,
and what is left of a forged one may be a number of 16 bytes, all of which `mpz_export`
writes: one more than a piece of the message has. A byte too many is harmless until the
last block.
-/

namespace Pobc.Mimc
open Pobc.Loop

/-! ### The log -/

/-- Ranges of the input that were read and of the output that were written: offset and
number of bytes. -/
structure Accesses where
  reads : List (ℕ × ℕ)
  writes : List (ℕ × ℕ)

def noAccesses : Accesses := ⟨[], []⟩

/-- How many bytes `write` stores: all of the number, and zeros up to `n`. -/
def writeLen (src : ℤ) (n : ℕ) : ℕ := max (Nat.digits 256 src.natAbs).length n

def readLogged (src : Buffer) (off n : ℕ) (log : Accesses) : ℤ × Accesses :=
  (read src off n, { log with reads := log.reads ++ [(off, n)] })

def writeLogged (dest : Buffer) (off : ℕ) (src : ℤ) (n : ℕ) (log : Accesses) : Buffer × Accesses :=
  (write dest off src n, { log with writes := log.writes ++ [(off, writeLen src n)] })

/-- Every byte of the ranges lies below the limit. -/
def Below (limit : ℕ) (ranges : List (ℕ × ℕ)) : Prop :=
  ∀ x ∈ ranges, ∀ p, x.1 ≤ p → p < x.1 + x.2 → p < limit

/-- The input is read below `clen`, and the output is written below the end of its last
piece. -/
structure InBounds (clen : ℕ) (log : Accesses) : Prop where
  reads : Below clen log.reads
  writes : Below (15 * (clen / 16 - 1)) log.writes

/-! ### PPMAC -/

/-- `decStep` with its accesses to `c` and `m`. -/
def decStepLogged (S : Setup) (c : Buffer) (i : ℕ) (s : DecState × Accesses) :
    DecState × Accesses :=
  let (s, log) := s
  let (element, log) := readLogged c (16 * i) 16 log
  let keystream := mimc128Enc S.key (modAdd s.ctrM S.nonce)
  let keystream := modSub element keystream
  let (m, log) := writeLogged s.m (15 * i) keystream 15 log
  ({ mac := advance S (absorb S element s.mac)
     ctrM := modAdd s.ctrM S.eK1
     m := m }, log)

/-- `ppmacDecrypt` with its accesses to `c` and `m`. -/
def ppmacDecryptLogged (m₀ c : Buffer) (clen : ℕ) (ad : Buffer) (adlen : ℕ) (npub k : Buffer) :
    Decrypted × Accesses :=
  let S := aeadSetup npub k
  let mac := ppmacAd S ad adlen
  let (s, log) := forRange (minus16 clen / 16) (decStepLogged S c) (⟨mac, S.eK1, m₀⟩, noAccesses)
  let tagStart := minus16 clen
  let tagInput := finalizeTag S s.mac
  let (element, log) := readLogged c tagStart 16 log
  (⟨if tagInput = element then 0 else -1, s.m, s.mac.inputs⟩, log)

theorem ppmacDecryptLogged_fst (m₀ c : Buffer) (clen : ℕ) (ad : Buffer) (adlen : ℕ)
    (npub k : Buffer) : (ppmacDecryptLogged m₀ c clen ad adlen npub k).1 =
      ppmacDecrypt m₀ c clen ad adlen npub k := by
  let S := aeadSetup npub k
  let s₀ : DecState := ⟨ppmacAd S ad adlen, S.eK1, m₀⟩
  have hloop : (forRange (minus16 clen / 16) (decStepLogged S c) (s₀, noAccesses)).1 =
      forRange (minus16 clen / 16) (decStep S c) s₀ :=
    forRange_map Prod.fst _ _ (decStep S c) _ fun _ _ => rfl
  simp only [ppmacDecrypt, ← hloop, S, s₀]
  rfl

/-! ### HtMAC -/

/-- `ctrStep` with its accesses to `src` and `dest`. -/
def ctrStepLogged (doEnc : Bool) (src : Buffer) (readLen writeLen : ℕ) (nonce eK1 key : ℤ) (i : ℕ)
    (s : CtrState × Accesses) : CtrState × Accesses :=
  let (s, log) := s
  let (element, log) := readLogged src (readLen * i) readLen log
  let keystream := mimc128Enc key (modAdd s.ctrM nonce)
  let element := if doEnc then modAdd element keystream else modSub element keystream
  let (dest, log) := writeLogged s.dest (writeLen * i) element writeLen log
  ({ ctrM := modAdd s.ctrM eK1
     dest := dest }, log)

/-- `ctr` with its accesses to `src` and `dest`. -/
def ctrLogged (dest src : Buffer) (srcLen : ℕ) (npub : Buffer) (eK1 key : ℤ) (doEnc : Bool) :
    Buffer × Accesses :=
  let readLen := if doEnc then 15 else 16
  let writeLen := if doEnc then 16 else 15
  let nonce := read npub 0 15
  let body := ctrStepLogged doEnc src readLen writeLen nonce eK1 key
  let (s, log) := forRange (srcLen / readLen) body (⟨eK1, dest⟩, noAccesses)
  if doEnc = true ∧ srcLen % readLen ≠ 0 then
    let (element, log) := readLogged src (srcLen - srcLen % readLen) (srcLen % readLen) log
    let keystream := mimc128Enc key (modAdd s.ctrM nonce)
    writeLogged s.dest (writeLen * (srcLen / readLen)) (modAdd element keystream) writeLen log
  else (s.dest, log)

theorem ctrLogged_fst (dest src : Buffer) (srcLen : ℕ) (npub : Buffer) (eK1 key : ℤ)
    (doEnc : Bool) :
    (ctrLogged dest src srcLen npub eK1 key doEnc).1 = ctr dest src srcLen npub eK1 key doEnc := by
  have hloop : ∀ readLen writeLen, (forRange (srcLen / readLen)
      (ctrStepLogged doEnc src readLen writeLen (read npub 0 15) eK1 key)
      (⟨eK1, dest⟩, noAccesses)).1 = forRange (srcLen / readLen)
        (ctrStep doEnc src readLen writeLen (read npub 0 15) eK1 key) ⟨eK1, dest⟩ :=
    fun readLen writeLen => forRange_map Prod.fst _ _
      (ctrStep doEnc src readLen writeLen (read npub 0 15) eK1 key) _ fun _ _ => rfl
  simp only [ctrLogged, ctr, ← hloop, apply_ite Prod.fst]
  rfl

section Modes

variable (blake2s : List Byte → List Byte → Buffer)

/-- `htmacDecrypt` with its accesses to `c` and `m`; the hash is given all of the blocks. -/
def htmacDecryptLogged (m₀ c : Buffer) (clen : ℕ) (ad : Buffer) (adlen : ℕ) (npub k : Buffer) :
    Option (HtmacDecrypted × Accesses) :=
  if clen % 16 ≠ 0 then none
  else
    let key := read k 0 16
    let eK1 := mimc128Enc key 1
    let (m, log) := ctrLogged m₀ c (minus16 clen) npub eK1 key false
    let hashed := hashInput ad adlen c (minus16 clen) (minus16 clen)
    let log := if 0 < minus16 clen then { log with reads := log.reads ++ [(0, minus16 clen)] }
      else log
    let hash := blake2s (bytesOf npub 15) hashed
    let element := htmacTag key eK1 hash
    let (ctrM, log) := readLogged c (minus16 clen) 16 log
    some (⟨if ctrM = element then 0 else -1, m, hashed⟩, log)

theorem htmacDecryptLogged_fst (m₀ c : Buffer) (clen : ℕ) (ad : Buffer) (adlen : ℕ)
    (npub k : Buffer) : (htmacDecryptLogged blake2s m₀ c clen ad adlen npub k).map Prod.fst =
      htmacDecrypt blake2s m₀ c clen ad adlen npub k := by
  unfold htmacDecryptLogged htmacDecrypt
  split
  · rfl
  · simp only [Option.map_some, ← ctrLogged_fst]
    rfl

end Modes

/-! ### The rounds -/

section Rounds

variable (S : Setup) (c : Buffer)

def unmasked (i : ℕ) : ℤ := modSub (read c (16 * i) 16) (keystream S i)

theorem unmasked_nonneg (i : ℕ) : 0 ≤ unmasked S c i := modSub_nonneg _ _

/-- What `n` rounds of either function read and write. -/
def roundLog (n : ℕ) : Accesses :=
  ⟨(List.range n).map fun i => (16 * i, 16),
    (List.range n).map fun i => (15 * i, writeLen (unmasked S c i) 15)⟩

theorem roundLog_succ (n : ℕ) : roundLog S c (n + 1) =
    ⟨(roundLog S c n).reads ++ [(16 * n, 16)],
      (roundLog S c n).writes ++ [(15 * n, writeLen (unmasked S c n) 15)]⟩ := by
  simp only [roundLog, List.range_succ, List.map_append, List.map_singleton]

/- Rounds that each unmask one block add up to this. -/
theorem loopLogged {σ : Type} (ctrM : σ → ℤ) (body : ℕ → σ × Accesses → σ × Accesses) (s : σ)
    (hstart : ctrM s = S.eK1) (hctr : ∀ i t, ctrM (body i t).1 = modAdd (ctrM t.1) S.eK1)
    (hlog : ∀ i t, (body i t).2 = ⟨t.2.reads ++ [(16 * i, 16)],
      t.2.writes ++ [(15 * i, writeLen (modSub (read c (16 * i) 16)
        (mimc128Enc S.key (modAdd (ctrM t.1) S.nonce))) 15)]⟩) (n : ℕ) :
    ctrM (forRange n body (s, noAccesses)).1 = counter S.eK1 n ∧
      (forRange n body (s, noAccesses)).2 = roundLog S c n := by
  induction n with
  | zero => exact ⟨hstart, rfl⟩
  | succ n ih =>
    obtain ⟨hctr', hlog'⟩ := ih
    rw [forRange_succ, hctr, hlog, roundLog_succ, hctr', hlog', unmasked, keystream, counter_succ]
    exact ⟨rfl, rfl⟩

theorem decLoopLogged (m₀ : Buffer) (mac : MacState) (n : ℕ) :
    let s := forRange n (decStepLogged S c) (⟨mac, S.eK1, m₀⟩, noAccesses)
    s.1.ctrM = counter S.eK1 n ∧ s.2 = roundLog S c n :=
  loopLogged S c DecState.ctrM (decStepLogged S c) ⟨mac, S.eK1, m₀⟩ rfl (fun _ _ => rfl)
    (fun _ _ => rfl) n

theorem ctrLoopLogged (m₀ npub k : Buffer) (n : ℕ) :
    let S := aeadSetup npub k
    let s := forRange n (ctrStepLogged false c 16 15 (read npub 0 15) S.eK1 S.key)
      (⟨S.eK1, m₀⟩, noAccesses)
    s.1.ctrM = counter S.eK1 n ∧ s.2 = roundLog S c n := by
  intro S
  exact loopLogged S c CtrState.ctrM (ctrStepLogged false c 16 15 (read npub 0 15) S.eK1 S.key)
    ⟨S.eK1, m₀⟩ rfl (fun _ _ => rfl) (fun _ _ => rfl) n

/- A block that unmasks to more than a piece takes one byte more. -/
theorem writeLen_le_iff (x : ℤ) (hx : 0 ≤ x) : writeLen x 15 ≤ 15 ↔ x < 256^15 := by
  have hdigits : (Nat.digits 256 x.natAbs).length ≤ 15 ↔ x.natAbs < 256^15 :=
    Nat.digits_length_le_iff (by decide) _
  unfold writeLen
  omega

theorem writeLen_unmasked_le (i : ℕ) : writeLen (unmasked S c i) 15 ≤ 16 := by
  have hfits : (unmasked S c i).natAbs < 256^16 :=
    natAbs_lt_of_lt_prime _ (unmasked_nonneg S c i) (Int.emod_lt_of_pos _ prime_pos)
  have hdigits : (Nat.digits 256 (unmasked S c i).natAbs).length ≤ 16 :=
    (Nat.digits_length_le_iff (by decide) _).mpr hfits
  unfold writeLen
  omega

theorem below_reads (n limit : ℕ) (h : 16 * n ≤ limit) : Below limit (roundLog S c n).reads := by
  intro x hx p _ hp
  obtain ⟨i, hi, rfl⟩ := List.mem_map.mp hx
  have hlt := List.mem_range.mp hi
  simp only at hp
  omega

/- The byte too many of a block is the first one of the next piece, if there is one. -/
theorem below_writes_iff (n : ℕ) : Below (15 * (n + 1)) (roundLog S c (n + 1)).writes ↔
    unmasked S c n < 256^15 := by
  rw [← writeLen_le_iff _ (unmasked_nonneg S c n)]
  constructor
  · intro h
    by_contra hlong
    have hmem : (15 * n, writeLen (unmasked S c n) 15) ∈ (roundLog S c (n + 1)).writes :=
      List.mem_map.mpr ⟨n, List.mem_range.mpr (Nat.lt_succ_self n), rfl⟩
    have hlast := h _ hmem (15 * n + 15) (Nat.le_add_right _ _) (by simp only; omega)
    omega
  · intro hlast x hx p _ hp
    obtain ⟨i, hi, rfl⟩ := List.mem_map.mp hx
    have hlen := writeLen_unmasked_le S c i
    simp only at hp
    rcases Nat.lt_succ_iff_lt_or_eq.mp (List.mem_range.mp hi) with hlt | rfl
    · omega
    · omega

/- In terms of the block: it is what encryption makes of some piece, up to the prime. -/
theorem unmasked_lt_iff (i : ℕ) : unmasked S c i < 256^15 ↔
    ∃ x, 0 ≤ x ∧ x < 256^15 ∧ read c (16 * i) 16 % prime = modAdd x (keystream S i) := by
  have hle : (256 : ℤ)^15 ≤ prime := by decide
  have hmod : ∀ x, read c (16 * i) 16 % prime = modAdd x (keystream S i) ↔
      unmasked S c i = x % prime := by
    intro x
    unfold unmasked modSub modAdd prime
    omega
  constructor
  · intro h
    have hnonneg := unmasked_nonneg S c i
    refine ⟨unmasked S c i, hnonneg, h, (hmod _).mpr ?_⟩
    exact (Int.emod_eq_of_lt hnonneg (by omega)).symm
  · rintro ⟨x, hx, hlt, heq⟩
    rwa [(hmod x).mp heq, Int.emod_eq_of_lt hx (by omega)]

end Rounds

/-! ### Whole runs -/

/-- There is a tag, and the block before it, if there is one, is up to the prime what
encryption makes of some piece at its place. -/
def LastBlockFits (S : Setup) (c : Buffer) (clen : ℕ) : Prop :=
  16 ≤ clen ∧ (32 ≤ clen → ∃ x, 0 ≤ x ∧ x < 256^15 ∧
    read c (clen - 32) 16 % prime = modAdd x (keystream S (clen / 16 - 2)))

section Runs

variable (S : Setup) (c : Buffer)

theorem below_append (limit : ℕ) (l l' : List (ℕ × ℕ)) (hl : Below limit l)
    (hl' : Below limit l') : Below limit (l ++ l') := by
  intro x hx
  rcases List.mem_append.mp hx with h | h
  · exact hl x h
  · exact hl' x h

theorem inBounds_of_tag_iff (n : ℕ) (reads : List (ℕ × ℕ)) (hreads : Below (16 * n + 16) reads) :
    InBounds (16 * n + 16) ⟨reads, (roundLog S c n).writes⟩ ↔
      LastBlockFits S c (16 * n + 16) := by
  have hlimit : (16 * n + 16) / 16 - 1 = n := by omega
  cases n with
  | zero =>
    refine iff_of_true ⟨hreads, ?_⟩ ⟨Nat.le_refl _, fun h => ?_⟩
    · exact fun x hx => absurd hx List.not_mem_nil
    · omega
  | succ n =>
    have hoff : 16 * (n + 1) + 16 - 32 = 16 * n := by omega
    have hindex : (16 * (n + 1) + 16) / 16 - 2 = n := by omega
    have hlast := (below_writes_iff S c n).trans (unmasked_lt_iff S c n)
    constructor
    · intro h
      have hbelow := h.writes
      rw [hlimit, hlast] at hbelow
      refine ⟨by omega, fun _ => ?_⟩
      rwa [hoff, hindex]
    · rintro ⟨_, hfits⟩
      refine ⟨hreads, ?_⟩
      have hpiece := hfits (by omega)
      rw [hoff, hindex, ← hlast] at hpiece
      rwa [hlimit]

/- A run reads its blocks and whatever `rest` is; without a tag it reads blocks that are not
there. -/
theorem inBounds_iff (clen : ℕ) (rest : List (ℕ × ℕ)) (hclen : clen % 16 = 0)
    (hrest : 16 ≤ clen → Below clen rest) :
    let n := minus16 clen / 16
    InBounds clen ⟨(roundLog S c n).reads ++ rest, (roundLog S c n).writes⟩ ↔
      LastBlockFits S c clen := by
  intro n
  rcases Nat.eq_zero_or_pos clen with rfl | hpos
  · have hn : 0 < n := by
      show 0 < minus16 0 / 16
      decide
    clear_value n
    have hread : (0, 16) ∈ (roundLog S c n).reads :=
      List.mem_map.mpr ⟨0, List.mem_range.mpr hn, rfl⟩
    refine iff_of_false (fun h => ?_) fun h => absurd h.1 (by decide)
    exact Nat.not_lt_zero 0 (h.reads _ (List.mem_append_left _ hread) 0 (Nat.le_refl 0) (by decide))
  · obtain ⟨t, rfl⟩ : ∃ t, clen = 16 * t + 16 := ⟨clen / 16 - 1, by omega⟩
    have hn : n = t := by
      show minus16 (16 * t + 16) / 16 = t
      rw [minus16_add, Nat.mul_div_cancel_left t (by decide)]
    rw [hn]
    exact inBounds_of_tag_iff S c t _
      (below_append _ _ _ (below_reads S c t _ (by omega)) (hrest (by omega)))

end Runs

section Functions

variable (m₀ c : Buffer) (clen : ℕ) (ad : Buffer) (adlen : ℕ) (npub k : Buffer)

theorem ppmacDecryptLogged_log : (ppmacDecryptLogged m₀ c clen ad adlen npub k).2 =
    ⟨(roundLog (aeadSetup npub k) c (minus16 clen / 16)).reads ++ [(minus16 clen, 16)],
      (roundLog (aeadSetup npub k) c (minus16 clen / 16)).writes⟩ := by
  let S := aeadSetup npub k
  have hloop := (decLoopLogged S c m₀ (ppmacAd S ad adlen) (minus16 clen / 16)).2
  rw [← hloop]
  rfl

theorem htmacDecryptLogged_log (blake2s : List Byte → List Byte → Buffer) (hclen : clen % 16 = 0) :
    (htmacDecryptLogged blake2s m₀ c clen ad adlen npub k).map Prod.snd =
    some ⟨(roundLog (aeadSetup npub k) c (minus16 clen / 16)).reads ++
        (if 0 < minus16 clen then [(0, minus16 clen)] else []) ++ [(minus16 clen, 16)],
      (roundLog (aeadSetup npub k) c (minus16 clen / 16)).writes⟩ := by
  let S := aeadSetup npub k
  have hloop := (ctrLoopLogged c m₀ npub k (minus16 clen / 16)).2
  have hctr : (ctrLogged m₀ c (minus16 clen) npub S.eK1 S.key false).2 =
      roundLog S c (minus16 clen / 16) := by
    rw [← hloop]
    simp only [ctrLogged, Bool.false_eq_true, if_false, false_and]
    rfl
  have hassert : ¬ clen % 16 ≠ 0 := not_not.mpr hclen
  rw [← hctr, htmacDecryptLogged, if_neg hassert, Option.map_some]
  by_cases hpos : 0 < minus16 clen
  · simp only [if_pos hpos]
    rfl
  · simp only [if_neg hpos, List.append_nil]
    rfl

theorem below_tag (h : 16 ≤ clen) : Below clen [(minus16 clen, 16)] := by
  intro x hx p _ hp
  rw [List.mem_singleton.mp hx, minus16, if_pos h] at hp
  omega

theorem ppmacDecrypt_inBounds_iff (hclen : clen % 16 = 0) :
    InBounds clen (ppmacDecryptLogged m₀ c clen ad adlen npub k).2 ↔
      LastBlockFits (aeadSetup npub k) c clen := by
  rw [ppmacDecryptLogged_log]
  exact inBounds_iff _ c clen _ hclen (below_tag clen)

theorem htmacDecrypt_inBounds_iff (blake2s : List Byte → List Byte → Buffer)
    (hclen : clen % 16 = 0) :
    ∃ out log, htmacDecryptLogged blake2s m₀ c clen ad adlen npub k = some (out, log) ∧
      (InBounds clen log ↔ LastBlockFits (aeadSetup npub k) c clen) := by
  have hhash : 16 ≤ clen → Below clen (if 0 < minus16 clen then [(0, minus16 clen)] else []) := by
    intro h x hx p _ hp
    split_ifs at hx with hpos
    · rw [List.mem_singleton.mp hx, minus16, if_pos h] at hp
      omega
    · exact absurd hx List.not_mem_nil
  have hlog := htmacDecryptLogged_log m₀ c clen ad adlen npub k blake2s hclen
  obtain ⟨⟨out, log⟩, hrun, hsnd⟩ := Option.map_eq_some_iff.mp hlog
  refine ⟨out, log, hrun, ?_⟩
  simp only at hsnd
  rw [hsnd, List.append_assoc]
  exact inBounds_iff _ c clen _ hclen fun h => below_append _ _ _ (hhash h) (below_tag clen h)

end Functions

/-- For every input either function stays inside both buffers exactly when
`LastBlockFits` holds. -/
theorem mimc_decrypt_inBounds_iff (blake2s : List Byte → List Byte → Buffer) (m₀ c : Buffer)
    (clen : ℕ) (ad : Buffer) (adlen : ℕ) (npub k : Buffer) (hclen : clen % 16 = 0) :
    (InBounds clen (ppmacDecryptLogged m₀ c clen ad adlen npub k).2 ↔
      LastBlockFits (aeadSetup npub k) c clen) ∧
    ∃ out log, htmacDecryptLogged blake2s m₀ c clen ad adlen npub k = some (out, log) ∧
      (InBounds clen log ↔ LastBlockFits (aeadSetup npub k) c clen) :=
  ⟨ppmacDecrypt_inBounds_iff m₀ c clen ad adlen npub k hclen,
    htmacDecrypt_inBounds_iff m₀ c clen ad adlen npub k blake2s hclen⟩

theorem mimc_decrypt_inBounds_iff_example :
    let zero : Buffer := fun _ => 0
    (InBounds 32 (ppmacDecryptLogged zero zero 32 zero 0 zero zero).2 ↔
      LastBlockFits (aeadSetup zero zero) zero 32) ∧
    ∃ out log, htmacDecryptLogged (fun _ _ => zero) zero zero 32 zero 0 zero zero =
        some (out, log) ∧ (InBounds 32 log ↔ LastBlockFits (aeadSetup zero zero) zero 32) :=
  mimc_decrypt_inBounds_iff _ _ _ 32 _ 0 _ _ rfl

/- 32 zero bytes under the zero key and nonce: the block unmasks to 16 bytes. With no
bytes at all, not even the tag is there. -/
theorem mimc_decrypt_out_of_bounds :
    let zero : Buffer := fun _ => 0
    ∀ clen ∈ [0, 32], ¬ InBounds clen (ppmacDecryptLogged zero zero clen zero 0 zero zero).2 ∧
      ∃ out log, htmacDecryptLogged (fun _ _ => zero) zero zero clen zero 0 zero zero =
        some (out, log) ∧ ¬ InBounds clen log := by
  intro zero clen hclen
  have hunfit : ¬ LastBlockFits (aeadSetup zero zero) zero clen := by
    intro h
    simp only [List.mem_cons, List.not_mem_nil, or_false] at hclen
    rcases hclen with rfl | rfl
    · exact absurd h.1 (by decide)
    · have hlong : ¬ unmasked (aeadSetup zero zero) zero 0 < 256^15 := by decide +kernel
      exact hlong ((unmasked_lt_iff _ _ 0).mpr (h.2 (Nat.le_refl 32)))
  have hmod : clen % 16 = 0 := by
    simp only [List.mem_cons, List.not_mem_nil, or_false] at hclen
    omega
  have hppmac := ppmacDecrypt_inBounds_iff zero zero clen zero 0 zero zero hmod
  obtain ⟨out, log, hrun, hhtmac⟩ :=
    htmacDecrypt_inBounds_iff zero zero clen zero 0 zero zero (fun _ _ => zero) hmod
  exact ⟨fun h => hunfit (hppmac.mp h), out, log, hrun, fun h => hunfit (hhtmac.mp h)⟩

end Pobc.Mimc
