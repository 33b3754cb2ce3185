import Pobc.Mpc.AesPobcSiv

/-!
# Where keystream and tag of AES-POBC-SIV meet (`MPC/code/aes_pobc_siv.py`)

The keystream pass counts in the last four cells of a block and the tag pass in the
first four, so a nonce can look like a counter of the tag pass and a chunk of the
message like the rest of the keystream block. One chunk can be met, the one whose
counter the nonce spells; what is met in it is free unless it is the padded end.
-/

namespace Pobc.Mpc
open Pobc.Aes Pobc.Mode

/-- Row `i` of `temp_c`. -/
def ctrRow (memory : MultiArray) (nonce : Nonce) (mBlocks i : ℕ) : Fin 16 → Gf2n :=
  fun j => (ctrWrites mBlocks fun j => raw (nonce j)).foldl assign memory i j

/-- Row `i` of `temp_t`. -/
def tagRow (memory : MultiArray) (len : ℕ) (message : List Gf2n) (i : ℕ) : Fin 16 → Gf2n :=
  fun j => (tagWrites 0 len message).foldl assign memory i j

/-- No input of the keystream pass is an input of the tag pass, embedded as they enter the
cipher. -/
def NeverMeet (memoryC memoryT : MultiArray) (r : Run) (key : Block) (nonce : Nonce) (tag : Block)
    (c : List Byte) : Prop :=
  let message := (aesPobcSiv128Decrypt memoryC memoryT (c.map raw) (rawBlock tag) (rawBlock key)
    (fun j => raw (nonce j)) r).1.2
  ∀ i < (c.length + 15) / 16, ∀ i' < message.length / 12 + 1,
    secretArrayEmbedd (ctrRow memoryC nonce ((c.length + 15) / 16) i) ≠
      secretArrayEmbedd (tagRow memoryT c.length message i')

/-! ### The two families -/

theorem embBlock_injective : Function.Injective embBlock := by
  intro x y h
  funext j
  exact emb_injective (congrFun h j)

/- The blocks behind the cells: the message only counts with its low bytes. -/
theorem neverMeet_iff_blocks (memoryC memoryT : MultiArray) (r : Run) (key : Block) (nonce : Nonce)
    (tag : Block) (c : List Byte) : NeverMeet memoryC memoryT r key nonce tag c ↔
      ∀ i < (c.length + 15) / 16, ∀ i' < chunkCount c.length, nonceCtrBlock nonce i ≠
        ctrBlock (2^31 + i') (chunk (lowMessage (sivStream (aes128 key) nonce) c) i') := by
  let message := mixedStream (sivStream (aes128 key) nonce) c
  have hlen : message.length = c.length := length_mixedStream _ c
  have hctr : ∀ i < (c.length + 15) / 16,
      (fun j : Fin 16 => lowByte (ctrRow memoryC nonce ((c.length + 15) / 16) i j)) =
        nonceCtrBlock nonce i := fun i hi => lowByte_ctrArray memoryC _ nonce i hi
  have htag : ∀ i < chunkCount c.length,
      (fun j : Fin 16 => lowByte (tagRow memoryT c.length message i j)) =
        ctrBlock (2^31 + i) (chunk (lowMessage (sivStream (aes128 key) nonce) c) i) := by
    intro i hi
    have h := lowByte_tagArray memoryT message i (by rwa [hlen])
    rwa [hlen, map_lowByte_mixedStream] at h
  simp only [NeverMeet]
  rw [aesPobcSiv128Decrypt_returns memoryC memoryT key nonce tag c r]
  show (∀ i < (c.length + 15) / 16, ∀ i' < message.length / 12 + 1, _) ↔ _
  rw [hlen]
  refine forall_congr' fun i => forall_congr' fun hi => forall_congr' fun i' =>
    forall_congr' fun hi' => not_congr ?_
  rw [secretArrayEmbedd_eq, secretArrayEmbedd_eq, embBlock_injective.eq_iff, hctr i hi]
  show nonceCtrBlock nonce i =
    (fun j : Fin 16 => lowByte (tagRow memoryT c.length message i' j)) ↔ _
  rw [htag i' hi']

/- Every string is the recovered message of some ciphertext. -/
theorem forall_lowMessage_iff (ks : ℕ → Byte) (n : ℕ) (P : List Byte → Prop) :
    (∀ c : List Byte, c.length = n → P (lowMessage ks c)) ↔
      ∀ m : List Byte, m.length = n → P m := by
  constructor
  · intro h m hm
    have hback : lowMessage ks (lowMessage ks m) = m := xorStream_xorStream _ m
    rw [← hback]
    exact h (lowMessage ks m) ((length_xorStream _ m).trans hm)
  · intro h c hc
    exact h (lowMessage ks c) ((length_xorStream _ c).trans hc)

/-! ### One block of each family -/

/-- The first four bytes of the nonce as a big-endian number. -/
def nonceHead (nonce : Nonce) : ℕ :=
  (tailOf nonce 0).toNat * 2^24 + (tailOf nonce 1).toNat * 2^16 + (tailOf nonce 2).toNat * 2^8 +
    (tailOf nonce 3).toNat

/-- What stands behind the first four bytes of keystream input `i`. -/
def ctrTail (nonce : Nonce) (i j : ℕ) : Byte :=
  if j < 8 then tailOf nonce (4 + j) else beByte i (j - 8)

theorem nonceHead_lt (nonce : Nonce) : nonceHead nonce < 2^32 := by
  have h0 := (tailOf nonce 0).isLt
  have h1 := (tailOf nonce 1).isLt
  have h2 := (tailOf nonce 2).isLt
  have h3 := (tailOf nonce 3).isLt
  rw [nonceHead]
  omega

theorem beByte_nonceHead (nonce : Nonce) (j : ℕ) (hj : j < 4) :
    beByte (nonceHead nonce) j = tailOf nonce j := by
  have h0 := (tailOf nonce 0).isLt
  have h1 := (tailOf nonce 1).isLt
  have h2 := (tailOf nonce 2).isLt
  have h3 := (tailOf nonce 3).isLt
  have hcases : j = 0 ∨ j = 1 ∨ j = 2 ∨ j = 3 := by omega
  apply BitVec.eq_of_toNat_eq
  rw [beByte, BitVec.toNat_ofNat, nonceHead]
  rcases hcases with rfl | rfl | rfl | rfl <;> omega

theorem nonceCtrBlock_eq (nonce : Nonce) (i : ℕ) :
    nonceCtrBlock nonce i = ctrBlock (nonceHead nonce) (ctrTail nonce i) := by
  funext j
  rw [nonceCtrBlock, ctrBlock]
  by_cases h4 : j.val < 4
  · have h12 : j.val < 12 := by omega
    rw [if_pos h4, if_pos h12, beByte_nonceHead nonce j.val h4]
  · rw [if_neg h4, ctrTail]
    by_cases h12 : j.val < 12
    · have h8 : j.val - 4 < 8 := by omega
      have hpos : 4 + (j.val - 4) = j.val := by omega
      rw [if_pos h12, if_pos h8, hpos]
    · have h8 : ¬ j.val - 4 < 8 := by omega
      have hpos : j.val - 4 - 8 = j.val - 12 := by omega
      rw [if_neg h12, if_neg h8, hpos]

/-- The only chunk that a nonce can meet. -/
def meetingChunk (nonce : Nonce) : ℕ := (nonceHead nonce + 2^31) % 2^32

theorem ctrBlock_wrap (n : ℕ) (tail : ℕ → Byte) : ctrBlock n tail = ctrBlock (n % 2^32) tail := by
  funext j
  rw [ctrBlock, ctrBlock, beByte_mod]

theorem meet_iff (nonce : Nonce) (i i' : ℕ) (hi' : i' < 2^32) (tail : ℕ → Byte) :
    nonceCtrBlock nonce i = ctrBlock (2^31 + i') tail ↔
      i' = meetingChunk nonce ∧ ∀ j < 12, tail j = ctrTail nonce i j := by
  have hhead := nonceHead_lt nonce
  have hcounter : nonceHead nonce = (2^31 + i') % 2^32 ↔ i' = meetingChunk nonce := by
    rw [meetingChunk]
    omega
  rw [nonceCtrBlock_eq, ctrBlock_wrap (2^31 + i'), ctrBlock_eq_iff _ _ _ _ hhead (by omega),
    hcounter]
  refine and_congr_right fun _ => ?_
  exact ⟨fun h j hj => (h j hj).symm, fun h j hj => (h j hj).symm⟩

/-! ### One chunk of a padded message -/

theorem chunk_inside (m : List Byte) (q j : ℕ) (h : 12 * q + j < m.length) :
    chunk m q j = bufferOf m (12 * q + j) := List.getD_append _ _ _ _ h

theorem chunk_mark (m : List Byte) (q : ℕ) (hq : 12 * q ≤ m.length) :
    chunk m q (m.length - 12 * q) = 0x80 := by
  have hpos : 12 * q + (m.length - 12 * q) = m.length := by omega
  rw [chunk, hpos, List.getD_append_right _ _ _ _ (Nat.le_refl _), Nat.sub_self,
    List.getD_cons_zero]

theorem chunk_behind (m : List Byte) (q j : ℕ) (h : m.length < 12 * q + j) : chunk m q j = 0 := by
  refine List.getD_eq_default _ _ ?_
  rw [List.length_append, List.length_singleton]
  omega

/- A chunk inside the message is free; the last one is fixed from the mark on. -/
theorem exists_chunk_iff (n q : ℕ) (tail : ℕ → Byte) (hq : 12 * q ≤ n) :
    (∃ m : List Byte, m.length = n ∧ ∀ j < 12, chunk m q j = tail j) ↔ 12 * q + 12 ≤ n ∨
      (tail (n - 12 * q) = 0x80 ∧ ∀ j < 12, n - 12 * q < j → tail j = 0) := by
  constructor
  · rintro ⟨m, rfl, htail⟩
    by_cases hfull : 12 * q + 12 ≤ m.length
    · exact Or.inl hfull
    · refine Or.inr ⟨?_, fun j hj hlt => ?_⟩
      · rw [← htail _ (by omega), chunk_mark m q hq]
      · rw [← htail j hj, chunk_behind m q j (by omega)]
  · intro h
    let m := bytesOf (fun p => tail (p - 12 * q)) n
    have hm : m.length = n := length_bytesOf _ n
    have hinside : ∀ j, 12 * q + j < n → chunk m q j = tail j := by
      intro j hj
      have hoff : 12 * q + j - 12 * q = j := by omega
      rw [chunk_inside m q j (by omega), bufferOf_bytesOf _ n _ hj, hoff]
    refine ⟨m, hm, fun j hj => ?_⟩
    rcases h with hfull | ⟨hend, hrest⟩
    · exact hinside j (by omega)
    · rcases Nat.lt_trichotomy j (n - 12 * q) with hlt | rfl | hgt
      · exact hinside j (by omega)
      · have hmark := chunk_mark m q (by omega)
        rwa [hm, ← hend] at hmark
      · rw [chunk_behind m q j (by omega), hrest j hj hgt]

/-! ### When they stay apart -/

/-- The end of the nonce and a counter below the number of blocks look like the padded end
of a message of `n` bytes. -/
def EndsPadded (nonce : Nonce) (n : ℕ) : Prop :=
  if n % 12 < 8 then
    tailOf nonce (4 + n % 12) = 0x80 ∧ ∀ j < 12, 4 + n % 12 < j → tailOf nonce j = 0
  else 2^(8 * (11 - n % 12) + 7) < (n + 15) / 16

/-- The tag pass stops before the chunk that the nonce can meet, or at it with another end. -/
def Separated (nonce : Nonce) (n : ℕ) : Prop :=
  n = 0 ∨ n / 12 < meetingChunk nonce ∨ (n / 12 = meetingChunk nonce ∧ ¬ EndsPadded nonce n)

theorem beByte_zero (j : ℕ) : beByte 0 j = 0 := by
  rw [beByte, Nat.zero_div]
  rfl

/- The mark stands in the counter when the counter is large enough. -/
theorem exists_counter_iff (r m : ℕ) (h8 : 8 ≤ r) (h12 : r < 12) :
    (∃ i < m, beByte i (r - 8) = 0x80 ∧ ∀ j < 12, r < j → beByte i (j - 8) = 0) ↔
      2^(8 * (11 - r) + 7) < m := by
  constructor
  · rintro ⟨i, hi, hmark, _⟩
    have hbyte : i / 2^(8 * (3 - (r - 8))) % 2^8 = 128 := by
      have htoNat := congrArg BitVec.toNat hmark
      rwa [beByte, BitVec.toNat_ofNat] at htoNat
    have hcases : r = 8 ∨ r = 9 ∨ r = 10 ∨ r = 11 := by omega
    rcases hcases with rfl | rfl | rfl | rfl <;> norm_num at hbyte ⊢ <;> omega
  · intro h
    refine ⟨_, h, ?_⟩
    have htable : ∀ r < 12, 8 ≤ r → beByte (2^(8 * (11 - r) + 7)) (r - 8) = 0x80 ∧
        ∀ j < 12, r < j → beByte (2^(8 * (11 - r) + 7)) (j - 8) = 0 := by decide
    exact htable r h12 h8

theorem endsPadded_iff (nonce : Nonce) (n : ℕ) (hpos : 0 < n) :
    (∃ i < (n + 15) / 16, ctrTail nonce i (n % 12) = 0x80 ∧
      ∀ j < 12, n % 12 < j → ctrTail nonce i j = 0) ↔ EndsPadded nonce n := by
  have hr : n % 12 < 12 := Nat.mod_lt n (by omega)
  rw [EndsPadded]
  by_cases h8 : n % 12 < 8
  · rw [if_pos h8]
    constructor
    · rintro ⟨i, _, hmark, hrest⟩
      rw [ctrTail, if_pos h8] at hmark
      refine ⟨hmark, fun j hj hlt => ?_⟩
      have hbyte := hrest (j - 4) (by omega) (by omega)
      have hlow : j - 4 < 8 := by omega
      have hsum : 4 + (j - 4) = j := by omega
      rwa [ctrTail, if_pos hlow, hsum] at hbyte
    · rintro ⟨hmark, hrest⟩
      refine ⟨0, by omega, by rwa [ctrTail, if_pos h8], fun j hj hlt => ?_⟩
      rw [ctrTail]
      by_cases hlow : j < 8
      · rw [if_pos hlow]
        exact hrest (4 + j) (by omega) (by omega)
      · rw [if_neg hlow]
        exact beByte_zero _
  · have hmark : ∀ i, ctrTail nonce i (n % 12) = beByte i (n % 12 - 8) := fun i => if_neg h8
    have hrest : ∀ i j, n % 12 < j → ctrTail nonce i j = beByte i (j - 8) := fun i j hj =>
      if_neg (by omega)
    rw [if_neg h8, ← exists_counter_iff (n % 12) _ (by omega) hr]
    refine exists_congr fun i => and_congr_right fun _ => ?_
    rw [hmark]
    refine and_congr_right fun _ => forall_congr' fun j => forall_congr' fun _ =>
      forall_congr' fun hlt => ?_
    rw [hrest i j hlt]

theorem separated_iff (nonce : Nonce) (n : ℕ) : Separated nonce n ↔
    ¬ ∃ i < (n + 15) / 16, 12 * meetingChunk nonce ≤ n ∧ (12 * meetingChunk nonce + 12 ≤ n ∨
      (ctrTail nonce i (n - 12 * meetingChunk nonce) = 0x80 ∧
        ∀ j < 12, n - 12 * meetingChunk nonce < j → ctrTail nonce i j = 0)) := by
  rw [Separated]
  generalize meetingChunk nonce = q
  rcases Nat.eq_zero_or_pos n with rfl | hpos
  · refine iff_of_true (Or.inl rfl) ?_
    rintro ⟨i, hi, _⟩
    omega
  rcases Nat.lt_trichotomy (n / 12) q with hlt | heq | hgt
  · refine iff_of_true (Or.inr (Or.inl hlt)) ?_
    rintro ⟨i, _, hle, _⟩
    omega
  · have hle : 12 * q ≤ n := by omega
    have hfull : ¬ 12 * q + 12 ≤ n := by omega
    have hrest : n - 12 * q = n % 12 := by omega
    have hzero : ¬ n = 0 := by omega
    rw [hrest, ← endsPadded_iff nonce n hpos]
    simp only [hle, hfull, hzero, heq, Nat.lt_irrefl, true_and, false_or]
  · refine iff_of_false ?_ (not_not.mpr ⟨0, by omega, by omega, Or.inl (by omega)⟩)
    rintro (h | h | ⟨h, _⟩) <;> omega

/-- Over the ciphertexts of one length, the condition on nonce and length is exact. -/
theorem neverMeet_iff (memoryC memoryT : MultiArray) (r : Run) (key : Block) (nonce : Nonce)
    (tag : Block) (n : ℕ) (hn : (n + 15) / 16 < 2^31) :
    (∀ c : List Byte, c.length = n → NeverMeet memoryC memoryT r key nonce tag c) ↔
      Separated nonce n := by
  have hcount : chunkCount n < 2^32 := by
    rw [chunkCount]
    omega
  have hblocks : (∀ c : List Byte, c.length = n → NeverMeet memoryC memoryT r key nonce tag c) ↔
      ∀ m : List Byte, m.length = n → ∀ i < (n + 15) / 16, ∀ i' < chunkCount n,
        nonceCtrBlock nonce i ≠ ctrBlock (2^31 + i') (chunk m i') := by
    rw [← forall_lowMessage_iff (sivStream (aes128 key) nonce) n fun m =>
      ∀ i < (n + 15) / 16, ∀ i' < chunkCount n,
        nonceCtrBlock nonce i ≠ ctrBlock (2^31 + i') (chunk m i')]
    refine forall_congr' fun c => forall_congr' fun hc => ?_
    rw [neverMeet_iff_blocks, hc]
  rw [hblocks, separated_iff]
  constructor
  · rintro h ⟨i, hi, hle, hend⟩
    obtain ⟨m, hm, htail⟩ := (exists_chunk_iff n _ _ hle).mpr hend
    have hq : meetingChunk nonce < chunkCount n := by
      rw [chunkCount]
      omega
    exact h m hm i hi _ hq ((meet_iff nonce i _ (by omega) _).mpr ⟨rfl, htail⟩)
  · intro h m hm i hi i' hi' heq
    obtain ⟨hq, htail⟩ := (meet_iff nonce i i' (by omega) _).mp heq
    rw [hq] at hi' htail
    have hle : 12 * meetingChunk nonce ≤ n := by
      rw [chunkCount] at hi'
      omega
    exact h ⟨i, hi, hle, (exists_chunk_iff n _ _ hle).mp ⟨m, hm, htail⟩⟩

theorem neverMeet_iff_example :
    let nonce : Nonce := fun j => if j.val = 0 then 0x80 else 0
    (∀ c : List Byte, c.length = 37 → NeverMeet (fun _ _ => 0) (fun _ _ => 0)
      ⟨fun _ => false, 0, []⟩ zeroBlock nonce zeroBlock c) ↔ Separated nonce 37 :=
  neverMeet_iff (fun _ _ => 0) (fun _ _ => 0) ⟨fun _ => false, 0, []⟩ zeroBlock _ zeroBlock 37
    (by decide)

/-- Under any key the padding behind twelve bytes is the first keystream input. -/
theorem padding_meets : ¬ NeverMeet (fun _ _ => 0) (fun _ _ => 0) ⟨fun _ => false, 0, []⟩ zeroBlock
    (fun j => if j = 0 ∨ j = 4 then 0x80 else if j = 3 then 1 else 0) zeroBlock
    (List.replicate 12 0) := by
  let nonce : Nonce := fun j => if j = 0 ∨ j = 4 then 0x80 else if j = 3 then 1 else 0
  let m := lowMessage (sivStream (aes128 zeroBlock) nonce) (List.replicate 12 0)
  have hm : m.length = 12 := length_xorStream _ _
  intro h
  rw [neverMeet_iff_blocks] at h
  refine h 0 (by decide) 1 (by decide) ((meet_iff nonce 0 1 (by decide) (chunk m 1)).mpr
    ⟨by decide, fun j hj => ?_⟩)
  cases j with
  | zero =>
    have hmark := chunk_mark m 1 (by omega)
    rw [hm] at hmark
    exact hmark
  | succ j =>
    have hrest : ∀ j < 12, 0 < j → ctrTail nonce 0 j = 0 := by decide
    rw [chunk_behind m 1 (j + 1) (by omega), hrest (j + 1) hj (by omega)]

end Pobc.Mpc
