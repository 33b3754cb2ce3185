import Pobc.Iot.PobcDomains

/-!
# Calls under one key

The blocks `aes_pobc_encrypt` derives from the nonce, over a sequence of calls.
`nonce_incr` carries out of the counter word into the nonce, so a long message
runs into the counter blocks of the next nonces. The loop variable is kept as an
`unsigned long long` here: for the last sixteen lengths `i + 16` wraps to zero,
the loop does not end and goes round the whole counter.
-/

namespace Pobc.Iot

/-- A call of `aes_pobc_encrypt`, as far as its nonce-dependent blocks go. -/
structure PobcCall where
  npub : Nonce
  mlen : ℕ
  isULongLong : mlen < 2^64
  deriving DecidableEq

/-- The blocks given to the cipher by the first `rounds` rounds of the encryption
loop and, after it, for a partial last block (`aes_pobc.c:56-69`). -/
def streamInputs (order : ByteOrder) (mlen : ℕ) : ℕ → ℕ → Block → List Block
  | 0, _, _ => []
  | rounds + 1, i, nonceCounter =>
    if (i + 16) % 2^64 ≤ mlen then
      nonceCounter :: streamInputs order mlen rounds ((i + 16) % 2^64)
        (nonceIncr order nonceCounter)
    else if i < mlen then [nonceCounter] else []

/-- Tag mask and keystream inputs of a call, its loop observed for `rounds` rounds. -/
def nonceInputs (order : ByteOrder) (rounds : ℕ) (call : PobcCall) : List Block :=
  nonceBlock call.npub :: streamInputs order call.mlen rounds 0 (streamStart call.npub)

/-! ### The encryption loop -/

theorem counterRun_head (order : ByteOrder) (start : Block) (n : ℕ) :
    counterRun order start (n + 1) = start :: counterRun order (nonceIncr order start) n := by
  induction n generalizing start with
  | zero => rfl
  | succ n ih =>
    rw [counterRun_succ, ih, counterRun_succ, Function.iterate_succ_apply]
    rfl

/- As long as `i + 16` does not wrap the loop takes the blocks one by one. -/
theorem streamInputs_eq (order : ByteOrder) (mlen rounds i : ℕ) (y : Block)
    (hlen : mlen + 16 < 2^64) (hi : i ≤ mlen) :
    streamInputs order mlen rounds i y =
      counterRun order y (min rounds (blockCount (mlen - i))) := by
  induction rounds generalizing i y with
  | zero => rw [Nat.zero_min]; rfl
  | succ rounds ih =>
    rw [streamInputs]
    split
    · rename_i hle
      have hlt : i + 16 ≤ mlen := by omega
      have hsum : (i + 16) % 2^64 = i + 16 := by omega
      have hcount : min (rounds + 1) (blockCount (mlen - i)) =
          min rounds (blockCount (mlen - (i + 16))) + 1 := by
        unfold blockCount
        omega
      rw [hsum, ih (i + 16) _ hlt, hcount, counterRun_head]
    · split
      · have hcount : min (rounds + 1) (blockCount (mlen - i)) = 0 + 1 := by
          unfold blockCount
          omega
        rw [hcount, counterRun_head]
        rfl
      · have hcount : min (rounds + 1) (blockCount (mlen - i)) = 0 := by
          unfold blockCount
          omega
        rw [hcount]
        rfl

/- When it wraps, the condition holds in every round. -/
theorem streamInputs_wrapping (order : ByteOrder) (mlen rounds i : ℕ) (y : Block)
    (hlen : 2^64 ≤ mlen + 16) (hi : 16 ∣ i) :
    streamInputs order mlen rounds i y = counterRun order y rounds := by
  induction rounds generalizing i y with
  | zero => rfl
  | succ rounds ih =>
    have hle : (i + 16) % 2^64 ≤ mlen := by omega
    rw [streamInputs, if_pos hle, ih _ _ (by omega), counterRun_head]

/- What `aes_pobc_encrypt` gives to the cipher first. -/
theorem aesPobcEncrypt_nonceInputs (order : ByteOrder) (lib : Mbedtls) (c₀ : Buffer) (tag₀ : Block)
    (m : Buffer) (ad : Buffer) (adlen : ℕ) (k : Block) (call : PobcCall) (rounds : ℕ)
    (hkey : lib.setkeyEnc 0 k = 0) (hlen : call.mlen + 16 < 2^64)
    (hrounds : blockCount call.mlen ≤ rounds) :
    (aesPobcEncrypt order lib c₀ tag₀ m call.mlen ad adlen call.npub k).inputs =
      nonceInputs order rounds call ++ (counterRun order (maskStart 0x60) (blockCount adlen) ++
        counterRun order (maskStart 0x40) (blockCount call.mlen)) := by
  rw [(aesPobcEncrypt_spec order lib c₀ tag₀ m call.mlen ad adlen call.npub k hkey).2.2.2,
    nonceInputs, streamInputs_eq order call.mlen rounds 0 _ hlen (Nat.zero_le _), Nat.sub_zero,
    Nat.min_eq_right hrounds, pobcInputs, List.cons_append, List.append_assoc]

/-! ### One call as numbers -/

/-- Offsets of the blocks of a call from its nonce: zero, then the keystream. -/
def IsOffset (order : ByteOrder) (n d : ℕ) : Prop :=
  d = 0 ∨ (streamWord order ≤ d ∧ d < streamWord order + n)

theorem counterVal_streamBlock (order : ByteOrder) (npub : Nonce) (t : ℕ) :
    counterVal order ((nonceIncr order)^[t] (streamStart npub)) =
      (nonceVal npub * 2^32 + (streamWord order + t)) % 2^128 := by
  rw [counterVal_iterate, counterVal_streamStart, Nat.add_assoc]

theorem exists_callBlock (order : ByteOrder) (npub : Nonce) (n d : ℕ)
    (hd : IsOffset order n d) : ∃ y ∈ nonceBlock npub :: counterRun order (streamStart npub) n,
      counterVal order y = (nonceVal npub * 2^32 + d) % 2^128 := by
  rcases hd with rfl | ⟨hlo, hhi⟩
  · refine ⟨_, List.mem_cons_self, ?_⟩
    have hlt := counterVal_lt order (nonceBlock npub)
    rw [counterVal_nonceBlock] at hlt ⊢
    omega
  · have hsum : streamWord order + (d - streamWord order) = d := by omega
    refine ⟨(nonceIncr order)^[d - streamWord order] (streamStart npub), ?_, ?_⟩
    · exact List.mem_cons_of_mem _ (List.mem_map_of_mem (List.mem_range.mpr (by omega)))
    · rw [counterVal_streamBlock, hsum]

theorem offset_of_mem (order : ByteOrder) (npub : Nonce) (n : ℕ) (y : Block)
    (hy : y ∈ nonceBlock npub :: counterRun order (streamStart npub) n) :
    ∃ d, IsOffset order n d ∧ counterVal order y = (nonceVal npub * 2^32 + d) % 2^128 := by
  rcases List.mem_cons.mp hy with rfl | hrun
  · have hlt := counterVal_lt order (nonceBlock npub)
    have hval := counterVal_nonceBlock order npub
    exact ⟨0, Or.inl rfl, by omega⟩
  · obtain ⟨t, ht, rfl⟩ := List.mem_map.mp hrun
    have ht' := List.mem_range.mp ht
    exact ⟨streamWord order + t, Or.inr (by omega), counterVal_streamBlock order npub t⟩

theorem streamWord_bounds (order : ByteOrder) : 1 ≤ streamWord order ∧ streamWord order ≤ 2^24 := by
  cases order <;> decide

theorem callBlocks_nodup (order : ByteOrder) (npub : Nonce) (n : ℕ) (hn : n ≤ 2^60) :
    (nonceBlock npub :: counterRun order (streamStart npub) n).Nodup := by
  have hw := streamWord_bounds order
  have hnonce := counterVal_nonceBlock order npub
  have hlt := nonceVal_lt npub
  rw [List.nodup_cons]
  constructor
  · intro hmem
    obtain ⟨t, ht, heq⟩ := List.mem_map.mp hmem
    have ht' := List.mem_range.mp ht
    have hsame := counterVal_streamBlock order npub t
    rw [heq, hnonce] at hsame
    omega
  · apply List.Nodup.map_on _ List.nodup_range
    intro i hi t ht heq
    have hi' := List.mem_range.mp hi
    have ht' := List.mem_range.mp ht
    exact iterate_nonceIncr_inj order _ i t (by omega) (by omega) heq

/-! ### Two calls -/

/-- How far nonce `npub'` lies ahead of `npub`, counting round. -/
def nonceGap (npub npub' : Nonce) : ℕ := (nonceVal npub' + 2^96 - nonceVal npub) % 2^96

/-- The keystream blocks under `call` stop before the first block under `call'`. -/
def StopsBefore (order : ByteOrder) (call call' : PobcCall) : Prop :=
  streamWord order + blockCount call.mlen ≤ nonceGap call.npub call'.npub * 2^32

/- The arithmetic of two runs on a circle of `2^128` values. -/
theorem offsets_disjoint_iff (order : ByteOrder) (a a' n n' : ℕ) (ha : a < 2^96) (ha' : a' < 2^96)
    (hn : n ≤ 2^60) (hn' : n' ≤ 2^60) :
    (∀ d d', IsOffset order n d → IsOffset order n' d' →
      (a * 2^32 + d) % 2^128 ≠ (a' * 2^32 + d') % 2^128) ↔
    streamWord order + n ≤ (a' + 2^96 - a) % 2^96 * 2^32 ∧
      streamWord order + n' ≤ (a + 2^96 - a') % 2^96 * 2^32 := by
  have hw := streamWord_bounds order
  unfold IsOffset
  constructor
  · intro h
    constructor
    · by_contra hshort
      have hd := h ((a' + 2^96 - a) % 2^96 * 2^32) 0 (by omega) (by omega)
      omega
    · by_contra hshort
      have hd := h 0 ((a + 2^96 - a') % 2^96 * 2^32) (by omega) (by omega)
      omega
  · rintro ⟨h, h'⟩ d d' hd hd' heq
    omega

theorem callBlocks_disjoint_iff (order : ByteOrder) (call call' : PobcCall) :
    List.Disjoint
      (nonceBlock call.npub :: counterRun order (streamStart call.npub) (blockCount call.mlen))
      (nonceBlock call'.npub :: counterRun order (streamStart call'.npub)
        (blockCount call'.mlen)) ↔
    StopsBefore order call call' ∧ StopsBefore order call' call := by
  have hcount : ∀ c : PobcCall, blockCount c.mlen ≤ 2^60 := by
    intro c
    have hc := c.isULongLong
    unfold blockCount
    omega
  unfold StopsBefore nonceGap
  rw [← offsets_disjoint_iff order _ _ _ _ (nonceVal_lt call.npub) (nonceVal_lt call'.npub)
    (hcount call) (hcount call')]
  constructor
  · intro h d d' hd hd' heq
    obtain ⟨y, hy, hval⟩ := exists_callBlock order call.npub _ d hd
    obtain ⟨y', hy', hval'⟩ := exists_callBlock order call'.npub _ d' hd'
    have hsame : y = y' := counterVal_inj order y y' (hval.trans (heq.trans hval'.symm))
    rw [hsame] at hy
    exact h hy hy'
  · intro h y hy hy'
    obtain ⟨d, hd, hval⟩ := offset_of_mem order call.npub _ y hy
    obtain ⟨d', hd', hval'⟩ := offset_of_mem order call'.npub _ y hy'
    exact h d d' hd hd' (hval.symm.trans hval')

/-! ### Any number of calls -/

/-- No two nonce-dependent blocks of the calls are equal, however long the loops
are observed. -/
def InputsDistinct (order : ByteOrder) (calls : List PobcCall) : Prop :=
  ∀ rounds, (calls.flatMap (nonceInputs order rounds)).Nodup

/- Once round the counter the first keystream block comes back. -/
theorem counterRun_repeats (order : ByteOrder) (start : Block) (n : ℕ) (hn : 2^128 < n) :
    ¬ (counterRun order start n).Nodup := by
  intro h
  have hback : ∀ t, t = 2^128 → (nonceIncr order)^[t] start = (nonceIncr order)^[0] start := by
    intro t ht
    apply counterVal_inj order
    rw [counterVal_iterate, counterVal_iterate]
    omega
  unfold counterRun at h
  have hidx := List.inj_on_of_nodup_map h (List.mem_range.mpr hn)
    (List.mem_range.mpr (by omega)) (hback _ rfl)
  omega

theorem nonceInputs_sublist (order : ByteOrder) (rounds : ℕ) (call : PobcCall)
    (hlen : call.mlen + 16 < 2^64) : (nonceInputs order rounds call).Sublist
      (nonceBlock call.npub :: counterRun order (streamStart call.npub)
        (blockCount call.mlen)) := by
  rw [nonceInputs, streamInputs_eq order call.mlen rounds 0 _ hlen (Nat.zero_le _), Nat.sub_zero]
  apply List.Sublist.cons_cons
  apply List.Sublist.map
  exact List.range_sublist.mpr (Nat.min_le_right _ _)

theorem mlen_lt_of_inputsDistinct (order : ByteOrder) (calls : List PobcCall)
    (h : InputsDistinct order calls) (call : PobcCall) (hcall : call ∈ calls) :
    call.mlen + 16 < 2^64 := by
  by_contra hlong
  have hone := (List.nodup_flatMap.mp (h (2^128 + 1))).1 call hcall
  have htail := (List.nodup_cons.mp hone).2
  rw [streamInputs_wrapping order call.mlen _ 0 _ (by omega) (Nat.dvd_zero 16)] at htail
  exact counterRun_repeats order _ _ (Nat.lt_succ_self _) htail

/- After `2^60` rounds every loop that ends has ended. -/
theorem nonceInputs_full (order : ByteOrder) (call : PobcCall) (hlen : call.mlen + 16 < 2^64) :
    nonceInputs order (2^60) call =
      nonceBlock call.npub :: counterRun order (streamStart call.npub) (blockCount call.mlen) := by
  have hcount : min (2^60) (blockCount call.mlen) = blockCount call.mlen := by
    unfold blockCount
    omega
  rw [nonceInputs, streamInputs_eq order call.mlen _ 0 _ hlen (Nat.zero_le _), Nat.sub_zero,
    hcount]

theorem stopsBefore_of_inputsDistinct (order : ByteOrder) (calls : List PobcCall)
    (h : InputsDistinct order calls) (call call' : PobcCall) (hcall : call ∈ calls)
    (hcall' : call' ∈ calls) (hne : call.npub ≠ call'.npub) : StopsBefore order call call' := by
  have hsymm : Std.Symm (Function.onFun List.Disjoint (nonceInputs order (2^60))) :=
    ⟨fun _ _ hxy => List.Disjoint.symm hxy⟩
  have hpair := (List.nodup_flatMap.mp (h (2^60))).2
  have hdisj := hpair.forall hcall hcall' fun heq => hne (congrArg PobcCall.npub heq)
  simp only [Function.onFun] at hdisj
  rw [nonceInputs_full order call (mlen_lt_of_inputsDistinct order calls h call hcall),
    nonceInputs_full order call' (mlen_lt_of_inputsDistinct order calls h call' hcall'),
    callBlocks_disjoint_iff order call call'] at hdisj
  exact hdisj.1

theorem inputsDistinct_of_stopsBefore (order : ByteOrder) (calls : List PobcCall)
    (hnonces : (calls.map PobcCall.npub).Nodup) (hfits : ∀ call ∈ calls, call.mlen + 16 < 2^64)
    (hstop : ∀ call ∈ calls, ∀ call' ∈ calls, call.npub ≠ call'.npub →
      StopsBefore order call call') : InputsDistinct order calls := by
  intro rounds
  rw [List.nodup_flatMap]
  constructor
  · intro call hcall
    have hlt := call.isULongLong
    have hfull := callBlocks_nodup order call.npub (blockCount call.mlen)
      (by unfold blockCount; omega)
    exact hfull.sublist (nonceInputs_sublist order rounds call (hfits call hcall))
  · apply hnonces.of_map.pairwise_of_forall_ne
    intro call hcall call' hcall' hne
    have hnpub : call.npub ≠ call'.npub := fun heq =>
      hne (List.inj_on_of_nodup_map hnonces hcall hcall' heq)
    have hdisj := (callBlocks_disjoint_iff order call call').mpr
      ⟨hstop call hcall call' hcall' hnpub, hstop call' hcall' call hcall hnpub.symm⟩
    intro y hy hy'
    exact hdisj ((nonceInputs_sublist order rounds call (hfits call hcall)).subset hy)
      ((nonceInputs_sublist order rounds call' (hfits call' hcall')).subset hy')

theorem inputsDistinct_iff (order : ByteOrder) (calls : List PobcCall)
    (hnonces : (calls.map PobcCall.npub).Nodup) :
    InputsDistinct order calls ↔
      (∀ call ∈ calls, call.mlen + 16 < 2^64) ∧
      ∀ call ∈ calls, ∀ call' ∈ calls, call.npub ≠ call'.npub → StopsBefore order call call' := by
  constructor
  · intro h
    exact ⟨mlen_lt_of_inputsDistinct order calls h, fun call hcall call' hcall' hne =>
      stopsBefore_of_inputsDistinct order calls h call call' hcall hcall' hne⟩
  · rintro ⟨hfits, hstop⟩
    exact inputsDistinct_of_stopsBefore order calls hnonces hfits hstop

def oneNonce : Nonce := fun i => if i.val = 11 then 1 else 0

theorem inputsDistinct_iff_example :
    let calls : List PobcCall := [⟨zeroNonce, 16, by decide⟩, ⟨oneNonce, 40, by decide⟩]
    InputsDistinct .little calls ↔
      (∀ call ∈ calls, call.mlen + 16 < 2^64) ∧
      ∀ call ∈ calls, ∀ call' ∈ calls, call.npub ≠ call'.npub → StopsBefore .little call call' :=
  inputsDistinct_iff .little [⟨zeroNonce, 16, by decide⟩, ⟨oneNonce, 40, by decide⟩]
    (by decide)

theorem long_call_meets_next_nonce :
    let calls : List PobcCall := [⟨zeroNonce, 2^36, by decide⟩, ⟨oneNonce, 0, by decide⟩]
    (calls.map PobcCall.npub).Nodup ∧ ¬ InputsDistinct .little calls := by
  intro calls
  constructor
  · decide
  · intro h
    have hzero : nonceVal zeroNonce = 0 := by decide
    have hone : nonceVal oneNonce = 1 := by decide
    have hstop := stopsBefore_of_inputsDistinct .little calls h ⟨zeroNonce, 2^36, by decide⟩
      ⟨oneNonce, 0, by decide⟩ (by simp [calls]) (by simp [calls]) (by decide)
    simp only [StopsBefore, nonceGap, hzero, hone, streamWord, blockCount] at hstop
    omega

end Pobc.Iot
