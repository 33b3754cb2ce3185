import Pobc.Blake2s.Compress

/-!
# The incremental interface of the BLAKE2s library

After any number of updates the state holds the chain over the full blocks of what was fed
so far, except that the last 1 to 64 bytes wait in the buffer. So the digest depends only
on the bytes, not on how the calls cut them, and it is that of RFC 7693.
-/

namespace Pobc.Blake2s
open Pobc.Loop

/-! ### Runs of blocks -/

/-- The words of the state are `h` and the byte count is `t`. -/
structure Holds (S : State) (t : ℕ) (h : Words) : Prop where
  t0 : u8to32 S.t 0 = BitVec.ofNat 32 t
  t1 : u8to32 S.t 4 = BitVec.ofNat 32 (t >>> 32)
  h : ∀ i < 8, u8to32 S.h (4 * i) = h i

/-- The state without hash and counter. -/
def SameRest (S S' : State) : Prop :=
  S'.f = S.f ∧ S'.leftover = S.leftover ∧ S'.buffer = S.buffer

theorem SameRest.trans {S S' S'' : State} (h : SameRest S S') (h' : SameRest S' S'') :
    SameRest S S'' :=
  ⟨h'.1.trans h.1, h'.2.1.trans h.2.1, h'.2.2.trans h.2.2⟩

/- What a call of the block function stores. -/
theorem blocks_holds (S : State) (input : Buffer) (bytes stride t : ℕ) (h : Words)
    (hloop : blocksLoop (u8to32 S.f 0) (u8to32 S.f 4) (if bytes ≥ 64 then 64 else bytes) stride
      (if u8to32 S.f 0 ≠ 0 then fun p => if p < bytes then input p else 0 else input) bytes
      ⟨u8to32 S.t 0, u8to32 S.t 4, fun i => u8to32 S.h (4 * i)⟩ = chainingOf h t) :
    Holds (blocks S input bytes stride) t h ∧ SameRest S (blocks S input bytes stride) := by
  have hblocks : blocks S input bytes stride =
      { S with h := forRange 8 (fun i p => u32to8 p (4 * i) (h i)) S.h
               t := u32to8 (u32to8 S.t 0 (BitVec.ofNat 32 t)) 4 (BitVec.ofNat 32 (t >>> 32)) } := by
    simp only [blocks]
    rw [hloop]
    rfl
  rw [hblocks]
  refine ⟨⟨?_, u8to32_u32to8 _ _ _, fun i hi => u8to32_stored h S.h 8 i hi⟩, rfl, rfl, rfl⟩
  exact (u8to32_u32to8_of_ne _ _ _ _ (by decide)).trans (u8to32_u32to8 _ _ _)

theorem blocksLoop_last (f0 f1 : Word) (inc stride : ℕ) (input : Buffer) (bytes : ℕ) (s : Chaining)
    (hbytes : bytes ≤ 64) :
    blocksLoop f0 f1 inc stride input bytes s = compressStep f0 f1 inc input s := by
  rw [blocksLoop, if_pos hbytes]

/- Full blocks one after the other. -/
theorem blocksLoop_full (n : ℕ) (stride : ℕ) (hstride : n = 0 ∨ stride = 64) (input : Buffer)
    (h : Words) (t : ℕ) : blocksLoop 0 0 64 stride input (64 * (n + 1)) (chainingOf h t) =
      chainingOf (chainFrom t h input (n + 1)) (t + 64 * (n + 1)) := by
  have hstep : ∀ input h t, compressStep 0 0 64 input (chainingOf h t) =
      chainingOf (chainFrom t h input 1) (t + 64) := fun input h t =>
    compressStep_eq false 64 (le_refl 64) input h t
  induction n generalizing input h t with
  | zero =>
    rw [blocksLoop_last _ _ _ _ _ _ _ (le_refl 64), hstep]
  | succ n ih =>
    have h64 : stride = 64 := hstride.resolve_left (Nat.succ_ne_zero n)
    have hmore : ¬ 64 * (n + 1 + 1) ≤ 64 := by omega
    have hrest : 64 * (n + 1 + 1) - 64 = 64 * (n + 1) := by omega
    have hcount : t + 64 + 64 * (n + 1) = t + 64 * (n + 1 + 1) := by omega
    have hlen : n + 1 + 1 = 1 + (n + 1) := by omega
    rw [blocksLoop, if_neg hmore, hrest, hstep, ih (Or.inr h64), hcount, h64, hlen,
      chainFrom_add t h input 1 (n + 1)]

/-- No flags: the next block is not the last one. -/
def NotLast (S : State) : Prop := ∀ p < 8, S.f p = 0

theorem NotLast.words {S : State} (h : NotLast S) : u8to32 S.f 0 = 0 ∧ u8to32 S.f 4 = 0 := by
  have hzero : ∀ off, off + 4 ≤ 8 → u8to32 S.f off = 0 := by
    intro off hoff
    rw [u8to32, h _ (by omega), h _ (by omega), h _ (by omega), h _ (by omega)]
    rfl
  exact ⟨hzero 0 (by decide), hzero 4 (by decide)⟩

theorem NotLast.congr {S S' : State} (h : NotLast S) (hrest : SameRest S S') : NotLast S' := by
  intro p hp
  rw [hrest.1]
  exact h p hp

/- The words a call starts from; only eight are given. -/
theorem Holds.start {S : State} {t : ℕ} {h : Words} (hS : Holds S t h) :
    ∃ h', (∀ i < 8, h' i = h i) ∧
      (⟨u8to32 S.t 0, u8to32 S.t 4, fun i => u8to32 S.h (4 * i)⟩ : Chaining) = chainingOf h' t := by
  refine ⟨fun i => u8to32 S.h (4 * i), hS.h, ?_⟩
  rw [hS.t0, hS.t1]
  rfl

theorem Holds.congr {S : State} {t : ℕ} {h h' : Words} (hS : Holds S t h)
    (hh : ∀ i < 8, h i = h' i) : Holds S t h' :=
  ⟨hS.t0, hS.t1, fun i hi => (hS.h i hi).trans (hh i hi)⟩

theorem blocks_full (S : State) (hf : NotLast S) (t : ℕ) (h : Words) (hS : Holds S t h)
    (input : Buffer) (n stride : ℕ) (hn : 0 < n) (hstride : n = 1 ∨ stride = 64) :
    Holds (blocks S input (64 * n) stride) (t + 64 * n) (chainFrom t h input n) ∧
      SameRest S (blocks S input (64 * n) stride) := by
  obtain ⟨m, rfl⟩ : ∃ m, n = m + 1 := ⟨n - 1, by omega⟩
  obtain ⟨h', hh, hstart⟩ := hS.start
  have hinc : 64 * (m + 1) ≥ 64 := by omega
  have hm : m = 0 ∨ stride = 64 := hstride.imp_left fun h0 => by omega
  have hnone : ¬ ((0 : Word) ≠ 0) := fun h => h rfl
  have hall := blocks_holds S input (64 * (m + 1)) stride _ (chainFrom t h' input (m + 1)) (by
    rw [hf.words.1, hf.words.2, if_pos hinc, if_neg hnone, hstart]
    exact blocksLoop_full m stride hm input h' t)
  exact ⟨hall.1.congr (chainFrom_congr t h' h hh input (m + 1)), hall.2⟩

/-! ### `blake2s_consume_blocks` -/

theorem chainFrom_input (t : ℕ) (h : Words) (data data' : Buffer) (n : ℕ)
    (hdata : ∀ p < 64 * n, data p = data' p) :
    ∀ i < 8, chainFrom t h data n i = chainFrom t h data' n i := by
  induction n with
  | zero =>
    intro i _
    rw [chainFrom_zero, chainFrom_zero]
  | succ n ih =>
    rw [chainFrom_succ, chainFrom_succ]
    exact compress_congr _ _ _ _ (ih fun p hp => hdata p (by omega))
      (blockWords_congr _ _ _ fun q hq hlt => hdata q (by omega)) _ _

/- Chunks of up to sixteen blocks. -/
theorem chunkLoop_full (n : ℕ) (S : State) (hf : NotLast S) (t : ℕ) (h : Words) (hS : Holds S t h)
    (input : Buffer) : Holds (chunkLoop S input (64 * n)) (t + 64 * n) (chainFrom t h input n) ∧
      SameRest S (chunkLoop S input (64 * n)) := by
  induction n using Nat.strong_induction_on generalizing S t h input with
  | h n ih =>
    rw [chunkLoop]
    by_cases hn : n = 0
    · subst hn
      exact ⟨hS, rfl, rfl, rfl⟩
    · have hne : ¬ 64 * n = 0 := by omega
      let k := if n > 16 then 16 else n
      have hk : 0 < k ∧ k ≤ n ∧ (if 64 * n > 16 * 64 then 16 * 64 else 64 * n) = 64 * k := by
        show 0 < (if n > 16 then 16 else n) ∧ (if n > 16 then 16 else n) ≤ n ∧
          _ = 64 * (if n > 16 then 16 else n)
        by_cases h16 : n > 16
        · have hbig : 64 * n > 16 * 64 := by omega
          rw [if_pos h16, if_pos hbig]
          omega
        · have hsmall : ¬ 64 * n > 16 * 64 := by omega
          rw [if_neg h16, if_neg hsmall]
          omega
      obtain ⟨hpos, hle, hbytes⟩ := hk
      have hleft : 64 * n - 64 * k = 64 * (n - k) := by omega
      have hsum : k + (n - k) = n := by omega
      have hcount : t + 64 * k + 64 * (n - k) = t + 64 * n := by omega
      simp only [if_neg hne, hbytes, hleft]
      obtain ⟨hfirst, hrest⟩ := blocks_full S hf t h hS (memcpy (fun _ => 0) 0 input (64 * k)) k 64
        hpos (Or.inr rfl)
      have hcopy : ∀ p < 64 * k, memcpy (fun _ => 0) 0 input (64 * k) p = input p := by
        intro p hp
        rw [memcpy, if_pos ⟨Nat.zero_le p, by omega⟩, Nat.sub_zero]
      have hS' := hfirst.congr (chainFrom_input t h _ input k hcopy)
      obtain ⟨hend, hrest'⟩ := ih (n - k) (by omega) _ (hf.congr hrest) _ _ hS'
        (fun p => input (p + 64 * k))
      rw [← chainFrom_add, hsum, hcount] at hend
      exact ⟨hend, hrest.trans hrest'⟩

theorem consumeBlocks_spec (aligned : Bool) (S : State) (hf : NotLast S) (t : ℕ) (h : Words)
    (hS : Holds S t h) (input : Buffer) (inlen : ℕ) :
    let out := consumeBlocks aligned S input inlen
    out.2 = 64 * ((inlen - 1) / 64) ∧
      Holds out.1 (t + 64 * ((inlen - 1) / 64)) (chainFrom t h input ((inlen - 1) / 64)) ∧
      SameRest S out.1 := by
  intro out
  have hcomm : (inlen - 1) / 64 * 64 = 64 * ((inlen - 1) / 64) := Nat.mul_comm _ _
  by_cases hshort : inlen ≤ 64
  · have hzero : (inlen - 1) / 64 = 0 := by omega
    have hout : out = (S, 0) := if_pos hshort
    rw [hout, hzero]
    exact ⟨rfl, hS, rfl, rfl, rfl⟩
  · have hpos : 0 < (inlen - 1) / 64 := by omega
    have hout : out = if aligned then (blocks S input (64 * ((inlen - 1) / 64)) 64,
        64 * ((inlen - 1) / 64)) else (chunkLoop S input (64 * ((inlen - 1) / 64)),
        64 * ((inlen - 1) / 64)) := by
      rw [← hcomm]
      exact if_neg hshort
    rw [hout]
    cases aligned with
    | true => exact ⟨rfl, blocks_full S hf t h hS input _ 64 hpos (Or.inr rfl)⟩
    | false => exact ⟨rfl, chunkLoop_full _ S hf t h hS input⟩

/-! ### `blake2s_update` -/

/-- The state has taken in the bytes `D`, from the start `h`. -/
structure Absorbed (h : Words) (D : List Byte) (S : State) : Prop where
  notLast : NotLast S
  holds : Holds S (64 * lastBlock D.length) (chainFrom 0 h (bufferOf D) (lastBlock D.length))
  leftover : S.leftover = D.length - 64 * lastBlock D.length
  buffer : ∀ p < S.leftover, S.buffer p = bufferOf D (64 * lastBlock D.length + p)

theorem bufferOf_append (D E : List Byte) (p : ℕ) :
    bufferOf (D ++ E) p = if p < D.length then bufferOf D p else bufferOf E (p - D.length) := by
  rw [bufferOf, bufferOf, bufferOf]
  by_cases hp : p < D.length
  · rw [if_pos hp, List.getD_append _ _ _ _ hp]
  · rw [if_neg hp, List.getD_append_right _ _ _ _ (Nat.not_lt.mp hp)]

theorem bufferOf_append_left (D E : List Byte) (p : ℕ) (hp : p < D.length) :
    bufferOf (D ++ E) p = bufferOf D p := by
  rw [bufferOf_append, if_pos hp]

/-- What is known after the full blocks are gone: the bytes `rest` at the input pointer are
still to come. -/
structure Drained (h : Words) (D : List Byte) (n : ℕ) (d : Pending) : Prop where
  notLast : NotLast d.S
  holds : Holds d.S (64 * n) (chainFrom 0 h (bufferOf D) n)
  input : ∀ p < d.inlen, d.input p = bufferOf D (64 * n + p)
  inlen : 64 * n + d.inlen = D.length
  leftover : d.S.leftover = 0

/- The buffer, filled up with new bytes, is a block of the whole. -/
theorem previousData_drained (h : Words) (D : List Byte) (S : State) (hS : Absorbed h D S)
    (input : Buffer) (inlen : ℕ) (hmore : S.leftover + inlen > 64) :
    ∃ n, Drained h (D ++ bytesOf input inlen) n (previousData S input inlen) ∧
      0 < (previousData S input inlen).inlen := by
  let E := bytesOf input inlen
  let n := lastBlock D.length
  have hn : n = (D.length - 1) / 64 := rfl
  have hlen : (D ++ E).length = D.length + inlen := by
    rw [List.length_append, length_bytesOf]
  have hnew : ∀ p < inlen, bufferOf (D ++ E) (D.length + p) = input p := by
    intro p hp
    have hge : ¬ D.length + p < D.length := by omega
    rw [bufferOf_append, if_neg hge, Nat.add_sub_cancel_left, bufferOf_bytesOf _ _ _ hp]
  have hchain : Holds S (64 * n) (chainFrom 0 h (bufferOf (D ++ E)) n) :=
    hS.holds.congr (chainFrom_input 0 h _ _ n fun p hp =>
      (bufferOf_append_left D E p (by omega)).symm)
  have hleft := hS.leftover
  rw [previousData]
  by_cases hzero : S.leftover = 0
  · have hempty : D.length = 64 * n := by omega
    rw [if_neg (not_not.mpr hzero)]
    refine ⟨n, ⟨hS.notLast, hchain, fun p hp => ?_, ?_, hzero⟩, ?_⟩
    · rw [← hempty]
      exact (hnew p hp).symm
    · rw [hlen, hempty]
    · show 0 < inlen
      omega
  · rw [if_pos hzero]
    let S₁ : State :=
      { S with buffer := memcpy S.buffer S.leftover input (64 - S.leftover), leftover := 0 }
    have hstart : Holds S₁ (64 * n) (chainFrom 0 h (bufferOf (D ++ E)) n) :=
      ⟨hchain.t0, hchain.t1, hchain.h⟩
    obtain ⟨hblock, hrest⟩ := blocks_full S₁ hS.notLast _ _ hstart S₁.buffer 1 0 (by decide)
      (Or.inl rfl)
    have hfilled : ∀ p < 64, S₁.buffer p = bufferOf (D ++ E) (64 * n + p) := by
      intro p hp
      show memcpy S.buffer S.leftover input (64 - S.leftover) p = _
      rw [memcpy]
      by_cases hold : p < S.leftover
      · have hout : ¬ (S.leftover ≤ p ∧ p < S.leftover + (64 - S.leftover)) := by omega
        rw [if_neg hout, hS.buffer p hold, bufferOf_append_left D E _ (by omega)]
      · have hin : S.leftover ≤ p ∧ p < S.leftover + (64 - S.leftover) := by omega
        have hpos : 64 * n + p = D.length + (p - S.leftover) := by omega
        rw [if_pos hin, hpos, hnew _ (by omega)]
    have hnext : ∀ i < 8, chainFrom (64 * n) (chainFrom 0 h (bufferOf (D ++ E)) n) S₁.buffer 1 i =
        chainFrom 0 h (bufferOf (D ++ E)) (n + 1) i := by
      rw [chainFrom_add 0 h _ n 1, Nat.zero_add]
      refine chainFrom_input _ _ _ _ 1 fun p hp => ?_
      rw [hfilled p hp, Nat.add_comm]
    have hcount : 64 * n + 64 * 1 = 64 * (n + 1) := (Nat.mul_succ 64 n).symm
    rw [hcount] at hblock
    have hin : inlen - (64 - S.leftover) + (64 - S.leftover) = inlen := by omega
    refine ⟨n + 1, ⟨NotLast.congr (S := S₁) hS.notLast hrest, hblock.congr hnext, fun p hp => ?_, ?_,
      hrest.2.1⟩, ?_⟩
    · have hp' : p < inlen - (64 - S.leftover) := hp
      have hpos : 64 * (n + 1) + p = D.length + (p + (64 - S.leftover)) := by omega
      rw [hpos, hnew _ (by omega)]
    · show 64 * (n + 1) + (inlen - (64 - S.leftover)) = _
      rw [hlen]
      omega
    · show 0 < inlen - (64 - S.leftover)
      omega

theorem directData_drained (aligned : Bool) (h : Words) (D : List Byte) (n : ℕ) (d : Pending)
    (hd : Drained h D n d) :
    Drained h D (n + (d.inlen - 1) / 64) (directData aligned d) ∧
      (directData aligned d).inlen = d.inlen - 64 * ((d.inlen - 1) / 64) := by
  obtain ⟨hused, hholds, hrest⟩ := consumeBlocks_spec aligned d.S hd.notLast _ _ hd.holds d.input
    d.inlen
  let k := (d.inlen - 1) / 64
  have hk : k = (d.inlen - 1) / 64 := rfl
  have hdirect : directData aligned d = ⟨(consumeBlocks aligned d.S d.input d.inlen).1,
      fun p => d.input (p + 64 * k), d.inlen - 64 * k⟩ := by
    rw [directData, hk, ← hused]
  have hnext : ∀ i < 8, chainFrom (64 * n) (chainFrom 0 h (bufferOf D) n) d.input k i =
      chainFrom 0 h (bufferOf D) (n + k) i := by
    rw [chainFrom_add 0 h _ n k, Nat.zero_add]
    refine chainFrom_input _ _ _ _ k fun p hp => ?_
    rw [hd.input p (by omega), Nat.add_comm]
  have hcount : 64 * n + 64 * k = 64 * (n + k) := (Nat.mul_add 64 n k).symm
  rw [← hk, hcount] at hholds
  have hlen := hd.inlen
  rw [hdirect]
  refine ⟨⟨hd.notLast.congr hrest, hholds.congr hnext, fun p hp => ?_, ?_,
    hrest.2.1.trans hd.leftover⟩, rfl⟩
  · have hp' : p < d.inlen - 64 * k := hp
    have hpos : 64 * (n + k) + p = 64 * n + (p + 64 * k) := by omega
    rw [hpos]
    exact hd.input _ (by omega)
  · show 64 * (n + k) + (d.inlen - 64 * k) = D.length
    omega

/-- An update takes in its bytes, wherever the calls before it ended. -/
theorem update_absorbed (aligned : Bool) (h : Words) (D : List Byte) (S : State)
    (hS : Absorbed h D S) (input : Buffer) (inlen : ℕ) :
    Absorbed h (D ++ bytesOf input inlen) (update aligned S input inlen) := by
  have hlen : (D ++ bytesOf input inlen).length = D.length + inlen := by
    rw [List.length_append, length_bytesOf]
  have hleft := hS.leftover
  have hlast : lastBlock D.length = (D.length - 1) / 64 := rfl
  rw [update]
  by_cases hmore : S.leftover + inlen > 64
  · rw [if_pos hmore]
    obtain ⟨n, hprev, hpos⟩ := previousData_drained h D S hS input inlen hmore
    obtain ⟨hdirect, hinlen⟩ := directData_drained aligned h _ n _ hprev
    have htotal := hprev.inlen
    have hcount : lastBlock (D ++ bytesOf input inlen).length =
        n + ((previousData S input inlen).inlen - 1) / 64 := by
      rw [lastBlock, ← htotal]
      omega
    rw [← hcount] at hdirect
    have hend := hdirect.inlen
    refine ⟨hdirect.notLast, ⟨hdirect.holds.t0, hdirect.holds.t1, hdirect.holds.h⟩, ?_,
      fun p hp => ?_⟩
    · simp only [hdirect.leftover]
      omega
    · simp only [hdirect.leftover] at hp
      simp only [memcpy, hdirect.leftover]
      rw [if_pos ⟨Nat.zero_le p, hp⟩, Nat.sub_zero]
      exact hdirect.input p (by omega)
  · rw [if_neg hmore]
    have hcount : lastBlock (D ++ bytesOf input inlen).length = lastBlock D.length := by
      rw [lastBlock, lastBlock, hlen]
      omega
    refine ⟨hS.notLast, ?_, ?_, fun p hp => ?_⟩
    · rw [hcount]
      refine Holds.congr ⟨hS.holds.t0, hS.holds.t1, hS.holds.h⟩
        (chainFrom_input 0 h _ _ _ fun p hp => (bufferOf_append_left D _ p ?_).symm)
      omega
    · show S.leftover + inlen = _
      rw [hcount, hlen]
      omega
    · have hp' : p < S.leftover + inlen := hp
      show memcpy S.buffer S.leftover input inlen p = _
      rw [memcpy, hcount]
      by_cases hold : p < S.leftover
      · have hout : ¬ (S.leftover ≤ p ∧ p < S.leftover + inlen) := by omega
        rw [if_neg hout, hS.buffer p hold, bufferOf_append_left D _ _ (by omega)]
      · have hin : S.leftover ≤ p ∧ p < S.leftover + inlen := by omega
        have hge : ¬ 64 * lastBlock D.length + p < D.length := by omega
        have hpos : 64 * lastBlock D.length + p - D.length = p - S.leftover := by omega
        rw [if_pos hin, bufferOf_append, if_neg hge, hpos, bufferOf_bytesOf _ _ _ (by omega)]

end Pobc.Blake2s
