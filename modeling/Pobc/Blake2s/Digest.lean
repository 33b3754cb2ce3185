import Pobc.Blake2s.Stream
import Pobc.Mimc.Htmac

/-!
# Digests of the BLAKE2s library

The incremental and the one-shot interface give the digest of RFC 7693. The keyed one
absorbs the padded key in front of the data and leaves the key length out of the
parameters, so it is the plain hash of both and not the keyed hash of the RFC. HtMAC-MiMC
hashes associated data and ciphertext this way, with 15 bytes of nonce for the key.
-/

namespace Pobc.Blake2s
open Pobc.Loop

/-! ### The last block -/

theorem setLast_words (S : State) (hf : NotLast S) :
    u8to32 (setLast S).f 0 = 0xffffffff#32 ∧ u8to32 (setLast S).f 4 = 0 := by
  have hlow : u8to32 (setLast S).f 0 = u8to32 (fun _ => 0xff) 0 :=
    u8to32_congr _ _ _ fun j hj => if_pos (by omega)
  have hhigh : u8to32 (setLast S).f 4 = u8to32 (fun _ => 0) 4 :=
    u8to32_congr _ _ _ fun j hj => (if_neg (by omega)).trans (hf _ (by omega))
  rw [hlow, hhigh]
  exact ⟨by decide, by decide⟩

/- The flagged call: the rest of the input, padded with zeros. -/
theorem blocks_last (S : State) (hf : NotLast S) (t : ℕ) (h : Words) (hS : Holds S t h)
    (input : Buffer) (bytes : ℕ) (hbytes : bytes ≤ 64) :
    Holds (blocks (setLast S) input bytes 0) (t + bytes)
      (compress h (blockWords (fun p => if p < bytes then input p else 0) 0) (t + bytes) true) := by
  obtain ⟨hf0, hf1⟩ := setLast_words S hf
  obtain ⟨h', hh, hstart⟩ := hS.start
  have hones : (0xffffffff#32 : Word) ≠ 0 := by decide
  have hinc : (if bytes ≥ 64 then 64 else bytes) = bytes := by
    split <;> omega
  have hall := blocks_holds (setLast S) input bytes 0 (t + bytes)
    (compress h' (blockWords (fun p => if p < bytes then input p else 0) 0) (t + bytes) true) (by
      rw [hf0, hf1, if_pos hones, hinc, blocksLoop_last _ _ _ _ _ _ _ hbytes]
      exact (congrArg _ hstart).trans (compressStep_eq true bytes hbytes _ h' t))
  exact hall.1.congr (compress_congr _ _ _ _ hh (fun _ _ => rfl) _ _)

/-- The hash of `D` from the start `h`. -/
def hashFrom (h : Words) (D : List Byte) : Words :=
  let n := lastBlock D.length
  compress (chain h (bufferOf D) n) (blockWords (bufferOf D) (64 * n)) D.length true

/- The last block is what is left of the data, wherever it stands. -/
theorem blocks_last_data (h : Words) (D : List Byte) (S : State) (hf : NotLast S)
    (hS : Holds S (64 * lastBlock D.length)
      (chainFrom 0 h (bufferOf D) (lastBlock D.length))) (input : Buffer) (bytes : ℕ)
    (hbytes : bytes = D.length - 64 * lastBlock D.length)
    (hinput : ∀ p < bytes, input p = bufferOf D (64 * lastBlock D.length + p)) :
    Holds (blocks (setLast S) input bytes 0) D.length (hashFrom h D) := by
  have hlast : lastBlock D.length = (D.length - 1) / 64 := rfl
  have hcount : 64 * lastBlock D.length + bytes = D.length := by omega
  have hall := blocks_last S hf _ _ hS input bytes (by omega)
  rw [hcount, ← chain_eq] at hall
  refine hall.congr (compress_congr _ _ _ _ (fun _ _ => rfl) (fun i hi => ?_) _ _)
  have hshift := blockWords_shift (bufferOf D) (64 * lastBlock D.length) 0
  rw [Nat.zero_add] at hshift
  rw [← hshift]
  refine blockWords_congr _ _ _ (fun q _ _ => ?_) i hi
  rw [Nat.add_comm q]
  by_cases hq : q < bytes
  · rw [if_pos hq, hinput q hq]
  · rw [if_neg hq]
    exact (List.getD_eq_default _ _ (by omega)).symm

theorem storeHash_digest (S : State) (t : ℕ) (h : Words) (hS : Holds S t h) (hash : Buffer) :
    ∀ p < 32, storeHash true S hash p = digest h p := by
  intro p hp
  have hstore : storeHash true S hash p = S.h p := by
    show memcpy hash 0 S.h 32 p = S.h p
    rw [memcpy, if_pos ⟨Nat.zero_le p, by omega⟩, Nat.sub_zero]
  rw [hstore, digest, ← hS.h (p / 4) (by omega)]
  apply BitVec.eq_of_getLsbD_eq
  intro i hi
  have hdiv : 4 * (p / 4) + (8 * (p % 4) + i) / 8 = p := by omega
  have hmod : (8 * (p % 4) + i) % 8 = i := by omega
  rw [BitVec.getLsbD_setWidth, decide_eq_true hi, Bool.true_and, BitVec.getLsbD_ushiftRight,
    getLsbD_u8to32 _ _ _ (by omega), hdiv, hmod]

/-! ### The two interfaces -/

theorem init_absorbed (S : State) : Absorbed (start 0) [] (init S) where
  notLast _ _ := rfl
  holds := by
    have hwords : ∀ i < 8, u8to32 (bufferOf initLe) (4 * i) = start 0 i := by decide
    have hcounter : u8to32 (fun _ => 0) 0 = 0 ∧ u8to32 (fun _ => 0) 4 = 0 := by decide
    refine ⟨hcounter.1, hcounter.2, fun i hi => ?_⟩
    rw [lastBlock, List.length_nil, chainFrom_zero, ← hwords i hi]
    refine u8to32_congr _ _ _ fun j hj => ?_
    show memcpy S.h 0 (bufferOf initLe) 32 (4 * i + j) = _
    rw [memcpy, if_pos ⟨Nat.zero_le _, by omega⟩, Nat.sub_zero]
  leftover := rfl
  buffer p hp := absurd hp (Nat.not_lt_zero p)

theorem final_absorbed (h : Words) (D : List Byte) (S : State) (hS : Absorbed h D S)
    (hash : Buffer) : ∀ p < 32, final true S hash p = digest (hashFrom h D) p := by
  have hlast := blocks_last_data h D S hS.notLast hS.holds S.buffer S.leftover hS.leftover hS.buffer
  exact storeHash_digest _ _ _ hlast hash

/-- A call of `blake2s_update`. -/
structure Update where
  aligned : Bool
  input : Buffer
  inlen : ℕ

def Update.bytes (c : Update) : List Byte := bytesOf c.input c.inlen

def updates (S : State) (calls : List Update) : State :=
  calls.foldl (fun S c => update c.aligned S c.input c.inlen) S

theorem updates_absorbed (h : Words) (D : List Byte) (S : State) (hS : Absorbed h D S)
    (calls : List Update) : Absorbed h (D ++ calls.flatMap Update.bytes) (updates S calls) := by
  induction calls generalizing D S with
  | nil =>
    rw [List.flatMap_nil, List.append_nil]
    exact hS
  | cons c calls ih =>
    rw [List.flatMap_cons, ← List.append_assoc]
    exact ih _ _ (update_absorbed c.aligned h D S hS c.input c.inlen)

/-- However the calls cut the data, the digest is that of RFC 7693. -/
theorem incremental_digest (S : State) (calls : List Update) (hash : Buffer) :
    bytesOf (final true (updates (init S) calls) hash) 32 =
      blake2s [] (calls.flatMap Update.bytes) := by
  have hall := updates_absorbed (start 0) [] (init S) (init_absorbed S) calls
  exact bytesOf_congr _ _ 32 (final_absorbed _ _ _ hall hash)

/-- The same in one call, for aligned and unaligned data. -/
theorem oneShot_digest (aligned : Bool) (S : State) (hash input : Buffer) (inlen : ℕ) :
    bytesOf (oneShot true aligned S hash input inlen) 32 = blake2s [] (bytesOf input inlen) := by
  let D := bytesOf input inlen
  have hlen : D.length = inlen := length_bytesOf input inlen
  have hD : ∀ p < inlen, bufferOf D p = input p := fun p hp => bufferOf_bytesOf input inlen p hp
  have hinit := init_absorbed S
  obtain ⟨hused, hholds, hrest⟩ := consumeBlocks_spec aligned (init S) hinit.notLast 0 (start 0)
    hinit.holds input inlen
  have hlast : lastBlock D.length = (inlen - 1) / 64 := by rw [lastBlock, hlen]
  have hchain := hholds.congr (chainFrom_input 0 (start 0) input (bufferOf D) _ fun p hp =>
    (hD p (by omega)).symm)
  rw [← hlast, Nat.zero_add] at hchain
  have hdata := blocks_last_data (start 0) D _ (hinit.notLast.congr hrest) hchain
    (fun p => input (p + 64 * lastBlock D.length)) (inlen - 64 * lastBlock D.length)
    (by rw [hlen]) fun p hp => by rw [hD _ (by omega), Nat.add_comm]
  have hcall : oneShot true aligned S hash input inlen = storeHash true
      (blocks (setLast (consumeBlocks aligned (init S) input inlen).1)
        (fun p => input (p + 64 * lastBlock D.length)) (inlen - 64 * lastBlock D.length) 0)
      hash := by
    rw [hlast, ← hused]
    rfl
  rw [hcall]
  exact bytesOf_congr _ _ 32 (storeHash_digest _ _ _ hdata hash)

/-! ### Keys -/

theorem bytesOf_keyMemory (key : Buffer) (keylen : ℕ) (hkey : keylen ≤ 32) :
    bytesOf (memcpy (fun _ => 0) 0 key keylen) 64 = keyBlock (bytesOf key keylen) := by
  have hlen : (keyBlock (bytesOf key keylen)).length = 64 := by
    rw [keyBlock, List.length_append, List.length_replicate, length_bytesOf]
    omega
  have hall := (bytesOf_eq_iff (memcpy (fun _ => 0) 0 key keylen)
    (keyBlock (bytesOf key keylen))).mpr fun p hp => by
      rw [hlen] at hp
      rw [keyBlock, bufferOf_append, length_bytesOf, memcpy]
      by_cases hin : p < keylen
      · rw [if_pos ⟨Nat.zero_le p, by omega⟩, if_pos hin, Nat.sub_zero,
          bufferOf_bytesOf _ _ _ hin]
      · rw [if_neg (by omega), if_neg hin]
        exact (List.getD_replicate _ (by omega)).symm
  rwa [hlen] at hall

theorem keyedInit_absorbed (aligned : Bool) (S : State) (key : Buffer) (keylen : ℕ)
    (hkey : keylen ≤ 32) : ∃ S', keyedInit aligned S key keylen = some S' ∧
      Absorbed (start 0) (keyBlock (bytesOf key keylen)) S' := by
  refine ⟨_, if_neg (Nat.not_lt.mpr hkey), ?_⟩
  have hupdate := update_absorbed aligned (start 0) [] _ (init_absorbed S)
    (memcpy (fun _ => 0) 0 key keylen) 64
  rwa [List.nil_append, bytesOf_keyMemory key keylen hkey] at hupdate

theorem keyed_updates (aligned : Bool) (S : State) (key : Buffer) (keylen : ℕ) (hkey : keylen ≤ 32)
    (calls : List Update) (hash : Buffer) :
    (keyedInit aligned S key keylen).map
      (fun S => bytesOf (final true (updates S calls) hash) 32) =
      some (blake2s [] (keyBlock (bytesOf key keylen) ++ calls.flatMap Update.bytes)) := by
  obtain ⟨S', hinit, hS'⟩ := keyedInit_absorbed aligned S key keylen hkey
  have hall := updates_absorbed (start 0) _ S' hS' calls
  rw [hinit, Option.map_some]
  exact congrArg some (bytesOf_congr _ _ 32 (final_absorbed _ _ _ hall hash))

/-- A keyed digest is the plain digest of the padded key and the data; a key of more than 32
bytes ends the program. -/
theorem keyed_digest (alignedKey aligned : Bool) (S : State) (hash input : Buffer) (inlen : ℕ)
    (key : Buffer) (keylen : ℕ) :
    (keyed true alignedKey aligned S hash input inlen key keylen).map (fun h => bytesOf h 32) =
      if keylen ≤ 32 then
        some (blake2s [] (keyBlock (bytesOf key keylen) ++ bytesOf input inlen))
      else none := by
  by_cases hkey : keylen ≤ 32
  · have hall := keyed_updates alignedKey S key keylen hkey [⟨aligned, input, inlen⟩] hash
    rw [if_pos hkey, keyed, Option.map_map]
    rw [List.flatMap_singleton] at hall
    exact hall
  · have hnone : keyedInit alignedKey S key keylen = none := if_pos (Nat.not_le.mp hkey)
    rw [if_neg hkey, keyed, hnone]
    rfl

/- The RFC has the key length in the parameters. -/
example : blake2s [0x00] [] ≠ blake2s [] (keyBlock [0x00] ++ []) := by decide +kernel

/-! ### HtMAC-MiMC -/

/-- The hash of `htmac128_gmp.c:106-114`, `165-173`. -/
def htmacHash (align : Bool × Bool × Bool) (S : State) (hash npub ad : Buffer) (adlen : ℕ)
    (c : Buffer) (bytes len : ℕ) : Option Buffer :=
  (keyedInit align.1 S npub 15).map fun blake =>
    let blake := if adlen > 0 then update align.2.1 blake ad adlen else blake
    let blake := if len > 0 then update align.2.2 blake c bytes else blake
    final true blake hash

/-- What HtMAC takes for the keyed hash of associated data and blocks. -/
def htmacBlake2s (key data : List Byte) : Buffer := bufferOf (blake2s [] (keyBlock key ++ data))

theorem htmacHash_eq (align : Bool × Bool × Bool) (S : State) (hash npub ad : Buffer) (adlen : ℕ)
    (c : Buffer) (bytes len : ℕ) :
    (htmacHash align S hash npub ad adlen c bytes len).map (fun h => bytesOf h 32) =
      some (bytesOf (htmacBlake2s (bytesOf npub 15)
        (Mimc.hashInput ad adlen c bytes len)) 32) := by
  let calls : List Update :=
    (if 0 < adlen then [⟨align.2.1, ad, adlen⟩] else []) ++
      if 0 < len then [⟨align.2.2, c, bytes⟩] else []
  have hbytes : calls.flatMap Update.bytes = Mimc.hashInput ad adlen c bytes len := by
    rw [List.flatMap_append, Mimc.hashInput]
    split_ifs <;> simp [Update.bytes]
  have hcalls : ∀ S, updates S calls =
      let S := if adlen > 0 then update align.2.1 S ad adlen else S
      if len > 0 then update align.2.2 S c bytes else S := by
    intro S
    rw [updates, List.foldl_append]
    split_ifs <;> rfl
  have hall := keyed_updates align.1 S npub 15 (by decide) calls hash
  have hlen : (blake2s [] (keyBlock (bytesOf npub 15) ++
      Mimc.hashInput ad adlen c bytes len)).length = 32 := length_bytesOf _ _
  rw [hbytes] at hall
  simp only [hcalls] at hall
  rw [htmacHash, Option.map_map, htmacBlake2s]
  have hback := bytesOf_bufferOf (blake2s [] (keyBlock (bytesOf npub 15) ++
      Mimc.hashInput ad adlen c bytes len))
  rw [hlen] at hback
  rw [hback]
  exact hall

end Pobc.Blake2s
