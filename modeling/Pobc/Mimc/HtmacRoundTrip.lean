import Pobc.Mimc.Outputs

/-!
# HtMAC-MiMC decryption of what encryption produces

Encryption keeps the place of its tag in 32 bits, decryption looks for it at the end
of its input. Up to `2^28 - 1` blocks the two are the same place; from then on the tag
stands on a block of the ciphertext, and behind the blocks is whatever the buffer held.
-/

namespace Pobc.Mimc
open Pobc.Loop

section RoundTrip

variable (blake2s : List Byte → List Byte → Buffer) (npub k : Buffer) (ad m : List Byte)

/-- In an output buffer that held `c₀` the blocks stand in front and the tag right behind
them, and decrypting these bytes into a buffer that held `m₀` gives the message followed
by zeros. -/
def HtmacRoundTrips (c₀ m₀ : Buffer) : Prop :=
  let n := pieces m.length
  let enc := htmacEncrypt blake2s c₀ (bufferOf m) m.length (bufferOf ad) ad.length npub k
  (∀ i < n, read enc.c (16 * i) 16 = cipherValue (aeadSetup npub k) (bufferOf m) m.length i) ∧
  read enc.c (16 * n) 16 = htmacTagOf blake2s npub k (ad ++ bytesOf enc.c (16 * n)) ∧
  ∃ dec, htmacDecrypt blake2s m₀ enc.c (16 * n + 16) (bufferOf ad) ad.length npub k = some dec ∧
    dec.ret = 0 ∧ bytesOf dec.m (15 * n) = m ++ List.replicate (15 * n - m.length) 0

/- The output buffer block by block. -/
theorem read_htmacEncrypt (c₀ : Buffer) (i : ℕ) (hi : i ≤ pieces m.length) :
    let enc := htmacEncrypt blake2s c₀ (bufferOf m) m.length (bufferOf ad) ad.length npub k
    read enc.c (16 * i) 16 =
      if i = pieces m.length % 2^28 then htmacTagFor blake2s npub k ad m
      else if i < pieces m.length then cipherValue (aeadSetup npub k) (bufferOf m) m.length i
      else read c₀ (16 * i) 16 := by
  intro enc
  rw [← blockValue_htmacCiphertext blake2s c₀ npub k ad m i hi, blockValue, htmacCiphertext]
  exact read_congr _ _ _ _ _ fun j hj => (bufferOf_bytesOf _ _ _ (by omega)).symm

theorem htmacRoundTrips_of_lt (c₀ m₀ : Buffer) (hn : pieces m.length < 2^28) :
    HtmacRoundTrips blake2s npub k ad m c₀ m₀ := by
  let n := pieces m.length
  let enc := htmacEncrypt blake2s c₀ (bufferOf m) m.length (bufferOf ad) ad.length npub k
  have hplace : n % 2^28 = n := Nat.mod_eq_of_lt hn
  have hblocks : ∀ i < n, read enc.c (16 * i) 16 =
      cipherValue (aeadSetup npub k) (bufferOf m) m.length i := by
    intro i hi
    have hne : i ≠ n % 2^28 := by omega
    have hread := read_htmacEncrypt blake2s npub k ad m c₀ i (Nat.le_of_lt hi)
    simp only at hread
    rwa [if_neg hne, if_pos hi] at hread
  have hbytes : bytesOf enc.c (16 * n) = ctrCiphertext npub k m := by
    refine (blocks_eq_iff _ _ n n (length_bytesOf _ _) (length_ctrCiphertext npub k m)).mp ?_
    refine List.map_congr_left fun i hi => ?_
    have hi' := List.mem_range.mp hi
    rw [blockValue_ctrCiphertext npub k m i hi', ← hblocks i hi']
    exact read_congr _ _ _ _ _ fun j hj => bufferOf_bytesOf _ _ _ (by omega)
  -- all of the ciphertext is hashed
  have htag : read enc.c (16 * n) 16 =
      htmacTagOf blake2s npub k (ad ++ bytesOf enc.c (16 * n)) := by
    have hread := read_htmacEncrypt blake2s npub k ad m c₀ n (Nat.le_refl n)
    have hlen : (ctrCiphertext npub k m).length % 2^32 = (ctrCiphertext npub k m).length := by
      rw [length_ctrCiphertext]
      exact Nat.mod_eq_of_lt (by omega)
    simp only at hread
    rw [if_pos hplace.symm, htmacTagFor, hlen, List.take_length, ← hbytes] at hread
    exact hread
  let out := writeBlocks 15 n
    (fun i => modSub (read enc.c (16 * i) 16) (keystream (aeadSetup npub k) i)) m₀
  have htext : bytesOf out (15 * n) = m ++ List.replicate (15 * n - m.length) 0 :=
    (unmasked_text _ m₀ enc.c m hblocks).1
  have hdec : htmacDecrypt blake2s m₀ enc.c (16 * n + 16) (bufferOf ad) ad.length npub k =
      some ⟨0, out, ad ++ bytesOf enc.c (16 * n)⟩ := by
    rw [htmacDecrypt_eq, bytesOf_bufferOf, if_pos htag]
  exact ⟨hblocks, htag, ⟨0, out, ad ++ bytesOf enc.c (16 * n)⟩, hdec, rfl, htext⟩

/- Behind the blocks is what the buffer held. -/
theorem read_behind_blocks (c₀ : Buffer) (hn : 2^28 ≤ pieces m.length) :
    let enc := htmacEncrypt blake2s c₀ (bufferOf m) m.length (bufferOf ad) ad.length npub k
    read enc.c (16 * pieces m.length) 16 = read c₀ (16 * pieces m.length) 16 := by
  intro enc
  have hplace : pieces m.length ≠ pieces m.length % 2^28 := by omega
  have hread := read_htmacEncrypt blake2s npub k ad m c₀ _ (Nat.le_refl _)
  simp only at hread
  rwa [if_neg hplace, if_neg (Nat.lt_irrefl _)] at hread

theorem not_htmacRoundTrips (m₀ : Buffer) (hn : 2^28 ≤ pieces m.length) :
    ¬ HtmacRoundTrips blake2s npub k ad m (fun _ => 0xff) m₀ := by
  intro h
  let n := pieces m.length
  let enc := htmacEncrypt blake2s (fun _ => 0xff) (bufferOf m) m.length (bufferOf ad) ad.length
    npub k
  have hbehind := read_behind_blocks blake2s npub k ad m (fun _ => 0xff) hn
  have hones : read (fun _ => 0xff) (16 * n) 16 = 2^128 - 1 := by
    have hread : read (fun _ => 0xff) (16 * n) 16 = read (fun _ => 0xff) 0 16 :=
      read_congr _ _ _ _ _ fun _ _ => rfl
    rw [hread]
    decide
  have hlt : htmacTagOf blake2s npub k (ad ++ bytesOf enc.c (16 * n)) < prime := mimc128Enc_lt _ _
  have htag : read enc.c (16 * n) 16 =
      htmacTagOf blake2s npub k (ad ++ bytesOf enc.c (16 * n)) := h.2.1
  have hprime : prime < 2^128 - 1 := by decide
  rw [← htag] at hlt
  simp only at hbehind
  rw [hbehind, hones] at hlt
  omega

end RoundTrip

/-- For every hash, nonce, key, associated data and message the round trip works, in
whatever buffers, exactly when the message has fewer than `2^28` pieces. -/
theorem htmac_round_trip_iff (blake2s : List Byte → List Byte → Buffer) (npub k : Buffer)
    (ad m : List Byte) :
    (∀ c₀ m₀, HtmacRoundTrips blake2s npub k ad m c₀ m₀) ↔ pieces m.length < 2^28 := by
  constructor
  · intro h
    by_contra hge
    exact not_htmacRoundTrips blake2s npub k ad m (fun _ => 0) (Nat.not_lt.mp hge) (h _ _)
  · intro hn c₀ m₀
    exact htmacRoundTrips_of_lt blake2s npub k ad m c₀ m₀ hn

/- `15 * 2^28` zero bytes. -/
theorem htmac_tag_misplaced :
    let zero : Buffer := fun _ => 0
    let m : List Byte := List.replicate (15 * 2^28) 0
    16 * pieces m.length + 16 < 2^64 ∧
      ¬ HtmacRoundTrips (fun _ _ => zero) zero zero [] m (fun _ => 0xff) zero := by
  intro zero m
  have hpieces : pieces m.length = 2^28 := by
    simp only [m, List.length_replicate]
    decide
  constructor
  · rw [hpieces]
    decide
  · exact not_htmacRoundTrips (fun _ _ => zero) zero zero [] m zero hpieces.ge

end Pobc.Mimc
