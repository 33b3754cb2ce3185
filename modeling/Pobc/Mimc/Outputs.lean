import Pobc.Mimc.SplitBinding

/-!
# What a MiMC output says about the message

A partial piece is read without padding, so zero bytes at the end of it leave no
trace. HtMAC adds to that, for messages of `2^28` pieces and more: the tag then stands
in the place of a block of ciphertext.
-/

namespace Pobc.Mimc
open Pobc.Loop

theorem bufferOf_past (m : List Byte) (p : ℕ) (hp : 15 * pieces m.length ≤ p) :
    bufferOf m p = 0 := by
  have hle := length_le_pieces m.length
  rw [bufferOf, List.getD_eq_default _ _ (by omega)]

/- A message is given by its pieces, up to zeros at the end of the last one; the same
with one piece `T` left out. -/
theorem pieces_eq_iff (m m' : List Byte) (T : ℕ) (hn : pieces m.length = pieces m'.length) :
    (∀ i < pieces m.length, i ≠ T →
      pieceValue (bufferOf m) m.length i = pieceValue (bufferOf m') m'.length i) ↔
      ∀ p, p / 15 ≠ T → bufferOf m p = bufferOf m' p := by
  have hpiece : ∀ i, pieceValue (bufferOf m) m.length i = pieceValue (bufferOf m') m'.length i ↔
      ∀ j < 15, bufferOf m (15 * i + j) = bufferOf m' (15 * i + j) := by
    intro i
    rw [pieceValue_bufferOf, pieceValue_bufferOf, read_eq_read_iff]
  constructor
  · intro h p hp
    by_cases hi : p / 15 < pieces m.length
    · have hbyte := (hpiece (p / 15)).mp (h (p / 15) hi hp) (p % 15) (Nat.mod_lt p (by decide))
      rwa [Nat.div_add_mod] at hbyte
    · rw [bufferOf_past m p (by omega), bufferOf_past m' p (by omega)]
  · intro h i _ hi
    refine (hpiece i).mpr fun j hj => h _ ?_
    have hdiv : (15 * i + j) / 15 = i := by omega
    rwa [hdiv]

/- Equal blocks hold equal pieces. -/
theorem cipherValue_eq_iff (S : Setup) (m m' : List Byte) (i : ℕ) :
    cipherValue S (bufferOf m) m.length i = cipherValue S (bufferOf m') m'.length i ↔
      pieceValue (bufferOf m) m.length i = pieceValue (bufferOf m') m'.length i := by
  have hle : (256 : ℤ)^15 ≤ prime := by decide
  have hlt := pieceValue_lt (bufferOf m) m.length i
  have hlt' := pieceValue_lt (bufferOf m') m'.length i
  rw [cipherValue, cipherValue, modAdd_right_cancel,
    Int.emod_eq_of_lt (pieceValue_nonneg _ _ _) (by omega),
    Int.emod_eq_of_lt (pieceValue_nonneg _ _ _) (by omega)]

theorem ppmacCiphertext_inj_iff (npub k : Buffer) (ad m m' : List Byte) :
    ppmacCiphertext npub k ad m = ppmacCiphertext npub k ad m' ↔
      pieces m.length = pieces m'.length ∧ ∀ p, bufferOf m p = bufferOf m' p := by
  let S := aeadSetup npub k
  have hlen : (ppmacCiphertext npub k ad m').length = 16 * pieces m'.length + 16 :=
    length_bytesOf _ _
  obtain ⟨_, hblocks, htag⟩ := (ppmacCiphertext_eq_iff npub k ad m' _ _ hlen).mp rfl
  refine (ppmacCiphertext_eq_iff npub k ad m _ _ hlen).trans (and_congr_right fun hn => ?_)
  have htext := pieces_eq_iff m m' (pieces m.length) hn
  have hall : (∀ p, bufferOf m p = bufferOf m' p) ↔ ∀ i < pieces m'.length,
      pieceValue (bufferOf m) m.length i = pieceValue (bufferOf m') m'.length i := by
    constructor
    · intro h i hi
      exact htext.mpr (fun p _ => h p) i (by omega) (by omega)
    · intro h p
      by_cases hp : p / 15 = pieces m.length
      · rw [bufferOf_past m p (by omega), bufferOf_past m' p (by omega)]
      · exact htext.mp (fun i hi _ => h i (by omega)) p hp
  rw [hall]
  constructor
  · rintro ⟨hread, _⟩ i hi
    exact (cipherValue_eq_iff S m m' i).mp ((hread i hi).symm.trans (hblocks i hi))
  · intro h
    have hvalue : ∀ i < pieces m'.length, cipherValue S (bufferOf m) m.length i =
        cipherValue S (bufferOf m') m'.length i := fun i hi =>
      (cipherValue_eq_iff S m m' i).mpr (h i hi)
    refine ⟨fun i hi => (hblocks i hi).trans (hvalue i hi).symm, ?_⟩
    rw [htag, macValues_congr _ _ _ _ _ hvalue]

/-! ### HtMAC -/

section Htmac

variable (blake2s : List Byte → List Byte → Buffer) (c₀ npub k : Buffer) (ad : List Byte)

def htmacCiphertext (m : List Byte) : List Byte :=
  bytesOf (htmacEncrypt blake2s c₀ (bufferOf m) m.length (bufferOf ad) ad.length npub k).c
    (16 * pieces m.length + 16)

def htmacTagFor (m : List Byte) : ℤ :=
  let c := ctrCiphertext npub k m
  htmacTagOf blake2s npub k (ad ++ c.take (c.length % 2^32))

theorem htmacTagOf_fits (hashed : List Byte) :
    0 ≤ htmacTagOf blake2s npub k hashed ∧ (htmacTagOf blake2s npub k hashed).natAbs < 256^16 :=
  ⟨mimc128Enc_nonneg _ _,
    natAbs_lt_of_lt_prime _ (mimc128Enc_nonneg _ _) (mimc128Enc_lt _ _)⟩

/- The blocks of the output, with the tag where its position wraps to. -/
theorem blockValue_htmacCiphertext (m : List Byte) (i : ℕ) (hi : i ≤ pieces m.length) :
    blockValue (htmacCiphertext blake2s c₀ npub k ad m) i =
      if i = pieces m.length % 2^28 then htmacTagFor blake2s npub k ad m
      else if i < pieces m.length then cipherValue (aeadSetup npub k) (bufferOf m) m.length i
      else read c₀ (16 * i) 16 := by
  let v := cipherValue (aeadSetup npub k) (bufferOf m) m.length
  let T := pieces m.length % 2^28
  let tag := htmacTagFor blake2s npub k ad m
  let blocks := writeBlocks 16 (pieces m.length) v c₀
  have hfits : ∀ i < pieces m.length, 0 ≤ v i ∧ (v i).natAbs < 256^16 :=
    fun i _ => cipherValue_fits _ _ _ i
  obtain ⟨htag, htagfits⟩ : 0 ≤ tag ∧ tag.natAbs < 256^16 := htmacTagOf_fits blake2s npub k _
  have hout : (htmacEncrypt blake2s c₀ (bufferOf m) m.length (bufferOf ad) ad.length npub k).c =
      writeBytes blocks (16 * T) 16 (leByte tag.natAbs) := by
    have hhashed := htmacEncrypt_hashed npub k m blake2s c₀ ad
    rw [htmacEncrypt_eq] at hhashed ⊢
    simp only at hhashed
    simp only [hhashed]
    exact write_of_lt _ _ _ _ htagfits
  have hbyte : ∀ j < 16, bufferOf (htmacCiphertext blake2s c₀ npub k ad m) (16 * i + j) =
      if i = T then leByte tag.natAbs j else blocks (16 * i + j) := by
    intro j hj
    rw [htmacCiphertext, bufferOf_bytesOf _ _ _ (by omega), hout, writeBytes]
    by_cases heq : i = T
    · have hoff : 16 * i + j - 16 * T = j := by omega
      rw [if_pos heq, if_pos (by omega), hoff]
    · rw [if_neg heq, if_neg (by omega)]
  by_cases heq : i = T
  · rw [if_pos heq]
    have hread := (read_eq_iff (bufferOf (htmacCiphertext blake2s c₀ npub k ad m)) (16 * i) 16 _
      htagfits).mpr fun j hj => by rw [hbyte j hj, if_pos heq]
    rwa [Int.natAbs_of_nonneg htag] at hread
  · have hread : blockValue (htmacCiphertext blake2s c₀ npub k ad m) i = read blocks (16 * i) 16 :=
      read_congr _ _ _ _ _ fun j hj => by rw [hbyte j hj, if_neg heq]
    rw [if_neg heq, hread]
    split_ifs with hlt
    · exact (writeBlocks_eq_iff 16 (pieces m.length) v c₀ (by decide) hfits blocks).mp
        (fun _ _ => rfl) i hlt
    · refine read_congr _ _ _ _ _ fun j _ => ?_
      exact (writeBlocks_apply 16 (pieces m.length) v c₀ (by decide) (fun i hi => (hfits i hi).2)
        _).trans (if_neg (by omega))

/- The digest sees the blocks before the place of the tag. -/
theorem htmacTagFor_congr (m m' : List Byte) (hn : pieces m.length = pieces m'.length)
    (h : ∀ i < pieces m.length % 2^28, cipherValue (aeadSetup npub k) (bufferOf m) m.length i =
      cipherValue (aeadSetup npub k) (bufferOf m') m'.length i) :
    htmacTagFor blake2s npub k ad m = htmacTagFor blake2s npub k ad m' := by
  let T := pieces m.length % 2^28
  have hT : T ≤ pieces m.length := Nat.mod_le _ _
  have hlength : ∀ m : List Byte, (ctrCiphertext npub k m).length % 2^32 =
      16 * (pieces m.length % 2^28) := by
    intro m
    rw [length_ctrCiphertext]
    omega
  have htake : (ctrCiphertext npub k m).take (16 * T) =
      (ctrCiphertext npub k m').take (16 * T) := by
    refine (blocks_eq_iff _ _ T T ?_ ?_).mp (List.map_congr_left fun i hi => ?_)
    · rw [List.length_take, length_ctrCiphertext]
      omega
    · rw [List.length_take, length_ctrCiphertext]
      omega
    · have hi' := List.mem_range.mp hi
      rw [blockValue_take _ _ i (by omega), blockValue_take _ _ i (by omega),
        blockValue_ctrCiphertext npub k m i (by omega),
        blockValue_ctrCiphertext npub k m' i (by omega)]
      exact h i hi'
  simp only [htmacTagFor]
  rw [hlength, hlength, ← hn, htake]

theorem htmacCiphertext_inj_iff (m m' : List Byte) :
    htmacCiphertext blake2s c₀ npub k ad m = htmacCiphertext blake2s c₀ npub k ad m' ↔
      pieces m.length = pieces m'.length ∧
        ∀ p, p / 15 ≠ pieces m.length % 2^28 → bufferOf m p = bufferOf m' p := by
  have hlength : ∀ m : List Byte, (htmacCiphertext blake2s c₀ npub k ad m).length =
      16 * (pieces m.length + 1) := fun m => length_bytesOf _ _
  have hT : pieces m.length % 2^28 ≤ pieces m.length := Nat.mod_le _ _
  by_cases hn : pieces m.length = pieces m'.length
  · rw [and_iff_right hn, ← pieces_eq_iff m m' _ hn]
    have hvalues : (∀ i < pieces m.length, i ≠ pieces m.length % 2^28 →
        pieceValue (bufferOf m) m.length i = pieceValue (bufferOf m') m'.length i) ↔
        ∀ i < pieces m.length, i ≠ pieces m.length % 2^28 →
          cipherValue (aeadSetup npub k) (bufferOf m) m.length i =
            cipherValue (aeadSetup npub k) (bufferOf m') m'.length i :=
      forall_congr' fun i => imp_congr_right fun _ => imp_congr_right fun _ =>
        (cipherValue_eq_iff _ m m' i).symm
    rw [hvalues, ← blocks_eq_iff _ _ _ _ (hlength m) (hlength m'), ← hn, List.map_inj_left]
    constructor
    · intro h i hi hne
      have hblock := h i (List.mem_range.mpr (by omega))
      rw [blockValue_htmacCiphertext _ _ _ _ _ m i (by omega),
        blockValue_htmacCiphertext _ _ _ _ _ m' i (by omega), ← hn, if_neg hne, if_neg hne,
        if_pos hi, if_pos hi] at hblock
      exact hblock
    · intro h i hi
      have hi' := List.mem_range.mp hi
      have htag := htmacTagFor_congr blake2s npub k ad m m' hn fun i hi => h i (by omega) (by omega)
      rw [blockValue_htmacCiphertext _ _ _ _ _ m i (by omega),
        blockValue_htmacCiphertext _ _ _ _ _ m' i (by omega), ← hn, htag]
      split_ifs with hT hlt
      · rfl
      · exact h i hlt hT
      · rfl
  · refine iff_of_false (fun h => hn ?_) fun h => hn h.1
    have hlen := congrArg List.length h
    rw [hlength, hlength] at hlen
    omega

end Htmac

/-- For every key, nonce and associated data, two messages have different outputs
exactly when they differ in the number of pieces or in a byte, where the bytes after
the last count as zeros; in HtMAC, a byte outside the piece in whose place the tag is
written when there are `2^28` pieces or more. -/
theorem mimc_outputs_distinct_iff (blake2s : List Byte → List Byte → Buffer) (c₀ npub k : Buffer)
    (ad m m' : List Byte) :
    (ppmacCiphertext npub k ad m ≠ ppmacCiphertext npub k ad m' ↔
      ¬ (pieces m.length = pieces m'.length ∧ ∀ p, bufferOf m p = bufferOf m' p)) ∧
    (htmacCiphertext blake2s c₀ npub k ad m ≠ htmacCiphertext blake2s c₀ npub k ad m' ↔
      ¬ (pieces m.length = pieces m'.length ∧
        ∀ p, p / 15 ≠ pieces m.length % 2^28 → bufferOf m p = bufferOf m' p)) :=
  ⟨not_congr (ppmacCiphertext_inj_iff npub k ad m m'),
    not_congr (htmacCiphertext_inj_iff blake2s c₀ npub k ad m m')⟩

/- One zero byte and two; and in HtMAC two messages of `2^28` pieces that differ in their
first byte. -/
theorem mimc_outputs_collide :
    let zero : Buffer := fun _ => 0
    let hash : List Byte → List Byte → Buffer := fun _ _ => zero
    let zeros : List Byte := List.replicate (15 * 2^28 - 1) 0
    ppmacCiphertext zero zero [] [0] = ppmacCiphertext zero zero [] [0, 0] ∧
      htmacCiphertext hash zero zero zero [] [0] = htmacCiphertext hash zero zero zero [] [0, 0] ∧
      htmacCiphertext hash zero zero zero [] (0 :: zeros) =
        htmacCiphertext hash zero zero zero [] (1 :: zeros) := by
  intro zero hash zeros
  have hzero : ∀ p, bufferOf [0] p = bufferOf [0, 0] p := by
    intro p
    match p with
    | 0 => rfl
    | 1 => rfl
    | p + 2 => rfl
  refine ⟨?_, ?_, ?_⟩
  · rw [ppmacCiphertext_inj_iff]
    exact ⟨by decide, hzero⟩
  · rw [htmacCiphertext_inj_iff]
    exact ⟨by decide, fun p _ => hzero p⟩
  · have hlength : ∀ b : Byte, (b :: zeros).length = 15 * 2^28 := by
      intro b
      rw [List.length_cons, List.length_replicate]
      exact Nat.sub_add_cancel (by decide)
    have hpieces : pieces (15 * 2^28) = 2^28 := by decide
    rw [htmacCiphertext_inj_iff, hlength, hlength, hpieces]
    refine ⟨rfl, fun p hp => ?_⟩
    cases p with
    | zero => exact absurd rfl hp
    | succ p => rw [bufferOf, bufferOf, List.getD_cons_succ, List.getD_cons_succ]

end Pobc.Mimc
