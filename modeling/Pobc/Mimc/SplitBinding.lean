import Pobc.Mimc.Htmac

/-!
# What the MiMC tags say about the split

Nothing in the input of either tag marks where the associated data ends. PPMAC fills a
piece up with a zero byte before it counts as a block, so a block of ciphertext can be
a piece of associated data; HtMAC hashes the two byte strings one behind the other.
-/

namespace Pobc.Mimc
open Pobc.Loop

/-- Associated data as the blocks it counts for: the pieces of 15 bytes, each one
filled up with zeros to 16. -/
def widen (ad : List Byte) : List Byte :=
  bytesOf (fun p => if p % 16 < 15 then bufferOf ad (15 * (p / 16) + p % 16) else 0)
    (16 * pieces ad.length)

/-- The two pairs are one text cut at two places: bytes `x` that stand at the front of
one ciphertext stand at the end of the other associated data. -/
def SplitMoved (encode : List Byte → List Byte) (ad c ad' c' : List Byte) : Prop :=
  (∃ x, encode ad' = encode ad ++ x ∧ c = x ++ c') ∨ ∃ x, encode ad = encode ad' ++ x ∧ c' = x ++ c

theorem append_eq_append_iff_splitMoved (encode : List Byte → List Byte)
    (ad c ad' c' : List Byte) :
    encode ad ++ c = encode ad' ++ c' ↔ SplitMoved encode ad c ad' c' :=
  List.append_eq_append_iff

/-! ### Blocks of a byte string -/

def blockValue (c : List Byte) (i : ℕ) : ℤ := read (bufferOf c) (16 * i) 16

theorem blockValue_nonneg (c : List Byte) (i : ℕ) : 0 ≤ blockValue c i := read_nonneg _ _ _

theorem blockValue_append_left (c t : List Byte) (i : ℕ) (hi : 16 * i + 16 ≤ c.length) :
    blockValue (c ++ t) i = blockValue c i :=
  read_congr _ _ _ _ _ fun _ _ => List.getD_append _ _ _ _ (by omega)

theorem blockValue_append_right (c t : List Byte) (n i : ℕ) (hc : c.length = 16 * n) :
    blockValue (c ++ t) (n + i) = blockValue t i := by
  refine read_congr _ _ _ _ _ fun j _ => ?_
  have hle : c.length ≤ 16 * (n + i) + j := by omega
  have hoff : 16 * (n + i) + j - c.length = 16 * i + j := by omega
  rw [bufferOf, List.getD_append_right _ _ _ _ hle, hoff, bufferOf]

theorem blockValue_take (c : List Byte) (n i : ℕ) (hi : 16 * i + 16 ≤ n) :
    blockValue (c.take n) i = blockValue c i := by
  refine read_congr _ _ _ _ _ fun j hj => ?_
  simp only [bufferOf, List.getD_eq_getElem?_getD]
  rw [List.getElem?_take_of_lt (by omega)]

theorem blocks_eq_iff (l l' : List Byte) (n n' : ℕ) (hl : l.length = 16 * n)
    (hl' : l'.length = 16 * n') :
    (List.range n).map (blockValue l) = (List.range n').map (blockValue l') ↔ l = l' := by
  constructor
  · intro h
    have hn : n = n' := by
      have hlen := congrArg List.length h
      rwa [List.length_map, List.length_map, List.length_range, List.length_range] at hlen
    rw [← hn] at h hl'
    rw [← bytesOf_bufferOf l, ← bytesOf_bufferOf l', hl, hl']
    refine bytesOf_congr _ _ _ fun p hp => ?_
    have hblock := List.map_inj_left.mp h (p / 16) (List.mem_range.mpr (by omega))
    have hbyte := (read_eq_read_iff _ _ _ _ 16).mp hblock (p % 16) (Nat.mod_lt p (by decide))
    rwa [Nat.div_add_mod] at hbyte
  · rintro rfl
    have hn : n = n' := by omega
    rw [hn]

theorem length_widen (ad : List Byte) : (widen ad).length = 16 * pieces ad.length :=
  length_bytesOf _ _

/- A piece filled up with zeros is the same number. -/
theorem blockValue_widen (ad : List Byte) (i : ℕ) (hi : i < pieces ad.length) :
    blockValue (widen ad) i = pieceValue (bufferOf ad) ad.length i := by
  have hbyte : ∀ j < 16, bufferOf (widen ad) (16 * i + j) =
      if j < 15 then bufferOf ad (15 * i + j) else 0 := by
    intro j hj
    have hdiv : (16 * i + j) / 16 = i := by omega
    have hmod : (16 * i + j) % 16 = j := by omega
    rw [widen, bufferOf_bytesOf _ _ _ (by omega), hdiv, hmod]
  rw [blockValue, read_zeros _ _ 15 16 (by decide), pieceValue_bufferOf]
  · refine read_congr _ _ _ _ _ fun j hj => ?_
    rw [hbyte j (by omega), if_pos hj]
  · intro j hj hj15
    rw [hbyte j hj, if_neg (by omega)]

/- The authenticated values are the blocks of one byte string. -/
theorem macValues_eq_blocks (ad c : List Byte) (n : ℕ) :
    macValues (bufferOf ad) ad.length n (blockValue c) =
      (List.range (pieces ad.length + n)).map (blockValue (widen ad ++ c)) := by
  rw [macValues, adValues, List.range_add, List.map_append, List.map_map]
  refine congrArg₂ List.append (List.map_congr_left fun i hi => ?_)
    (List.map_congr_left fun i _ => ?_)
  · have hi' := List.mem_range.mp hi
    rw [blockValue_append_left _ _ _ (by rw [length_widen]; omega), blockValue_widen ad i hi']
  · exact (blockValue_append_right (widen ad) c _ i (length_widen ad)).symm

theorem macValues_eq_iff (ad c ad' c' : List Byte) (n n' : ℕ) (hc : c.length = 16 * n)
    (hc' : c'.length = 16 * n') :
    macValues (bufferOf ad) ad.length n (blockValue c) =
      macValues (bufferOf ad') ad'.length n' (blockValue c') ↔ SplitMoved widen ad c ad' c' := by
  rw [macValues_eq_blocks, macValues_eq_blocks, blocks_eq_iff, append_eq_append_iff_splitMoved]
  · rw [List.length_append, length_widen, hc, Nat.mul_add]
  · rw [List.length_append, length_widen, hc', Nat.mul_add]

/-! ### The elements PPMAC enciphers -/

/- Numbers below the prime are told apart by the elements that are enciphered. -/
theorem inputs_eq_iff (S : Setup) (values values' : List ℤ)
    (hv : ∀ x ∈ values, 0 ≤ x ∧ x < prime) (hv' : ∀ x ∈ values', 0 ≤ x ∧ x < prime) :
    (macRun S values).inputs = (macRun S values').inputs ↔ values = values' := by
  constructor
  · intro h
    rw [macRun_inputs, macRun_inputs] at h
    have hlen : values.length = values'.length := by
      have hlen := congrArg List.length h
      simpa only [List.length_map, List.length_zipIdx] using hlen
    refine List.ext_getElem hlen fun i hi hi' => ?_
    have hget := congrArg (fun l => l[i]?) h
    simp only [List.getElem?_map, List.getElem?_zipIdx, List.getElem?_eq_getElem hi,
      List.getElem?_eq_getElem hi', Option.map_some, Option.some.injEq] at hget
    have hmod := (modAdd_right_cancel _ _ _).mp hget
    obtain ⟨hx, hxp⟩ := hv _ (List.getElem_mem hi)
    obtain ⟨hx', hxp'⟩ := hv' _ (List.getElem_mem hi')
    rwa [Int.emod_eq_of_lt hx hxp, Int.emod_eq_of_lt hx' hxp'] at hmod
  · intro h
    rw [h]

theorem macValues_canonical (ad : Buffer) (adlen n : ℕ) (v : ℕ → ℤ)
    (hv : ∀ i < n, 0 ≤ v i ∧ v i < prime) :
    ∀ x ∈ macValues ad adlen n v, 0 ≤ x ∧ x < prime := by
  intro x hx
  rcases List.mem_append.mp hx with hx | hx
  · obtain ⟨i, _, rfl⟩ := List.mem_map.mp hx
    have hle : (256 : ℤ)^15 ≤ prime := by decide
    have hlt := pieceValue_lt ad adlen i
    exact ⟨pieceValue_nonneg ad adlen i, by omega⟩
  · obtain ⟨i, hi, rfl⟩ := List.mem_map.mp hx
    exact hv i (List.mem_range.mp hi)

theorem macInputs_eq_iff (S : Setup) (ad c ad' c' : List Byte) (n n' : ℕ)
    (hc : c.length = 16 * n) (hc' : c'.length = 16 * n')
    (hcan : ∀ i < n, blockValue c i < prime) (hcan' : ∀ i < n', blockValue c' i < prime) :
    (macRun S (macValues (bufferOf ad) ad.length n (blockValue c))).inputs =
      (macRun S (macValues (bufferOf ad') ad'.length n' (blockValue c'))).inputs ↔
      SplitMoved widen ad c ad' c' := by
  rw [inputs_eq_iff S _ _
    (macValues_canonical _ _ n _ fun i hi => ⟨blockValue_nonneg c i, hcan i hi⟩)
    (macValues_canonical _ _ n' _ fun i hi => ⟨blockValue_nonneg c' i, hcan' i hi⟩),
    macValues_eq_iff ad c ad' c' n n' hc hc']

/-! ### Decryption -/

theorem ppmacDecrypt_append (m₀ npub k : Buffer) (ad c t : List Byte) (n : ℕ)
    (hc : c.length = 16 * n) (ht : t.length = 16) :
    let S := aeadSetup npub k
    let values := macValues (bufferOf ad) ad.length n (blockValue c)
    let dec := ppmacDecrypt m₀ (bufferOf (c ++ t)) (c ++ t).length (bufferOf ad) ad.length npub k
    dec.ret = (if tagOf S values = blockValue t 0 then 0 else -1) ∧
      dec.inputs = (macRun S values).inputs := by
  intro S values dec
  have hlen : (c ++ t).length = 16 * n + 16 := by rw [List.length_append, hc, ht]
  have hvalues : macValues (bufferOf ad) ad.length n
      (fun i => read (bufferOf (c ++ t)) (16 * i) 16) = values :=
    macValues_congr _ _ _ _ _ fun i hi => blockValue_append_left c t i (by omega)
  have htag : read (bufferOf (c ++ t)) (16 * n) 16 = blockValue t 0 :=
    blockValue_append_right c t n 0 hc
  have hdec : dec = ⟨if tagOf S values = blockValue t 0 then 0 else -1,
      writeBlocks 15 n (fun i => modSub (read (bufferOf (c ++ t)) (16 * i) 16) (keystream S i)) m₀,
      (macRun S values).inputs⟩ := by
    rw [← hvalues, ← htag]
    simp only [dec]
    rw [hlen]
    exact ppmacDecrypt_eq m₀ (bufferOf (c ++ t)) n (bufferOf ad) ad.length npub k
  simp only [hdec, and_self]

theorem htmacDecrypt_append (blake2s : List Byte → List Byte → Buffer) (m₀ npub k : Buffer)
    (ad c t : List Byte) (n : ℕ) (hc : c.length = 16 * n) (ht : t.length = 16) :
    let dec := htmacDecrypt blake2s m₀ (bufferOf (c ++ t)) (c ++ t).length (bufferOf ad) ad.length
      npub k
    dec.map HtmacDecrypted.ret =
        some (if blockValue t 0 = htmacTagOf blake2s npub k (ad ++ c) then 0 else -1) ∧
      dec.map HtmacDecrypted.hashed = some (ad ++ c) := by
  intro dec
  have hlen : (c ++ t).length = 16 * n + 16 := by rw [List.length_append, hc, ht]
  have htag : read (bufferOf (c ++ t)) (16 * n) 16 = blockValue t 0 :=
    blockValue_append_right c t n 0 hc
  have hblocks : bytesOf (bufferOf (c ++ t)) (16 * n) = c := by
    have hbytes := bytesOf_congr (bufferOf (c ++ t)) (bufferOf c) c.length fun p hp =>
      List.getD_append _ _ _ _ hp
    rw [← hc, hbytes, bytesOf_bufferOf]
  have hdec : dec = some ⟨if blockValue t 0 = htmacTagOf blake2s npub k (ad ++ c) then 0 else -1,
      writeBlocks 15 n (fun i => modSub (read (bufferOf (c ++ t)) (16 * i) 16)
        (keystream (aeadSetup npub k) i)) m₀, ad ++ c⟩ := by
    have h := htmacDecrypt_eq blake2s m₀ (bufferOf (c ++ t)) n (bufferOf ad) ad.length npub k
    rwa [← hlen, htag, hblocks, bytesOf_bufferOf] at h
  simp only [hdec, Option.map_some, and_self]

section Decryption

variable (m₀ npub k : Buffer) (ad c ad' c' t : List Byte) (n n' : ℕ) (hc : c.length = 16 * n)
  (hc' : c'.length = 16 * n') (ht : t.length = 16)

include hc hc' ht

theorem ppmacDecrypt_split_iff (hcan : ∀ i < n, blockValue c i < prime)
    (hcan' : ∀ i < n', blockValue c' i < prime) :
    (ppmacDecrypt m₀ (bufferOf (c ++ t)) (c ++ t).length (bufferOf ad) ad.length npub k).inputs =
      (ppmacDecrypt m₀ (bufferOf (c' ++ t)) (c' ++ t).length (bufferOf ad') ad'.length npub
        k).inputs ↔ SplitMoved widen ad c ad' c' := by
  rw [(ppmacDecrypt_append m₀ npub k ad c t n hc ht).2,
    (ppmacDecrypt_append m₀ npub k ad' c' t n' hc' ht).2,
    macInputs_eq_iff _ ad c ad' c' n n' hc hc' hcan hcan']

theorem ppmacDecrypt_ret_of_split (hmoved : SplitMoved widen ad c ad' c') :
    (ppmacDecrypt m₀ (bufferOf (c ++ t)) (c ++ t).length (bufferOf ad) ad.length npub k).ret =
      (ppmacDecrypt m₀ (bufferOf (c' ++ t)) (c' ++ t).length (bufferOf ad') ad'.length npub
        k).ret := by
  rw [(ppmacDecrypt_append m₀ npub k ad c t n hc ht).1,
    (ppmacDecrypt_append m₀ npub k ad' c' t n' hc' ht).1,
    (macValues_eq_iff ad c ad' c' n n' hc hc').mpr hmoved]

variable (blake2s : List Byte → List Byte → Buffer)

theorem htmacDecrypt_split_iff :
    (htmacDecrypt blake2s m₀ (bufferOf (c ++ t)) (c ++ t).length (bufferOf ad) ad.length npub
      k).map HtmacDecrypted.hashed =
      (htmacDecrypt blake2s m₀ (bufferOf (c' ++ t)) (c' ++ t).length (bufferOf ad') ad'.length npub
        k).map HtmacDecrypted.hashed ↔ SplitMoved id ad c ad' c' := by
  rw [(htmacDecrypt_append blake2s m₀ npub k ad c t n hc ht).2,
    (htmacDecrypt_append blake2s m₀ npub k ad' c' t n' hc' ht).2, Option.some_inj]
  exact append_eq_append_iff_splitMoved id ad c ad' c'

theorem htmacDecrypt_ret_of_split (hmoved : SplitMoved id ad c ad' c') :
    (htmacDecrypt blake2s m₀ (bufferOf (c ++ t)) (c ++ t).length (bufferOf ad) ad.length npub
      k).map HtmacDecrypted.ret =
      (htmacDecrypt blake2s m₀ (bufferOf (c' ++ t)) (c' ++ t).length (bufferOf ad') ad'.length npub
        k).map HtmacDecrypted.ret := by
  have happend : ad ++ c = ad' ++ c' := (append_eq_append_iff_splitMoved id ad c ad' c').mpr hmoved
  rw [(htmacDecrypt_append blake2s m₀ npub k ad c t n hc ht).1,
    (htmacDecrypt_append blake2s m₀ npub k ad' c' t n' hc' ht).1, happend]

end Decryption

/-! ### Encryption -/

/-- The blocks `ctr` writes for a message. -/
def ctrCiphertext (npub k : Buffer) (m : List Byte) : List Byte :=
  bytesOf (ctr (fun _ => 0) (bufferOf m) m.length npub (mimc128Enc (read k 0 16) 1) (read k 0 16)
    true) (16 * pieces m.length)

section Encryption

variable (npub k : Buffer) (m : List Byte)

theorem length_ctrCiphertext : (ctrCiphertext npub k m).length = 16 * pieces m.length :=
  length_bytesOf _ _

/- What stood in the output buffer before does not matter. -/
theorem ctrCiphertext_eq (c₀ : Buffer) : ctrCiphertext npub k m =
    bytesOf (writeBlocks 16 (pieces m.length)
      (cipherValue (aeadSetup npub k) (bufferOf m) m.length) c₀) (16 * pieces m.length) := by
  have hctr := ctr_enc npub k (fun _ => 0) (bufferOf m) m.length
  have hfits : ∀ i < pieces m.length,
      (cipherValue (aeadSetup npub k) (bufferOf m) m.length i).natAbs < 256^16 :=
    fun i _ => (cipherValue_fits _ _ _ i).2
  refine bytesOf_congr _ _ _ fun p hp => ?_
  refine (congrFun hctr p).trans ?_
  rw [writeBlocks_apply 16 _ _ _ (by decide) hfits, writeBlocks_apply 16 _ _ _ (by decide) hfits,
    if_pos hp, if_pos hp]

theorem blockValue_ctrCiphertext (i : ℕ) (hi : i < pieces m.length) :
    blockValue (ctrCiphertext npub k m) i =
      cipherValue (aeadSetup npub k) (bufferOf m) m.length i := by
  let v := cipherValue (aeadSetup npub k) (bufferOf m) m.length
  have hread := writeBlocks_eq_iff 16 (pieces m.length) v (fun _ => 0) (by decide)
    (fun i _ => cipherValue_fits _ _ _ i) (bufferOf (ctrCiphertext npub k m))
  refine hread.mp (fun p hp => ?_) i hi
  rw [ctrCiphertext_eq npub k m fun _ => 0]
  exact (bufferOf_bytesOf _ _ p hp).symm

theorem ctrCiphertext_canonical (i : ℕ) (hi : i < pieces m.length) :
    blockValue (ctrCiphertext npub k m) i < prime := by
  rw [blockValue_ctrCiphertext npub k m i hi]
  exact modAdd_lt _ _

theorem ppmacEncrypt_inputs (c₀ : Buffer) (ad : List Byte) :
    (ppmacEncrypt c₀ (bufferOf m) m.length (bufferOf ad) ad.length npub k).inputs =
      (macRun (aeadSetup npub k) (macValues (bufferOf ad) ad.length (pieces m.length)
        (blockValue (ctrCiphertext npub k m)))).inputs := by
  rw [ppmacEncrypt_eq, macValues_congr _ _ _ _ _ fun i hi => blockValue_ctrCiphertext npub k m i hi]

/- Both modes write these blocks. -/
theorem ppmacCiphertext_take (ad : List Byte) :
    (ppmacCiphertext npub k ad m).take (16 * pieces m.length) = ctrCiphertext npub k m := by
  have hlen : (ppmacCiphertext npub k ad m).length = 16 * pieces m.length + 16 := length_bytesOf _ _
  have hblocks := ((ppmacCiphertext_eq_iff npub k ad m _ _ hlen).mp rfl).2.1
  refine (blocks_eq_iff _ _ (pieces m.length) (pieces m.length) ?_
    (length_ctrCiphertext npub k m)).mp ?_
  · rw [List.length_take, hlen]
    omega
  · refine List.map_congr_left fun i hi => ?_
    have hi' := List.mem_range.mp hi
    rw [blockValue_take _ _ i (by omega), blockValue_ctrCiphertext npub k m i hi']
    exact hblocks i hi'

theorem htmacEncrypt_hashed (blake2s : List Byte → List Byte → Buffer) (c₀ : Buffer)
    (ad : List Byte) :
    let c := ctrCiphertext npub k m
    (htmacEncrypt blake2s c₀ (bufferOf m) m.length (bufferOf ad) ad.length npub k).hashed =
      ad ++ c.take (c.length % 2^32) := by
  intro c
  have hlen : c.length % 2^32 = 16 * (pieces m.length % 2^28) := by
    simp only [c, length_ctrCiphertext]
    omega
  have hle : 16 * (pieces m.length % 2^28) ≤ 16 * pieces m.length :=
    Nat.mul_le_mul_left 16 (Nat.mod_le _ _)
  rw [htmacEncrypt_eq, hlen]
  simp only [c, ctrCiphertext_eq npub k m c₀, bytesOf_bufferOf]
  rw [bytesOf, bytesOf, ← List.map_take, List.take_range, Nat.min_eq_left hle]

end Encryption

/-- For both modes and every nonce and key: the input of the tag differs exactly when
the two pairs are not one text cut at two places, where PPMAC counts associated data
in pieces filled up with zeros; and the pairs that are have the same tags. In HtMAC
encryption the ciphertext counts up to its length modulo `2^32`. -/
theorem mimc_split_bound_iff (blake2s : List Byte → List Byte → Buffer) (npub k : Buffer)
    (ad ad' : List Byte) :
    (∀ (m₀ : Buffer) (c c' t : List Byte) (n n' : ℕ), c.length = 16 * n → c'.length = 16 * n' →
      t.length = 16 → (∀ i < n, blockValue c i < prime) → (∀ i < n', blockValue c' i < prime) →
      let ppmac := fun ad c => ppmacDecrypt m₀ (bufferOf (c ++ t)) (c ++ t).length (bufferOf ad)
        ad.length npub k
      let htmac := fun ad c => htmacDecrypt blake2s m₀ (bufferOf (c ++ t)) (c ++ t).length
        (bufferOf ad) ad.length npub k
      ((ppmac ad c).inputs ≠ (ppmac ad' c').inputs ↔ ¬ SplitMoved widen ad c ad' c') ∧
      (SplitMoved widen ad c ad' c' → (ppmac ad c).ret = (ppmac ad' c').ret) ∧
      ((htmac ad c).map HtmacDecrypted.hashed ≠ (htmac ad' c').map HtmacDecrypted.hashed ↔
        ¬ SplitMoved id ad c ad' c') ∧
      (SplitMoved id ad c ad' c' →
        (htmac ad c).map HtmacDecrypted.ret = (htmac ad' c').map HtmacDecrypted.ret)) ∧
    ∀ (c₀ : Buffer) (m m' : List Byte),
      let ppmac := fun ad m => ppmacEncrypt c₀ (bufferOf m) m.length (bufferOf ad) ad.length npub k
      let htmac := fun ad m => htmacEncrypt blake2s c₀ (bufferOf m) m.length (bufferOf ad) ad.length
        npub k
      let c := ctrCiphertext npub k m
      let c' := ctrCiphertext npub k m'
      ((ppmac ad m).inputs ≠ (ppmac ad' m').inputs ↔ ¬ SplitMoved widen ad c ad' c') ∧
      ((htmac ad m).hashed ≠ (htmac ad' m').hashed ↔
        ¬ SplitMoved id ad (c.take (c.length % 2^32)) ad' (c'.take (c'.length % 2^32))) := by
  refine ⟨fun m₀ c c' t n n' hc hc' ht hcan hcan' => ?_, fun c₀ m m' => ⟨?_, ?_⟩⟩
  · refine ⟨not_congr ?_, ?_, not_congr ?_, ?_⟩
    · exact ppmacDecrypt_split_iff m₀ npub k ad c ad' c' t n n' hc hc' ht hcan hcan'
    · exact ppmacDecrypt_ret_of_split m₀ npub k ad c ad' c' t n n' hc hc' ht
    · exact htmacDecrypt_split_iff m₀ npub k ad c ad' c' t n n' hc hc' ht blake2s
    · exact htmacDecrypt_ret_of_split m₀ npub k ad c ad' c' t n n' hc hc' ht blake2s
  · refine not_congr ?_
    rw [ppmacEncrypt_inputs, ppmacEncrypt_inputs]
    exact macInputs_eq_iff _ ad _ ad' _ _ _ (length_ctrCiphertext npub k m)
      (length_ctrCiphertext npub k m') (ctrCiphertext_canonical npub k m)
      (ctrCiphertext_canonical npub k m')
  · refine not_congr ?_
    rw [htmacEncrypt_hashed, htmacEncrypt_hashed]
    exact append_eq_append_iff_splitMoved id ad _ ad' _

theorem mimc_split_bound_iff_example :
    let zero : Buffer := fun _ => 0
    let ad : List Byte := List.replicate 15 1
    let t : List Byte := List.replicate 16 0
    (ppmacDecrypt zero (bufferOf (ad ++ [0] ++ t)) 32 (bufferOf []) 0 zero zero).inputs ≠
      (ppmacDecrypt zero (bufferOf t) 16 (bufferOf ad) 15 zero zero).inputs ↔
      ¬ SplitMoved widen [] (ad ++ [0]) ad [] :=
  ((mimc_split_bound_iff (fun _ _ _ => 0) (fun _ => 0) (fun _ => 0) []
    (List.replicate 15 1)).1 (fun _ => 0) (List.replicate 15 1 ++ [0]) [] (List.replicate 16 0) 1 0
    rfl rfl rfl (by decide) (by decide)).1

/- In PPMAC 15 bytes and a zero are as good as a ciphertext block as they are as associated
data, and a zero at the end of associated data does not count; in HtMAC it can be any
block. -/
theorem mimc_split_ambiguous :
    let zero : Buffer := fun _ => 0
    let ones : List Byte := List.replicate 15 1
    let t : List Byte := List.replicate 16 0
    let ppmac := fun ad c => (ppmacDecrypt zero (bufferOf (c ++ t)) (c ++ t).length (bufferOf ad)
      ad.length zero zero).inputs
    let htmac := fun ad c => (htmacDecrypt (fun _ _ => zero) zero (bufferOf (c ++ t))
      (c ++ t).length (bufferOf ad) ad.length zero zero).map HtmacDecrypted.hashed
    ppmac [] (ones ++ [0]) = ppmac ones [] ∧ ppmac [1] [] = ppmac [1, 0] [] ∧
      htmac [] (ones ++ [0]) = htmac (ones ++ [0]) [] := by
  intro zero ones t ppmac htmac
  refine ⟨?_, ?_, ?_⟩
  · refine (ppmacDecrypt_split_iff zero zero zero [] (ones ++ [0]) ones [] t 1 0 rfl rfl rfl
      (by decide) (by decide)).mpr ?_
    exact Or.inl ⟨ones ++ [0], by decide, rfl⟩
  · refine (ppmacDecrypt_split_iff zero zero zero [1] [] [1, 0] [] t 0 0 rfl rfl rfl (by decide)
      (by decide)).mpr ?_
    exact Or.inl ⟨[], by decide, rfl⟩
  · refine (htmacDecrypt_split_iff zero zero zero [] (ones ++ [0]) (ones ++ [0]) [] t 1 0 rfl rfl
      rfl (fun _ _ => zero)).mpr ?_
    exact Or.inl ⟨ones ++ [0], rfl, rfl⟩

end Pobc.Mimc
