import Pobc.Iot.AesPobc

/-!
# Domain separation of the counter blocks of AES-POBC

All blocks one call gives to the cipher, as numbers: each family is a run of
consecutive values, so two families meet exactly when their intervals overlap.
`nonce_incr` counts in the machine's byte order while the families are set apart
in byte 12, which only a big-endian machine treats as the top of the counter.
-/

namespace Pobc.Iot

/-- The values `v`, `v + 1`, ..., `v + n - 1`. -/
def valueRun (v n : ℕ) : List ℕ := (List.range n).map (v + ·)

theorem mem_valueRun (v n x : ℕ) : x ∈ valueRun v n ↔ v ≤ x ∧ x < v + n := by
  simp only [valueRun, List.mem_map, List.mem_range]
  constructor
  · rintro ⟨i, hi, rfl⟩
    omega
  · intro h
    exact ⟨x - v, by omega, by omega⟩

theorem valueRun_nodup (v n : ℕ) : (valueRun v n).Nodup :=
  List.nodup_range.map fun _ _ h => Nat.add_left_cancel h

theorem valueRun_disjoint (v n w k : ℕ) :
    List.Disjoint (valueRun v n) (valueRun w k) ↔ n = 0 ∨ k = 0 ∨ v + n ≤ w ∨ w + k ≤ v := by
  simp only [List.Disjoint, mem_valueRun]
  constructor
  · intro h
    have hv : ¬ ((v ≤ v ∧ v < v + n) ∧ (w ≤ v ∧ v < w + k)) := fun hx => h hx.1 hx.2
    have hw : ¬ ((v ≤ w ∧ w < v + n) ∧ (w ≤ w ∧ w < w + k)) := fun hx => h hx.1 hx.2
    omega
  · intro h x hx hx'
    omega

theorem map_counterRun (order : ByteOrder) (start : Block) (n : ℕ)
    (hn : counterVal order start + n ≤ 2^128) :
    (counterRun order start n).map (counterVal order) = valueRun (counterVal order start) n := by
  rw [counterRun, List.map_map, valueRun]
  refine List.map_congr_left fun b hb => ?_
  have hlt := List.mem_range.mp hb
  rw [Function.comp_apply, counterVal_iterate, Nat.mod_eq_of_lt (by omega)]

/-! ### Where the families start -/

def nonceVal (npub : Nonce) : ℕ := beVal (nonceBlock npub) 0 12

theorem nonceVal_lt (npub : Nonce) : nonceVal npub < 2^96 := by
  have h := beVal_lt (nonceBlock npub) 0 12
  have h256 : (256 : ℕ)^12 = 2^96 := by norm_num
  rw [h256] at h
  exact h

theorem nonceVal_eq_zero_iff (npub : Nonce) : nonceVal npub = 0 ↔ ∀ i, npub i = 0 := by
  have hzero : beVal zeroBlock 0 12 = 0 := by decide
  constructor
  · intro h i
    have hbyte := beVal_inj (nonceBlock npub) zeroBlock 0 12 (h.trans hzero.symm) i.val i.isLt
    have hi : i.val < 16 := by omega
    simpa [byteAt, nonceBlock, zeroBlock, Nat.mod_eq_of_lt hi] using hbyte
  · intro h
    have hblock : nonceBlock npub = zeroBlock := by
      funext j
      simp only [nonceBlock, h, dite_eq_ite, ite_self, zeroBlock]
    rw [nonceVal, hblock, hzero]

/-- Counter word of the first keystream block, 1 in byte 15. -/
def streamWord : ByteOrder → ℕ
  | .little => 2^24
  | .big => 1

theorem counterVal_nonceBlock (order : ByteOrder) (npub : Nonce) :
    counterVal order (nonceBlock npub) = nonceVal npub * 2^32 := by
  cases order <;> simp [counterVal, nonceVal, loadWord, byteAt, nonceBlock]

theorem counterVal_streamStart (order : ByteOrder) (npub : Nonce) :
    counterVal order (streamStart npub) = nonceVal npub * 2^32 + streamWord order := by
  have hprefix : beVal (streamStart npub) 0 12 = nonceVal npub :=
    beVal_congr _ _ 0 12 fun i hi => byteAt_setByte_of_ne _ 15 (0 + i) 1 (by omega) (by omega)
  rw [counterVal, hprefix]
  cases order <;> simp [streamWord, loadWord, byteAt, streamStart, setByte, nonceBlock]

def maskWord (order : ByteOrder) (noncePrefix : Byte) : ℕ :=
  counterVal order (maskStart noncePrefix)

theorem maskWord_ad (order : ByteOrder) :
    maskWord order 0x60 = match order with | .little => 2^24 + 0x60 | .big => 0x60 * 2^24 + 1 := by
  cases order <;> decide

theorem maskWord_c (order : ByteOrder) :
    maskWord order 0x40 = match order with | .little => 2^24 + 0x40 | .big => 0x40 * 2^24 + 1 := by
  cases order <;> decide

/-! ### Distinctness -/

theorem map_pobcInputs (order : ByteOrder) (npub : Nonce) (mlen adlen : ℕ)
    (hm : blockCount mlen < 2^24) (ha : blockCount adlen < 2^24) :
    (pobcInputs order npub mlen adlen).map (counterVal order) =
      nonceVal npub * 2^32 ::
        (valueRun (nonceVal npub * 2^32 + streamWord order) (blockCount mlen) ++
          valueRun (maskWord order 0x60) (blockCount adlen) ++
          valueRun (maskWord order 0x40) (blockCount mlen)) := by
  have hlt := nonceVal_lt npub
  have hword : streamWord order ≤ 2^24 := by cases order <;> decide
  have had : maskWord order 0x60 ≤ 2^31 := by cases order <;> decide
  have hc : maskWord order 0x40 ≤ 2^31 := by cases order <;> decide
  have hstream := counterVal_streamStart order npub
  simp only [pobcInputs, List.map_cons, List.map_append]
  rw [map_counterRun order (streamStart npub) _ (by omega),
    map_counterRun order (maskStart 0x60) _ (by unfold maskWord at had; omega),
    map_counterRun order (maskStart 0x40) _ (by unfold maskWord at hc; omega),
    counterVal_nonceBlock, hstream]
  rfl

/-- The counter blocks of one call are pairwise distinct: always on a big-endian
machine, and on a little-endian one as long as the ciphertext masks stop before
the first associated-data mask, 32 blocks on, and, under the zero nonce, the
keystream stops before the first ciphertext mask, 64 blocks on. -/
def Separated (order : ByteOrder) (npub : Nonce) (mlen adlen : ℕ) : Prop :=
  order = .big ∨ ((adlen = 0 ∨ mlen ≤ 32 * 16) ∧ ((∃ i, npub i ≠ 0) ∨ mlen ≤ 64 * 16))

theorem pobcInputs_nodup_iff (order : ByteOrder) (npub : Nonce) (mlen adlen : ℕ)
    (hm : blockCount mlen < 2^24) (ha : blockCount adlen < 2^24) :
    (pobcInputs order npub mlen adlen).Nodup ↔ Separated order npub mlen adlen := by
  have hnonce : (∃ i, npub i ≠ 0) ↔ nonceVal npub ≠ 0 := by
    rw [ne_eq, nonceVal_eq_zero_iff, not_forall]
  rw [← List.nodup_map_iff fun y z h => counterVal_inj order y z h,
    map_pobcInputs order npub mlen adlen hm ha]
  simp only [List.nodup_cons, List.nodup_append', List.mem_append, mem_valueRun, valueRun_nodup,
    List.disjoint_append_left, valueRun_disjoint, maskWord_ad, maskWord_c, Separated, hnonce]
  unfold blockCount at *
  cases order <;>
    simp only [streamWord, reduceCtorEq, true_or, false_or, iff_true, true_and] <;>
    omega

theorem pobc_inputs_nodup_iff (order : ByteOrder) (lib : Mbedtls) (c₀ : Buffer) (tag₀ : Block)
    (m : Buffer) (mlen : ℕ) (ad : Buffer) (adlen : ℕ) (npub : Nonce) (k : Block)
    (hkey : lib.setkeyEnc 0 k = 0) (hm : blockCount mlen < 2^24) (ha : blockCount adlen < 2^24) :
    (aesPobcEncrypt order lib c₀ tag₀ m mlen ad adlen npub k).inputs.Nodup ↔
      Separated order npub mlen adlen := by
  rw [(aesPobcEncrypt_spec order lib c₀ tag₀ m mlen ad adlen npub k hkey).2.2.2]
  exact pobcInputs_nodup_iff order npub mlen adlen hm ha

theorem pobc_inputs_nodup_iff_example :
    let buf : Buffer := fun i => BitVec.ofNat 8 i
    let npub : Nonce := fun j => BitVec.ofNat 8 (j + 1)
    (aesPobcEncrypt .little (Mbedtls.ofCipher id) buf zeroBlock buf 40 buf 33 npub
      zeroBlock).inputs.Nodup ↔ Separated .little npub 40 33 :=
  pobc_inputs_nodup_iff .little (Mbedtls.ofCipher id) _ _ _ 40 _ 33 _ _ rfl (by decide) (by decide)

/-- 33 ciphertext blocks and one byte of associated data: the last ciphertext mask
is the first associated-data mask. -/
theorem masks_meet :
    ¬ (aesPobcEncrypt .little (Mbedtls.ofCipher id) (fun _ => 0) zeroBlock (fun _ => 0) 513
      (fun _ => 0) 1 (fun _ => 1) zeroBlock).inputs.Nodup := by
  rw [(aesPobcEncrypt_spec .little (Mbedtls.ofCipher id) (fun _ => 0) zeroBlock (fun _ => 0) 513
    (fun _ => 0) 1 (fun _ => 1) zeroBlock rfl).2.2.2,
    pobcInputs_nodup_iff .little (fun _ => 1) 513 1 (by decide) (by decide)]
  simp [Separated]

end Pobc.Iot
