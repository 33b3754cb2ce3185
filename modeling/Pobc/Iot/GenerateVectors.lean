import Pobc.Iot.Generate
import Pobc.Aes.Layers
import Mathlib.Data.Finite.Prod

/-!
# The test vectors printed for AES-POBC-SIV

`aes_pobc` is a prefix of `aes_pobc_siv` and is compared first, so the lines for
`aes_pobc_siv` are those of AES-POBC. Such a line is a vector of AES-POBC-SIV only
where the two modes happen to coincide.
-/

namespace Pobc.Iot

/-! ### The function that is called -/

theorem pobcSiv_taken_for_pobc : sameName gcmSivAes128 pobcSivAes = false ∧
    sameName gcmAes128 pobcSivAes = false ∧ sameName pobcAes pobcSivAes = true :=
  ⟨rfl, rfl, rfl⟩

theorem bytesOf_storeBlock (buf : Buffer) (b : Block) :
    bytesOf (storeBlock buf b) 16 = bytesOfBlock b := by
  refine bytesOf_congr _ _ _ fun p hp => ?_
  have hin : 0 ≤ p ∧ p < 0 + 16 := ⟨Nat.zero_le _, by omega⟩
  rw [storeBlock, writeBytes, if_pos hin, Nat.sub_zero]

theorem blockIn_bytesOfBlock (b : Block) : blockIn (bufferOf (bytesOfBlock b)) = b := by
  funext j
  rw [blockIn, bytesOfBlock, bufferOf_bytesOf _ 16 j.val j.isLt, byteAt_val]

section Run

variable (order : ByteOrder) (lib : Mbedtls)

/- A call without associated data, whatever the buffers held. -/
theorem aesPobcEncrypt_eq (c₀ ad : Buffer) (tag₀ : Block) (m : List Byte) (npub : Nonce) (k : Block)
    (hkey : lib.setkeyEnc 0 k = 0) :
    let out := aesPobcEncrypt order lib c₀ tag₀ (bufferOf m) m.length ad 0 npub k
    out.ret = 0 ∧
      (bytesOf out.c m.length, out.tag) = pobcEncrypt order (lib.cryptEcb k) npub [] m := by
  intro out
  have hspec := aesPobcEncrypt_spec order lib c₀ tag₀ (bufferOf m) m.length ad 0 npub k hkey
  have hc : bytesOf out.c m.length = (pobcEncrypt order (lib.cryptEcb k) npub [] m).1 := by
    rw [pobcEncrypt_fst]
    refine bytesOf_congr _ _ _ fun p hp => ?_
    rw [hspec.2.1 p, if_pos hp]
  refine ⟨hspec.1, Prod.ext hc ?_⟩
  funext j
  apply lane_inj
  have hlen : (pobcEncrypt order (lib.cryptEcb k) npub [] m).1.length = m.length :=
    length_bytesOf _ _
  have had : columnSum order (lib.cryptEcb k) 0x60 ad 0 j =
      columnSum order (lib.cryptEcb k) 0x60 (bufferOf []) 0 j :=
    columnSum_congr order _ 0x60 _ _ 0 j fun p hp => absurd hp (Nat.not_lt_zero p)
  have htext : columnSum order (lib.cryptEcb k) 0x40 out.c m.length j =
      columnSum order (lib.cryptEcb k) 0x40 (bufferOf (bytesOf out.c m.length)) m.length j :=
    columnSum_congr order _ 0x40 _ _ m.length j fun p hp => (bufferOf_bytesOf _ _ p hp).symm
  rw [pobcEncrypt_snd, hspec.2.2.1 j, tagColumn, hlen, ← hc, had, htext]
  rfl

variable (rand : ℕ → Byte) (mlen : ℕ)

/-- The line whose random bytes start at `drawn`. -/
def pobcVector (drawn : ℕ) : TestVector :=
  let message := fillRand rand drawn mlen
  let key := fillRand rand (drawn + mlen) 16
  let nonce := fillRand rand (drawn + mlen + 16) 12
  let out := pobcEncrypt order (lib.cryptEcb (blockIn (bufferOf key))) (nonceIn (bufferOf nonce)) []
    message
  ⟨key, nonce, message, out.1, bytesOfBlock out.2⟩

theorem generateLoop_pobc (hkey : ∀ k, lib.setkeyEnc 0 k = 0) (samples : ℕ) (s : GenerateState) :
    generateLoop rand mlen 16 12 16 (pobcEncryptF order lib) none false samples s =
      some (0, (List.range samples).map fun i =>
        .vector (pobcVector order lib rand mlen (s.drawn + i * (mlen + 28)))) := by
  induction samples generalizing s with
  | zero => rfl
  | succ samples ih =>
    have hlen : (fillRand rand s.drawn mlen).length = mlen := length_bytesOf _ _
    have hcall := aesPobcEncrypt_eq order lib s.ciphertext (fun _ => 0) (blockIn s.tag)
      (fillRand rand s.drawn mlen)
      (nonceIn (bufferOf (fillRand rand (s.drawn + mlen + 16) 12)))
      (blockIn (bufferOf (fillRand rand (s.drawn + mlen) 16))) (hkey _)
    rw [hlen] at hcall
    obtain ⟨hret, hout⟩ := hcall
    have hc := congrArg Prod.fst hout
    have htag := congrArg Prod.snd hout
    have hstep : ∀ i, s.drawn + mlen + 16 + 12 + i * (mlen + 28) =
        s.drawn + (i + 1) * (mlen + 28) := by
      intro i
      rw [Nat.succ_mul]
      omega
    simp only at hc htag
    simp only [generateLoop, pobcEncryptF, hret, ne_eq, not_true_eq_false, if_false,
      Bool.false_eq_true, ih, hstep, Option.map_some, bytesOf_storeBlock, hc, htag]
    rw [List.range_succ_eq_map, List.map_cons, List.map_map, Nat.zero_mul, Nat.add_zero]
    rfl

/- The lines printed for `aes_pobc_siv`. -/
theorem vectors_generate (missing : MissingPrimitives) (hkey : ∀ k, lib.setkeyEnc 0 k = 0)
    (samples : ℕ) (check : Bool) :
    vectors (generate order lib missing rand pobcSivAes mlen samples check) =
      if check then [] else
        (List.range samples).map fun i => pobcVector order lib rand mlen (i * (mlen + 28)) := by
  obtain ⟨hsiv, hgcm, hpobc⟩ := pobcSiv_taken_for_pobc
  rw [generate, hsiv, hgcm, hpobc]
  cases check with
  | true => rfl
  | false =>
    have hloop := generateLoop_pobc order lib rand mlen hkey samples
      ⟨0, fun _ => 0, fun _ => 0, fun _ => 0⟩
    simp only [Bool.false_eq_true, if_false, if_true, generateF, hloop, vectors, Nat.zero_add,
      List.filterMap_map]
    exact congrFun List.filterMap_eq_map' _

/-! ### When a line is a vector of AES-POBC-SIV -/

/-- `aes_pobc_siv_decrypt` on the printed line returns 0 and the printed message. -/
def SivVector (v : TestVector) : Prop :=
  ∀ m₀ : Buffer, sivDecrypt lib (blockIn (bufferOf v.key)) m₀ v.ciphertext []
    (blockIn (bufferOf v.tag)) = (0, v.message)

/-- The tag of AES-POBC is the synthetic IV of the message, and its keystream is the
one that starts at that IV. -/
def PobcIsSiv (E : Block → Block) (npub : Nonce) (m : List Byte) : Prop :=
  (pobcEncrypt order E npub [] m).2 = sivIv E [] m ∧
    ∀ p < m.length, ctrStream (nonceIncr order) E (streamStart npub) p =
      ctrStream gcmIncr E (sivIv E [] m) p

def drawnMessage (i : ℕ) : List Byte := fillRand rand (i * (mlen + 28)) mlen
def drawnKey (i : ℕ) : Block :=
  blockIn (bufferOf (fillRand rand (i * (mlen + 28) + mlen) 16))
def drawnNonce (i : ℕ) : Nonce :=
  nonceIn (bufferOf (fillRand rand (i * (mlen + 28) + mlen + 16) 12))

theorem sivVector_iff (hkey : ∀ n k, lib.setkeyEnc n k = 0) (i : ℕ) :
    SivVector lib (pobcVector order lib rand mlen (i * (mlen + 28))) ↔
      PobcIsSiv order (lib.cryptEcb (drawnKey rand mlen i)) (drawnNonce rand mlen i)
        (drawnMessage rand mlen i) := by
  let E := lib.cryptEcb (drawnKey rand mlen i)
  let m := drawnMessage rand mlen i
  let iv := (pobcEncrypt order E (drawnNonce rand mlen i) [] m).2
  let ks := ctrStream (nonceIncr order) E (streamStart (drawnNonce rand mlen i))
  have hdec : ∀ m₀, sivDecrypt lib (drawnKey rand mlen i) m₀ (xorStream ks m) [] iv =
      if iv = sivIv E [] (sivText E iv (xorStream ks m)) then (0, sivText E iv (xorStream ks m))
      else (-1, List.replicate (xorStream ks m).length 0) :=
    fun m₀ => sivDecrypt_eq lib _ m₀ _ [] iv (hkey 0 _) (hkey 1 _)
  have htext : sivText E iv (xorStream ks m) = m ↔
      ∀ p < m.length, ks p = ctrStream gcmIncr E iv p := by
    rw [sivText, ← xorStream_eq_iff]
    constructor
    · intro h
      conv_rhs => rw [← h]
      exact (xorStream_xorStream _ _).symm
    · intro h
      rw [h, xorStream_xorStream]
  have hvector : SivVector lib (pobcVector order lib rand mlen (i * (mlen + 28))) ↔
      ∀ m₀, sivDecrypt lib (drawnKey rand mlen i) m₀ (xorStream ks m) [] iv = (0, m) := by
    have hc := pobcEncrypt_fst order E (drawnNonce rand mlen i) [] m
    simp only [SivVector, pobcVector, blockIn_bytesOfBlock]
    rw [← hc]
    rfl
  have hret : (-1 : Int) ≠ 0 := by decide
  rw [hvector, PobcIsSiv]
  constructor
  · intro h
    have hzero := h fun _ => 0
    rw [hdec] at hzero
    by_cases hiv : iv = sivIv E [] (sivText E iv (xorStream ks m))
    · rw [if_pos hiv, Prod.mk.injEq] at hzero
      rw [hzero.2] at hiv
      refine ⟨hiv, ?_⟩
      rw [← hiv]
      exact htext.mp hzero.2
    · rw [if_neg hiv] at hzero
      exact absurd (congrArg Prod.fst hzero) hret
  · rintro ⟨hiv, hstream⟩ m₀
    have hm : sivText E iv (xorStream ks m) = m := by
      rw [htext]
      exact fun p hp => (hstream p hp).trans (by rw [← hiv])
    rw [hdec, hm, if_pos hiv]

end Run

/-! ### Ciphers on which the two modes differ -/

/-- What is documented of mbedTLS: the set-up of a 128-bit key succeeds, and every
key selects a permutation. -/
structure Mbedtls.Lawful (lib : Mbedtls) : Prop where
  setkey : ∀ n k, lib.setkeyEnc n k = 0
  crypt : ∀ k, Function.Bijective (lib.cryptEcb k)

section Coincidence

variable (order : ByteOrder)

theorem columnSum_zero (E : Block → Block) (w : Byte) (data : Buffer) (j : Fin 16) :
    columnSum order E w data 0 j = 0 := by
  have hj := j.isLt
  have hcount : columnBlocks 0 j = 0 := by
    unfold columnBlocks
    omega
  rw [columnSum, hcount, Finset.sum_range_zero]

/- Without a message both tags are one cipher call, on the nonce and on 0. -/
theorem pobcIsSiv_empty (E : Block → Block) (hE : Function.Injective E) (npub : Nonce) :
    PobcIsSiv order E npub [] ↔ npub = zeroNonce := by
  have htag : (pobcEncrypt order E npub [] []).2 = E (nonceBlock npub) := by
    funext j
    apply lane_inj
    have hlen : (pobcEncrypt order E npub [] []).1.length = 0 := length_bytesOf _ _
    rw [pobcEncrypt_snd, tagColumn, hlen, List.length_nil, columnSum_zero, columnSum_zero, add_zero,
      add_zero]
  have hiv : sivIv E [] [] = E zeroBlock := by
    have hsum : macSum E (chained [] ++ chained []) = zeroBlock := by
      funext j
      apply lane_inj
      have hlane : lane (macSum E (chained [] ++ chained []) j) =
          laneSum E j (chained [] ++ chained []) := rfl
      rw [hlane, laneSum_append, Gf.add_self]
      rfl
    have hfinal : finalNonce zeroBlock = zeroBlock := by
      funext j
      rw [finalNonce]
      split <;> rfl
    rw [sivIv, hsum, hfinal]
  have hnonce : nonceBlock npub = zeroBlock ↔ npub = zeroNonce := by
    constructor
    · intro h
      funext i
      have hi := i.isLt
      have hbyte := congrFun h ⟨i.val, by omega⟩
      rwa [nonceBlock, dif_pos hi] at hbyte
    · rintro rfl
      funext j
      rw [nonceBlock]
      split <;> rfl
  rw [PobcIsSiv, htag, hiv, hE.eq_iff, hnonce]
  exact and_iff_left fun p hp => absurd hp (Nat.not_lt_zero p)

def flipFirst (d : Byte) (x : Block) : Block := setByte x 0 (byteAt x 0 ^^^ d)

theorem byteAt_flipFirst (d : Byte) (x : Block) : byteAt (flipFirst d x) 0 = byteAt x 0 ^^^ d :=
  byteAt_setByte_self _ 0 _ (by decide)

theorem flipFirst_involutive (d : Byte) : Function.Involutive (flipFirst d) := by
  intro x
  refine block_ext _ _ fun i hi => ?_
  by_cases h0 : i = 0
  · rw [h0, byteAt_flipFirst, byteAt_flipFirst, BitVec.xor_assoc, BitVec.xor_self, BitVec.xor_zero]
  · rw [flipFirst, byteAt_setByte_of_ne _ 0 i _ hi h0, flipFirst,
      byteAt_setByte_of_ne _ 0 i _ hi h0]

/- `flipFirst` takes the IV back to the block it came from, whose first byte was
cleared. -/
theorem exists_cipher_not_siv (npub : Nonce) (m : List Byte) (hm : 0 < m.length) :
    ∃ E : Block → Block, Function.Bijective E ∧ ¬ PobcIsSiv order E npub m := by
  let d : Byte := npub 0 ^^^ 1
  refine ⟨flipFirst d, (flipFirst_involutive d).bijective, fun h => ?_⟩
  have hfirst := h.2 0 hm
  have hleft : ctrStream (nonceIncr order) (flipFirst d) (streamStart npub) 0 = 1 := by
    have hstart : byteAt (streamStart npub) 0 = npub 0 :=
      byteAt_setByte_of_ne _ 15 0 _ (by decide) (by decide)
    have hstream : ctrStream (nonceIncr order) (flipFirst d) (streamStart npub) 0 =
        byteAt (flipFirst d (streamStart npub)) 0 := rfl
    rw [hstream, byteAt_flipFirst, hstart, ← BitVec.xor_assoc, BitVec.xor_self, BitVec.zero_xor]
  have hright : ctrStream gcmIncr (flipFirst d) (sivIv (flipFirst d) [] m) 0 = 0 := by
    have hstream : ctrStream gcmIncr (flipFirst d) (sivIv (flipFirst d) [] m) 0 =
        byteAt (flipFirst d (sivIv (flipFirst d) [] m)) 0 := rfl
    rw [hstream, sivIv, flipFirst_involutive]
    rfl
  rw [hleft, hright] at hfirst
  exact absurd hfirst (by decide)

/- One mbedTLS, sample by sample. -/
theorem vectors_siv_iff (missing : MissingPrimitives) (rand : ℕ → Byte) (mlen samples : ℕ)
    (check : Bool) (lib : Mbedtls) (hlib : lib.Lawful) :
    (∀ v ∈ vectors (generate order lib missing rand pobcSivAes mlen samples check),
        SivVector lib v) ↔
      check = true ∨ ∀ i < samples, PobcIsSiv order (lib.cryptEcb (drawnKey rand mlen i))
        (drawnNonce rand mlen i) (drawnMessage rand mlen i) := by
  rw [vectors_generate order lib rand mlen missing (hlib.setkey 0) samples check]
  cases check with
  | true => exact iff_of_true (fun v hv => nomatch hv) (Or.inl rfl)
  | false =>
    simp only [Bool.false_eq_true, if_false, false_or, List.forall_mem_map, List.mem_range]
    exact forall_congr' fun i => forall_congr' fun _ =>
      sivVector_iff order lib rand mlen hlib.setkey i

end Coincidence

/-- For one mbedTLS the lines for `aes_pobc_siv` are vectors of AES-POBC-SIV exactly
when there are none or the two modes coincide on every sample. For every mbedTLS at
once they only are when there are none, or nothing but a tag under the nonce 0. -/
theorem generate_pobc_siv_iff (order : ByteOrder) (missing : MissingPrimitives) (rand : ℕ → Byte)
    (mlen samples : ℕ) (check : Bool) :
    (∀ lib : Mbedtls, lib.Lawful →
      ((∀ v ∈ vectors (generate order lib missing rand pobcSivAes mlen samples check),
        SivVector lib v) ↔
      check = true ∨ ∀ i < samples, PobcIsSiv order (lib.cryptEcb (drawnKey rand mlen i))
        (drawnNonce rand mlen i) (drawnMessage rand mlen i))) ∧
    ((∀ lib : Mbedtls, lib.Lawful →
      ∀ v ∈ vectors (generate order lib missing rand pobcSivAes mlen samples check),
        SivVector lib v) ↔
      check = true ∨ samples = 0 ∨
        mlen = 0 ∧ ∀ i < samples, drawnNonce rand mlen i = zeroNonce) := by
  have hone := vectors_siv_iff order missing rand mlen samples check
  refine ⟨hone, ?_⟩
  have hlen : ∀ i, (drawnMessage rand mlen i).length = mlen := fun i => length_bytesOf _ _
  constructor
  · intro hall
    by_contra hnone
    push Not at hnone
    obtain ⟨hcheck, hsamples, hnonces⟩ := hnone
    by_cases hm : mlen = 0
    · obtain ⟨i, hi, hne⟩ := hnonces hm
      have hlib : (Mbedtls.ofCipher id).Lawful := ⟨fun _ _ => rfl, fun _ => Function.bijective_id⟩
      have hsiv := ((hone _ hlib).mp (hall _ hlib)).resolve_left hcheck i hi
      have hempty : drawnMessage rand mlen i = [] := List.length_eq_zero_iff.mp ((hlen i).trans hm)
      rw [hempty] at hsiv
      exact hne ((pobcIsSiv_empty order id Function.injective_id _).mp hsiv)
    · obtain ⟨E, hE, hnot⟩ := exists_cipher_not_siv order (drawnNonce rand mlen 0)
        (drawnMessage rand mlen 0) (by rw [hlen]; omega)
      have hlib : (Mbedtls.ofCipher E).Lawful := ⟨fun _ _ => rfl, fun _ => hE⟩
      exact hnot (((hone _ hlib).mp (hall _ hlib)).resolve_left hcheck 0 (by omega))
  · intro h lib hlib
    rw [hone lib hlib]
    rcases h with hcheck | hsamples | ⟨hm, hnonces⟩
    · exact Or.inl hcheck
    · exact Or.inr fun i hi => absurd hi (by omega)
    · refine Or.inr fun i hi => ?_
      have hempty : drawnMessage rand mlen i = [] := List.length_eq_zero_iff.mp ((hlen i).trans hm)
      rw [hempty, pobcIsSiv_empty order _ (hlib.crypt _).injective]
      exact hnonces i hi

/-- Functions that leave the buffers as they were. -/
def MissingPrimitives.idle : MissingPrimitives :=
  let enc : AeadEncF := fun c tag _ _ _ _ _ _ => some (0, c, tag)
  ⟨enc, enc⟩

theorem aesMbedtls_lawful : aesMbedtls.Lawful where
  setkey _ _ := rfl
  crypt k := by
    have : Finite Byte := Finite.of_injective BitVec.toFin fun _ _ => BitVec.eq_of_toFin_eq
    exact Finite.injective_iff_bijective.mp (Aes.cipher_injective (Aes.keyExpansion k))

theorem generate_pobc_siv_iff_example :
    let rand : ℕ → Byte := fun i => BitVec.ofNat 8 (7 * i + 1)
    (∀ v ∈ vectors (generate .little aesMbedtls .idle rand pobcSivAes 40 3 false),
      SivVector aesMbedtls v) ↔
    false = true ∨ ∀ i < 3, PobcIsSiv .little (Aes.aes128 (drawnKey rand 40 i))
      (drawnNonce rand 40 i) (drawnMessage rand 40 i) :=
  (generate_pobc_siv_iff .little .idle (fun i => BitVec.ofNat 8 (7 * i + 1)) 40 3 false).1
    aesMbedtls aesMbedtls_lawful

/- The tag of a message of one block. -/
theorem tag_one_block (order : ByteOrder) (E : Block → Block) (npub : Nonce) (m : Block)
    (j : Fin 16) : lane ((pobcEncrypt order E npub [] (bytesOfBlock m)).2 j) =
      lane (E (nonceBlock npub) j) +
        (lane (E (maskStart 0x40) j) + lane (m j ^^^ E (streamStart npub) j)) := by
  have hj := j.isLt
  have hm : (bytesOfBlock m).length = 16 := length_bytesOf _ _
  have hlen : (pobcEncrypt order E npub [] (bytesOfBlock m)).1.length = 16 := by
    rw [pobcEncrypt_fst, length_xorStream, hm]
  have hcount : columnBlocks 16 j = 1 := by
    unfold columnBlocks
    omega
  have hc : bufferOf (pobcEncrypt order E npub [] (bytesOfBlock m)).1 j =
      m j ^^^ E (streamStart npub) j := by
    have hks := ctrStream_block (nonceIncr order) E (streamStart npub) 0 j hj
    rw [Nat.mul_zero, Nat.zero_add] at hks
    rw [pobcEncrypt_fst, bufferOf_xorStream _ _ _ (by omega), hks, bytesOfBlock,
      bufferOf_bytesOf _ 16 _ hj, byteAt_val]
    exact congrArg (m j ^^^ ·) (byteAt_val _ j)
  rw [pobcEncrypt_snd, tagColumn, hlen, List.length_nil, columnSum_zero, add_zero, columnSum,
    hcount, Finset.sum_range_one, Nat.zero_mul, Nat.zero_add, hc]
  rfl

/- One sample of 16 bytes: message bytes that make the tag 0, then a zero key and a
zero nonce. The synthetic IV would have to be 0 and the keystream to start with
`E(0)`. -/
theorem generate_pobc_siv_fails :
    let E := Aes.aes128 zeroBlock
    let m := xorBlocks (E zeroBlock)
      (xorBlocks (E (maskStart 0x40)) (E (streamStart zeroNonce)))
    let rand : ℕ → Byte := fun i => if i < 16 then byteAt m i else 0
    ¬ ∀ v ∈ vectors (generate .little aesMbedtls .idle rand pobcSivAes 16 1 false),
      SivVector aesMbedtls v := by
  intro E m rand hall
  have hmessage : drawnMessage rand 16 0 = bytesOfBlock m := by
    refine bytesOf_congr _ _ _ fun p hp => ?_
    simp only [rand, Nat.zero_mul, Nat.zero_add, if_pos hp]
  have hrest : ∀ off n i, 16 ≤ off → i < n → bufferOf (fillRand rand off n) i = 0 := by
    intro off n i hoff hi
    have hdrawn : ¬ off + i < 16 := by omega
    rw [fillRand, bufferOf_bytesOf _ n i hi]
    exact if_neg hdrawn
  have hkey : drawnKey rand 16 0 = zeroBlock := funext fun j => hrest _ 16 j (by decide) j.isLt
  have hnonce : drawnNonce rand 16 0 = zeroNonce :=
    funext fun j => hrest _ 12 j (by decide) j.isLt
  rw [vectors_generate .little aesMbedtls rand 16 .idle (fun _ => rfl) 1 false] at hall
  have hvector := hall _ (List.mem_map.mpr ⟨0, List.mem_range.mpr Nat.one_pos, rfl⟩)
  rw [sivVector_iff .little aesMbedtls rand 16 (fun _ _ => rfl) 0, hmessage, hkey,
    hnonce] at hvector
  have hcipher : aesMbedtls.cryptEcb zeroBlock = E := rfl
  rw [hcipher] at hvector
  obtain ⟨htag, hstream⟩ := hvector
  have hzero : sivIv E [] (bytesOfBlock m) = zeroBlock := by
    funext j
    apply lane_inj
    have hblock : nonceBlock zeroNonce = zeroBlock := by decide
    have hlane : lane (m j ^^^ E (streamStart zeroNonce) j) =
        lane (E zeroBlock j) + lane (E (maskStart 0x40) j) := by
      rw [← lane_xor]
      refine congrArg lane ?_
      simp only [m, xorBlocks]
      rw [BitVec.xor_assoc, BitVec.xor_assoc, BitVec.xor_self, BitVec.xor_zero]
    have hsum := tag_one_block .little E zeroNonce m j
    rw [hblock, hlane, add_left_comm (lane (E (maskStart 0x40) j)), ← add_assoc, Gf.add_self,
      zero_add, Gf.add_self] at hsum
    rw [← htag]
    exact hsum
  have hblocks : E (streamStart zeroNonce) = E zeroBlock := by
    refine block_ext _ _ fun i hi => ?_
    have hbyte := hstream i (by rw [bytesOfBlock, length_bytesOf]; exact hi)
    rw [hzero] at hbyte
    have hdiv : i / 16 = 0 := by omega
    have hmod : i % 16 = i := by omega
    rwa [ctrStream, ctrStream, hdiv, hmod] at hbyte
  have hstart := Aes.cipher_injective _ hblocks
  exact absurd hstart (by decide)

end Pobc.Iot
