import Pobc.Mode
import Pobc.Iot.PmacRoundTrip
import Mathlib.Logic.Equiv.Defs

/-!
# What the PMAC tag depends on

`pmac` as one function of the ciphertext bytes: every block goes through the
cipher under a mask that only depends on the cipher, and the outputs are added
up. The nonce is no input of it, so `dec_pmac_aes128` checks a tag against the
ciphertext and never against the nonce it was made under.
-/

namespace Pobc.Iot
open Pobc.Loop
open Pobc.Mode (xorSum)

def blockAt (f : Buffer) (i : ℕ) : Block := fun j => f (i * 16 + j)

/-- The mask of block `i` out of `n`: the last one is doubled once more. -/
def pmacMask (E : Block → Block) (n i : ℕ) : Block :=
  gf128Double^[if i = n - 1 then i + 1 else i] (E zeroBlock)

def pmacInput (E : Block → Block) (f : Buffer) (n i : ℕ) : Block :=
  xorBlocks (blockAt f i) (pmacMask E n i)

def pmacTag (E : Block → Block) (f : Buffer) (n : ℕ) : Block :=
  E (xorSum n fun i => E (pmacInput E f n i))

theorem xorBlocks_comm (a b : Block) : xorBlocks a b = xorBlocks b a := by
  funext j
  exact BitVec.xor_comm (a j) (b j)

theorem xorBlocks_right_inj (a b c : Block) (h : xorBlocks a b = xorBlocks a c) : b = c := by
  funext j
  have hj : a j ^^^ b j = a j ^^^ c j := congrFun h j
  exact (BitVec.xor_right_inj (a j)).mp hj

/- The masks are one chain of doublings until the last block, whose extra
doubling is local to its round. -/
structure PmacInv (E : Block → Block) (f : Buffer) (n i : ℕ) (s : PmacState) : Prop where
  masks : i < n → s.masks = gf128Double^[i] (E zeroBlock)
  acc : s.acc = xorSum i fun k => E (pmacInput E f n k)

theorem pmacStep_inv (E : Block → Block) (mem : Memory) (f : Buffer) (n i : ℕ) (s : PmacState)
    (hin : ∀ p < n * 16, mem p = some (f p)) (hi : i < n) (h : PmacInv E f n i s) :
    ∃ s', pmacStep E mem n i s = some s' ∧ PmacInv E f n (i + 1) s' := by
  obtain ⟨bytes, hread, hbytes⟩ := readBytes_some mem (i * 16) 16 (fun j => f (i * 16 + j))
    fun j hj => hin (i * 16 + j) (by omega)
  have hblock : (fun j : Fin 16 => bytes j) = blockAt f i := by
    funext j
    exact hbytes j j.isLt
  have hmask := h.masks hi
  have hacc : ∀ y, y = E (pmacInput E f n i) →
      xorBlocks s.acc y = xorSum (i + 1) fun k => E (pmacInput E f n k) := by
    intro y hy
    rw [h.acc, hy, xorBlocks_comm]
    rfl
  by_cases hlast : i = n - 1
  · have hinput : xorBlocks (blockAt f i) (gf128Double s.masks) = pmacInput E f n i := by
      rw [pmacInput, pmacMask, if_pos hlast, hmask, Function.iterate_succ_apply']
    refine ⟨⟨s.masks, xorBlocks s.acc (E (pmacInput E f n i))⟩, ?_, ?_, hacc _ rfl⟩
    · rw [pmacStep, hread, Option.bind_eq_bind, Option.bind_some, hblock, if_pos hlast]
      simp only [aes128EncryptFfs, if_true, hinput]
      rfl
    · intro hmore
      omega
  · have hinput : xorBlocks (blockAt f i) s.masks = pmacInput E f n i := by
      rw [pmacInput, pmacMask, if_neg hlast, hmask]
    refine ⟨⟨gf128Double s.masks, xorBlocks s.acc (E (pmacInput E f n i))⟩, ?_, ?_, hacc _ rfl⟩
    · rw [pmacStep, hread, Option.bind_eq_bind, Option.bind_some, hblock, if_neg hlast]
      simp only [aes128EncryptFfs, hinput]
      rfl
    · intro _
      show gf128Double s.masks = _
      rw [hmask, Function.iterate_succ_apply']

theorem pmac_eq (E : Block → Block) (mem : Memory) (f : Buffer) (n : ℕ)
    (hin : ∀ p < n * 16, mem p = some (f p)) : pmac E mem n = some (pmacTag E f n) := by
  have hinit : PmacInv E f n 0 ⟨E zeroBlock, zeroBlock⟩ := ⟨fun _ => rfl, rfl⟩
  obtain ⟨s, hs, hinv⟩ := forRangeM_some (PmacInv E f n) n (pmacStep E mem n)
    ⟨E zeroBlock, zeroBlock⟩ hinit fun i hi t ht => pmacStep_inv E mem f n i t hin hi ht
  simp only [pmac, aes128EncryptFfs]
  rw [hs, Option.bind_eq_bind, Option.bind_some, hinv.acc]
  rfl

theorem pmacTag_congr (E : Block → Block) (f g : Buffer) (n : ℕ) (h : ∀ p < n * 16, f p = g p) :
    pmacTag E f n = pmacTag E g n := by
  have hf := pmac_eq E (fun p => some (f p)) f n fun _ _ => rfl
  have hg := pmac_eq E (fun p => some (f p)) g n fun p hp => by rw [h p hp]
  exact Option.some.inj (hf.symm.trans hg)

/-! ### The check of a tag -/

theorem tagCompare_iff (tag1 tag2 : Block) : tagCompare tag1 tag2 = true ↔ tag1 = tag2 := by
  have hor : ∀ n, forRange n (fun i result => result ||| (byteAt tag1 i ^^^ byteAt tag2 i))
      (0 : Byte) = 0 → ∀ i < n, byteAt tag1 i = byteAt tag2 i := by
    intro n
    induction n with
    | zero => intro _ i hi; omega
    | succ n ih =>
      intro hzero i hi
      rw [forRange_succ] at hzero
      obtain ⟨hinit, hlast⟩ := BitVec.or_eq_zero_iff.mp hzero
      rcases Nat.lt_succ_iff_lt_or_eq.mp hi with hlt | rfl
      · exact ih hinit i hlt
      · exact BitVec.xor_eq_zero_iff.mp hlast
  constructor
  · intro h
    exact block_ext tag1 tag2 (hor 16 (eq_of_beq h))
  · rintro rfl
    exact tagCompare_self tag1

/-- `dec_pmac_aes128` returns true. -/
def pmacAccepts (cipher : Block → Block → Block) (c : List Byte) (tag key : Block)
    (nonce : Nonce) : Bool :=
  match decPmacAes128 cipher unwritten (memoryOf c) c.length tag key nonce with
  | some (_, ok) => ok
  | none => false

theorem decPmacAes128_eq (cipher : Block → Block → Block) (c : List Byte) (tag key : Block)
    (nonce : Nonce) : ∃ out,
      decPmacAes128 cipher unwritten (memoryOf c) c.length tag key nonce =
        some (out, tagCompare tag (pmacTag (cipher key) (bufferOf c) (c.length / 16))) := by
  obtain ⟨out, hout, _⟩ := exists_ciphertext (cipher key) (modesCounter nonce) c
  have htag := pmac_eq (cipher key) (memoryOf c) (bufferOf c) (c.length / 16) fun p hp =>
    memoryOf_eq c p (by omega)
  refine ⟨out, ?_⟩
  simp only [decPmacAes128]
  rw [hout, Option.bind_eq_bind, Option.bind_some, htag]
  rfl

/- The whole check: the nonce is on one side only. -/
theorem pmacAccepts_iff (cipher : Block → Block → Block) (c : List Byte) (tag key : Block)
    (nonce : Nonce) : pmacAccepts cipher c tag key nonce = true ↔
      tag = pmacTag (cipher key) (bufferOf c) (c.length / 16) := by
  obtain ⟨out, hout⟩ := decPmacAes128_eq cipher c tag key nonce
  rw [pmacAccepts, hout]
  exact tagCompare_iff _ _

/-! ### The nonce -/

/-- For some block cipher, the pair that encryption makes of ciphertext `c` under
`n` is not accepted under `n'`. -/
def NonceAuthenticated (c : List Byte) (n n' : Nonce) : Prop :=
  ∃ (cipher : Block → Equiv.Perm Block) (key : Block), ∀ m out tag,
    encPmacAes128 (fun k => cipher k) unwritten (memoryOf m) m.length key n = some (out, tag) →
    m.length = c.length → (∀ p < c.length, out p = memoryOf c p) →
    pmacAccepts (fun k => cipher k) c tag key n' = false

/- Every whole-block ciphertext is the encryption of some message. -/
theorem exists_pmac_message (cipher : Block → Block → Block) (c : List Byte) (key : Block)
    (nonce : Nonce) (hlen : 16 ∣ c.length) : ∃ m out,
      m.length = c.length ∧ (∀ p < c.length, out p = memoryOf c p) ∧
      encPmacAes128 cipher unwritten (memoryOf m) m.length key nonce =
        some (out, pmacTag (cipher key) (bufferOf c) (c.length / 16)) := by
  let E := cipher key
  let ks := modesStream E (modesCounter nonce)
  let m := xorStream ks c
  have hm : m.length = c.length := length_xorStream ks c
  obtain ⟨out, hout, hbytes⟩ := exists_ciphertext E (modesCounter nonce) m
  have hback : ∀ p < c.length, out p = some (bufferOf c p) := by
    intro p hp
    have hp' : bufferOf m p = bufferOf c p ^^^ ks p := bufferOf_xorStream ks c p hp
    rw [hbytes, hm, if_pos hp, hp', BitVec.xor_assoc, BitVec.xor_self, BitVec.xor_zero]
  have hblocks : (m.length + 15) / 16 = c.length / 16 := by omega
  have htag := pmac_eq E out (bufferOf c) (c.length / 16) fun p hp => hback p (by omega)
  refine ⟨m, out, hm, fun p hp => ?_, ?_⟩
  · rw [hback p hp]
    exact (memoryOf_eq c p hp).symm
  · simp only [encPmacAes128]
    rw [hout, Option.bind_eq_bind, Option.bind_some, hblocks, htag]
    rfl

/- The pair made under `n` passes under `n'`, whatever the cipher. -/
theorem accepted_under_any_nonce (cipher : Block → Block → Block) (c : List Byte) (key : Block)
    (n n' : Nonce) (hlen : 16 ∣ c.length) : ∃ m out tag,
      encPmacAes128 cipher unwritten (memoryOf m) m.length key n = some (out, tag) ∧
      m.length = c.length ∧ (∀ p < c.length, out p = memoryOf c p) ∧
      pmacAccepts cipher c tag key n' = true := by
  obtain ⟨m, out, hm, hout, henc⟩ := exists_pmac_message cipher c key n hlen
  exact ⟨m, out, _, henc, hm, hout, (pmacAccepts_iff cipher c _ key n').mpr rfl⟩

theorem nonce_not_authenticated (c : List Byte) (n n' : Nonce) (hlen : 16 ∣ c.length) :
    ¬ NonceAuthenticated c n n' := by
  rintro ⟨cipher, key, hrefused⟩
  obtain ⟨m, out, tag, henc, hm, hout, hyes⟩ :=
    accepted_under_any_nonce (fun k => cipher k) c key n n' hlen
  have hno := hrefused m out tag henc hm hout
  rw [hyes] at hno
  cases hno

theorem nonce_not_authenticated_example :
    ¬ NonceAuthenticated (List.replicate 32 7) zeroNonce (fun _ => 1) :=
  nonce_not_authenticated (List.replicate 32 7) zeroNonce (fun _ => 1) (by decide)

theorem zero_block_accepted_twice : zeroNonce ≠ (fun _ => 1) ∧
    ¬ NonceAuthenticated (List.replicate 16 0) zeroNonce (fun _ => 1) := by
  constructor
  · decide
  · rintro ⟨cipher, key, hrefused⟩
    obtain ⟨m, out, tag, henc, hm, hout, hyes⟩ := accepted_under_any_nonce (fun k => cipher k)
      (List.replicate 16 0) key zeroNonce (fun _ => 1) (by decide)
    have hno := hrefused m out tag henc hm hout
    rw [hyes] at hno
    cases hno

end Pobc.Iot
