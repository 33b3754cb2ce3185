import Pobc.Iot.Htmac
import Mathlib.Logic.Equiv.Basic

/-!
# What the two AES-CTR tags authenticate

The HTMAC digest is a sum over the blocks, so exchanging two blocks keeps it.
Over one and the same set of whole blocks both tags notice every change of a
single byte, and bytes behind the last whole block enter neither of them.
-/

namespace Pobc.Iot
open Pobc.Mode (xorSum)

/-- `dec_htmac_aes128` returns true. -/
def htmacAccepts (order : ByteOrder) (cipher : Block → Block → Block) (c : List Byte)
    (tag key : Block) (nonce : Nonce) : Bool :=
  match decHtmac order cipher c tag key nonce with
  | some (_, ok) => ok
  | none => false

theorem htmacAccepts_iff (order : ByteOrder) (cipher : Block → Block → Block) (c : List Byte)
    (tag key : Block) (nonce : Nonce) : htmacAccepts order cipher c tag key nonce = true ↔
      tag = htmacTag order (cipher key) nonce c := by
  rw [htmacAccepts, decHtmac_eq]
  exact tagCompare_iff _ _

/-! ### Exchanging two blocks -/

/-- `c` with blocks `i` and `j` exchanged. -/
def swapBlocks (c : List Byte) (i j : ℕ) : List Byte :=
  bytesOf (fun p => bufferOf c (Equiv.swap i j (p / 16) * 16 + p % 16)) c.length

theorem blockAt_swapBlocks (c : List Byte) (i j k : ℕ) (hk : k < c.length / 16) :
    blockAt (bufferOf (swapBlocks c i j)) k = blockAt (bufferOf c) (Equiv.swap i j k) := by
  funext l
  have hl := l.isLt
  have hdiv : (k * 16 + l.val) / 16 = k := by omega
  have hmod : (k * 16 + l.val) % 16 = l.val := by omega
  simp only [blockAt]
  rw [swapBlocks, bufferOf_bytesOf _ _ _ (by omega), hdiv, hmod]

theorem swap_lt (i j n k : ℕ) (hi : i < n) (hj : j < n) : Equiv.swap i j k < n ↔ k < n := by
  rw [Equiv.swap_apply_def]
  split
  · omega
  · split
    · omega
    · rfl

/- A sum over the blocks does not see their order. -/
theorem digestWord_swapBlocks (c : List Byte) (nonce : Nonce) (i j : ℕ) (hi : i < c.length / 16)
    (hj : j < c.length / 16) :
    digestWord (bufferOf (swapBlocks c i j)) (c.length / 16) nonce =
      digestWord (bufferOf c) (c.length / 16) nonce := by
  funext l
  have hsum : ∑ k ∈ Finset.range (c.length / 16), blockTerm (blockAt (bufferOf
      (swapBlocks c i j)) k) l =
      ∑ k ∈ Finset.range (c.length / 16), blockTerm (blockAt (bufferOf c) k) l := by
    apply Finset.sum_equiv (Equiv.swap i j)
    · intro k
      rw [Finset.mem_range, Finset.mem_range, swap_lt i j _ k hi hj]
    · intro k hk
      rw [blockAt_swapBlocks c i j k (Finset.mem_range.mp hk)]
  rw [digestWord, digestWord, hsum]

theorem htmacAccepts_swapBlocks (order : ByteOrder) (cipher : Block → Block → Block)
    (c : List Byte) (tag key : Block) (nonce : Nonce) (i j : ℕ) (hi : i < c.length / 16)
    (hj : j < c.length / 16) (h : htmacAccepts order cipher c tag key nonce = true) :
    htmacAccepts order cipher (swapBlocks c i j) tag key nonce = true := by
  have hlen : (swapBlocks c i j).length = c.length := length_bytesOf _ _
  rw [htmacAccepts_iff] at h ⊢
  rw [h, htmacTag, htmacTag, hlen, digestWord_swapBlocks c nonce i j hi hj]

/-- Every exchange of two unequal blocks of `c` is noticed. -/
def OrderAuthenticated (order : ByteOrder) (cipher : Block → Block → Block) (c : List Byte)
    (tag key : Block) (nonce : Nonce) : Prop :=
  ∀ i j, i < c.length / 16 → j < c.length / 16 →
    blockAt (bufferOf c) i ≠ blockAt (bufferOf c) j →
    htmacAccepts order cipher (swapBlocks c i j) tag key nonce = false

theorem orderAuthenticated_iff (order : ByteOrder) (cipher : Block → Block → Block)
    (c : List Byte) (tag key : Block) (nonce : Nonce)
    (hacc : htmacAccepts order cipher c tag key nonce = true) :
    OrderAuthenticated order cipher c tag key nonce ↔
      ∀ i j, i < c.length / 16 → j < c.length / 16 →
        blockAt (bufferOf c) i = blockAt (bufferOf c) j := by
  constructor
  · intro h i j hi hj
    by_contra hne
    have hno := h i j hi hj hne
    rw [htmacAccepts_swapBlocks order cipher c tag key nonce i j hi hj hacc] at hno
    cases hno
  · intro h i j hi hj hne
    exact absurd (h i j hi hj) hne

theorem orderAuthenticated_iff_example :
    OrderAuthenticated .big (fun _ => id) (List.replicate 32 3)
      (htmacTag .big id zeroNonce (List.replicate 32 3)) zeroBlock zeroNonce ↔
      ∀ i j, i < 2 → j < 2 → blockAt (bufferOf (List.replicate 32 3)) i =
        blockAt (bufferOf (List.replicate 32 3)) j :=
  orderAuthenticated_iff .big (fun _ => id) (List.replicate 32 3) _ zeroBlock zeroNonce
    ((htmacAccepts_iff _ _ _ _ _ _).mpr rfl)

theorem exchanged_blocks_accepted :
    let c : List Byte := List.replicate 16 0 ++ List.replicate 16 1
    let tag := htmacTag .little id zeroNonce c
    16 ∣ c.length ∧
      htmacAccepts .little (fun _ => Equiv.refl Block) c tag zeroBlock zeroNonce = true ∧
      ¬ OrderAuthenticated .little (fun _ => Equiv.refl Block) c tag zeroBlock zeroNonce := by
  intro c tag
  have hacc : htmacAccepts .little (fun _ => Equiv.refl Block) c tag zeroBlock zeroNonce = true :=
    (htmacAccepts_iff _ _ _ _ _ _).mpr rfl
  have hne : blockAt (bufferOf c) 0 ≠ blockAt (bufferOf c) 1 := by decide
  refine ⟨by decide, hacc, fun hauth => ?_⟩
  have hno := hauth 0 1 (by decide) (by decide) hne
  rw [htmacAccepts_swapBlocks _ _ c tag zeroBlock zeroNonce 0 1 (by decide) (by decide) hacc] at hno
  cases hno

/-! ### Changing one byte -/

/-- The ciphertexts are equally long and differ in byte `p` and nowhere else. -/
def DifferAt (c c' : List Byte) (p : ℕ) : Prop :=
  c'.length = c.length ∧ p < c.length ∧ ∀ q, memoryOf c q = memoryOf c' q ↔ q ≠ p

theorem DifferAt.bufferOf_eq_iff {c c' : List Byte} {p : ℕ} (h : DifferAt c c' p) (q : ℕ) :
    bufferOf c q = bufferOf c' q ↔ q ≠ p := by
  obtain ⟨hlen, hp, hbytes⟩ := h
  rw [← hbytes q]
  rcases Nat.lt_or_ge q c.length with hlt | hge
  · rw [memoryOf_eq c q hlt, memoryOf_eq c' q (by omega), Option.some.injEq]
  · have hpast : ∀ l : List Byte, l.length ≤ q → bufferOf l q = 0 ∧ memoryOf l q = none :=
      fun l hl => ⟨by simp [bufferOf, hl], List.getElem?_eq_none hl⟩
    obtain ⟨h0, h0'⟩ := hpast c hge
    obtain ⟨h1, h1'⟩ := hpast c' (by omega)
    simp only [h0, h1, h0', h1']

theorem DifferAt.blockAt_eq {c c' : List Byte} {p : ℕ} (h : DifferAt c c' p) (i : ℕ)
    (hi : i ≠ p / 16) : blockAt (bufferOf c) i = blockAt (bufferOf c') i := by
  funext j
  have hj := j.isLt
  exact (h.bufferOf_eq_iff (i * 16 + j)).mpr (by omega)

theorem DifferAt.byteAt_block {c c' : List Byte} {p : ℕ} (h : DifferAt c c' p) (j : ℕ)
    (hj : j < 16) : byteAt (blockAt (bufferOf c) (p / 16)) j =
      byteAt (blockAt (bufferOf c') (p / 16)) j ↔ j ≠ p % 16 := by
  have hval : ∀ f : Buffer, byteAt (blockAt f (p / 16)) j = f (p / 16 * 16 + j) := by
    intro f
    rw [byteAt, blockAt, Fin.val_ofNat, Nat.mod_eq_of_lt hj]
  rw [hval, hval, h.bufferOf_eq_iff]
  omega

/- Two sums that differ in one term differ. -/
theorem sum_eq_iff_of_single {A : Type*} [AddCommGroup A] (n a : ℕ) (f g : ℕ → A) (ha : a < n)
    (h : ∀ i, i ≠ a → f i = g i) :
    ∑ i ∈ Finset.range n, f i = ∑ i ∈ Finset.range n, g i ↔ f a = g a := by
  have hmem : a ∈ Finset.range n := Finset.mem_range.mpr ha
  have hrest : ∑ i ∈ (Finset.range n).erase a, f i = ∑ i ∈ (Finset.range n).erase a, g i :=
    Finset.sum_congr rfl fun i hi => h i (Finset.ne_of_mem_erase hi)
  rw [← Finset.add_sum_erase _ f hmem, ← Finset.add_sum_erase _ g hmem, hrest]
  exact add_left_inj _

theorem xorSum_eq_of_single (n a : ℕ) (f g : ℕ → Block) (ha : a < n)
    (h : ∀ i, i ≠ a → f i = g i) (hsum : xorSum n f = xorSum n g) : f a = g a := by
  have hlow : ∀ k ≤ a, xorSum k f = xorSum k g := by
    intro k
    induction k with
    | zero => intro _; rfl
    | succ k ih =>
      intro hk
      show xorBlocks (f k) (xorSum k f) = xorBlocks (g k) (xorSum k g)
      rw [h k (by omega), ih (by omega)]
  induction n with
  | zero => omega
  | succ n ih =>
    have hcancel : xorBlocks (f n) (xorSum n f) = xorBlocks (g n) (xorSum n g) := hsum
    rcases Nat.lt_succ_iff_lt_or_eq.mp ha with hlt | rfl
    · rw [h n (by omega)] at hcancel
      exact ih hlt (xorBlocks_right_inj _ _ _ hcancel)
    · rw [hlow a le_rfl, xorBlocks_comm, xorBlocks_comm (g a)] at hcancel
      exact xorBlocks_right_inj _ _ _ hcancel

/-! ### PMAC -/

theorem pmacTag_ne (E : Equiv.Perm Block) (c c' : List Byte) (p n : ℕ) (h : DifferAt c c' p)
    (hp : p / 16 < n) : pmacTag E (bufferOf c) n ≠ pmacTag E (bufferOf c') n := by
  intro heq
  have hsum := E.injective heq
  have hterm := xorSum_eq_of_single n (p / 16) _ _ hp (fun i hi => by
    rw [pmacInput, pmacInput, h.blockAt_eq i hi]) hsum
  have hinput := E.injective hterm
  rw [pmacInput, pmacInput, xorBlocks_comm, xorBlocks_comm (blockAt (bufferOf c') _)] at hinput
  have hblock := xorBlocks_right_inj _ _ _ hinput
  have hbyte := (h.byteAt_block (p % 16) (Nat.mod_lt p (by decide))).mp (by rw [hblock])
  exact hbyte rfl

/-! ### HTMAC -/

theorem shifted_byte_inj (k : ℕ) (hk : k < 8) (a b : Byte)
    (h : a.setWidth 64 <<< (8 * k) = b.setWidth 64 <<< (8 * k)) : a = b := by
  apply BitVec.eq_of_getLsbD_eq
  intro i hi
  have hbit := congrArg (fun w : BitVec 64 => w.getLsbD (8 * k + i)) h
  have h1 : 8 * k + i < 64 := by omega
  have h2 : ¬ 8 * k + i < 8 * k := by omega
  have h3 : 8 * k + i - 8 * k = i := by omega
  have h4 : i < 64 := by omega
  simpa only [BitVec.getLsbD_shiftLeft, BitVec.getLsbD_setWidth, h1, h2, h3, h4, decide_true,
    decide_false, Bool.not_false, Bool.true_and] using hbit

theorem wordByte_inj (order : ByteOrder) (v w : BitVec 64)
    (h : ∀ k < 8, wordByte order v k = wordByte order w k) : v = w := by
  have hlow : ∀ k < 8, (v >>> (8 * k)).setWidth 8 = (w >>> (8 * k)).setWidth 8 := by
    intro k hk
    cases order with
    | little => exact h k hk
    | big =>
      have hk' : 7 - (7 - k) = k := by omega
      have hbyte := h (7 - k) (by omega)
      simpa only [wordByte, hk'] using hbyte
  apply BitVec.eq_of_getLsbD_eq
  intro i hi
  have hsum : 8 * (i / 8) + i % 8 = i := by omega
  have hmod : i % 8 < 8 := by omega
  have hbit := congrArg (fun b : Byte => b.getLsbD (i % 8)) (hlow (i / 8) (by omega))
  simpa only [BitVec.getLsbD_setWidth, BitVec.getLsbD_ushiftRight, hsum, hmod, decide_true,
    Bool.true_and] using hbit

theorem hashBytes_inj (order : ByteOrder) (v w : ℕ → BitVec 64)
    (h : hashBytes order v = hashBytes order w) : ∀ l < 2, v l = w l := by
  intro l hl
  apply wordByte_inj order
  intro k hk
  have hdiv : (8 * l + k) / 8 = l := by omega
  have hmod : (8 * l + k) % 8 = k := by omega
  have hbyte := congrFun h ⟨8 * l + k, by omega⟩
  simpa only [hashBytes, hdiv, hmod] using hbyte

theorem htmacTag_ne (order : ByteOrder) (E : Equiv.Perm Block) (nonce : Nonce) (c c' : List Byte)
    (p : ℕ) (h : DifferAt c c' p) (hp : p / 16 < c.length / 16) :
    htmacTag order E nonce c ≠ htmacTag order E nonce c' := by
  intro heq
  have hhash := E.injective heq
  rw [h.1] at hhash
  -- the byte sits in word `l` of its block, in place `k`
  let l := p % 16 / 8
  have hword := hashBytes_inj order _ _ hhash l (by omega)
  have hblocks := add_left_cancel hword
  rw [sum_eq_iff_of_single _ (p / 16) _ _ hp fun i hi => by rw [h.blockAt_eq i hi]] at hblocks
  have hbytes : ∀ j, j ≠ p % 16 → byteTerm (byteAt (blockAt (bufferOf c) (p / 16))) l j =
      byteTerm (byteAt (blockAt (bufferOf c') (p / 16))) l j := by
    intro j hj
    unfold byteTerm
    split
    · rename_i hl
      rw [(h.byteAt_block j (by omega)).mpr hj]
    · rfl
  rw [blockTerm, blockTerm, sum_eq_iff_of_single 16 (p % 16) _ _ (by omega) hbytes, byteTerm,
    byteTerm, if_pos rfl, if_pos rfl] at hblocks
  have hbyte := shifted_byte_inj (p % 16 % 8) (by omega) _ _ hblocks
  exact (h.byteAt_block (p % 16) (by omega)).mp hbyte rfl

/-! ### Both modes -/

/-- The two modes of `aes_modes.c` that send a tag. -/
inductive CtrMode
  | pmac
  | htmac

/-- The tag a mode expects for a ciphertext. -/
def CtrMode.tag (mode : CtrMode) (order : ByteOrder) (E : Block → Block) (nonce : Nonce)
    (c : List Byte) : Block :=
  match mode with
  | .pmac => pmacTag E (bufferOf c) (c.length / 16)
  | .htmac => htmacTag order E nonce c

/-- `dec_pmac_aes128` or `dec_htmac_aes128` returns true. -/
def CtrMode.accepts (mode : CtrMode) (order : ByteOrder) (cipher : Block → Block → Block)
    (c : List Byte) (tag key : Block) (nonce : Nonce) : Bool :=
  match mode with
  | .pmac => pmacAccepts cipher c tag key nonce
  | .htmac => htmacAccepts order cipher c tag key nonce

theorem CtrMode.accepts_iff (mode : CtrMode) (order : ByteOrder) (cipher : Block → Block → Block)
    (c : List Byte) (tag key : Block) (nonce : Nonce) :
    mode.accepts order cipher c tag key nonce = true ↔
      tag = mode.tag order (cipher key) nonce c := by
  cases mode with
  | pmac => exact pmacAccepts_iff cipher c tag key nonce
  | htmac => exact htmacAccepts_iff order cipher c tag key nonce

/-- The mode never accepts both ciphertexts with one tag. -/
def ByteAuthenticated (mode : CtrMode) (order : ByteOrder) (cipher : Block → Equiv.Perm Block)
    (key : Block) (nonce : Nonce) (c c' : List Byte) : Prop :=
  ∀ tag, ¬ (mode.accepts order (fun k => cipher k) c tag key nonce = true ∧
    mode.accepts order (fun k => cipher k) c' tag key nonce = true)

theorem byteAuthenticated_iff_tags (mode : CtrMode) (order : ByteOrder)
    (cipher : Block → Equiv.Perm Block) (key : Block) (nonce : Nonce) (c c' : List Byte) :
    ByteAuthenticated mode order cipher key nonce c c' ↔
      mode.tag order (cipher key) nonce c ≠ mode.tag order (cipher key) nonce c' := by
  simp only [ByteAuthenticated, CtrMode.accepts_iff]
  constructor
  · exact fun h heq => h _ ⟨rfl, heq⟩
  · exact fun h tag ⟨hc, hc'⟩ => h (hc.symm.trans hc')

/- Bytes behind the last whole block are in no block of the tag. -/
theorem CtrMode.tag_eq_of_partial (mode : CtrMode) (order : ByteOrder) (E : Block → Block)
    (nonce : Nonce) (c c' : List Byte) (p : ℕ) (h : DifferAt c c' p)
    (hp : 16 * (c.length / 16) ≤ p) : mode.tag order E nonce c = mode.tag order E nonce c' := by
  have hblocks : ∀ i < c.length / 16, blockAt (bufferOf c) i = blockAt (bufferOf c') i :=
    fun i hi => h.blockAt_eq i (by omega)
  cases mode with
  | pmac =>
    simp only [CtrMode.tag]
    rw [h.1]
    exact pmacTag_congr _ _ _ _ fun q hq => (h.bufferOf_eq_iff q).mpr (by omega)
  | htmac =>
    have hdigest : digestWord (bufferOf c) (c.length / 16) nonce =
        digestWord (bufferOf c') (c.length / 16) nonce := by
      funext l
      have hsum : ∑ i ∈ Finset.range (c.length / 16), blockTerm (blockAt (bufferOf c) i) l =
          ∑ i ∈ Finset.range (c.length / 16), blockTerm (blockAt (bufferOf c') i) l :=
        Finset.sum_congr rfl fun i hi => by rw [hblocks i (Finset.mem_range.mp hi)]
      rw [digestWord, digestWord, hsum]
    simp only [CtrMode.tag, htmacTag]
    rw [h.1, hdigest]

theorem CtrMode.tag_ne_of_whole (mode : CtrMode) (order : ByteOrder) (E : Equiv.Perm Block)
    (nonce : Nonce) (c c' : List Byte) (p : ℕ) (h : DifferAt c c' p)
    (hp : p < 16 * (c.length / 16)) : mode.tag order E nonce c ≠ mode.tag order E nonce c' := by
  have hblock : p / 16 < c.length / 16 := by omega
  cases mode with
  | pmac =>
    simp only [CtrMode.tag]
    rw [h.1]
    exact pmacTag_ne E c c' p _ h hblock
  | htmac => exact htmacTag_ne order E nonce c c' p h hblock

theorem byteAuthenticated_iff (mode : CtrMode) (order : ByteOrder)
    (cipher : Block → Equiv.Perm Block) (key : Block) (nonce : Nonce) (c c' : List Byte) (p : ℕ)
    (h : DifferAt c c' p) :
    ByteAuthenticated mode order cipher key nonce c c' ↔ p < 16 * (c.length / 16) := by
  rw [byteAuthenticated_iff_tags]
  constructor
  · intro hne
    by_contra hp
    exact hne (mode.tag_eq_of_partial order (cipher key) nonce c c' p h (Nat.not_lt.mp hp))
  · exact mode.tag_ne_of_whole order (cipher key) nonce c c' p h

theorem differAt_head (a b : Byte) (l : List Byte) (hne : a ≠ b) :
    DifferAt (a :: l) (b :: l) 0 := by
  refine ⟨rfl, Nat.succ_pos _, fun q => ?_⟩
  cases q with
  | zero => simp [memoryOf, hne]
  | succ q => simp [memoryOf]

theorem byteAuthenticated_iff_example :
    let c : List Byte := 0 :: (List.range 40).map (BitVec.ofNat 8)
    let c' : List Byte := 1 :: (List.range 40).map (BitVec.ofNat 8)
    ByteAuthenticated .htmac .little (fun _ => Equiv.refl Block) zeroBlock zeroNonce c c' ↔
      0 < 16 * (c.length / 16) := by
  intro c c'
  exact byteAuthenticated_iff .htmac .little (fun _ => Equiv.refl Block) zeroBlock zeroNonce c c' 0
    (differAt_head 0 1 _ (by decide))

theorem single_byte_not_authenticated : DifferAt [0] [1] 0 ∧ ∀ mode : CtrMode,
    ¬ ByteAuthenticated mode .little (fun _ => Equiv.refl Block) zeroBlock zeroNonce [0] [1] := by
  have hdiff : DifferAt [0] [1] 0 := differAt_head 0 1 [] (by decide)
  refine ⟨hdiff, fun mode hauth => ?_⟩
  rw [byteAuthenticated_iff_tags] at hauth
  exact hauth (mode.tag_eq_of_partial .little _ zeroNonce [0] [1] 0 hdiff (by decide))

end Pobc.Iot
