import Pobc.Iot.Fixslice
import Pobc.Aes.Layers
import Mathlib.Tactic.IntervalCases

/-!
# The two lanes of the fixsliced state

`Holds l s x` says that the words `s` carry the block `x` in lane `l`. Packing
establishes it for both blocks, each layer of the cipher turns it into the same
statement about the next block, and unpacking reads the blocks back.
-/

namespace Pobc.Fixslice
open Pobc.Loop Pobc.Bitslice

/-- The bit of a word that belongs to byte `j` of lane `l`. -/
def lanePos (l j : ℕ) : ℕ := 8 * (j % 4) + 2 * (3 - j / 4) + (1 - l)

/-- The words `s` carry the block `x` in lane `l`. -/
def Holds (l : ℕ) (s : Words) (x : Block) : Prop :=
  ∀ i < 8, ∀ j < 16, (s i).getLsbD (lanePos l j) = (byteAt x j).getLsbD (7 - i)

theorem lanePos_lt (l j : ℕ) (hj : j < 16) : lanePos l j < 32 := by
  simp only [lanePos]
  omega

theorem Holds.congr {l : ℕ} {s t : Words} {x : Block} (h : Holds l s x) (hst : ∀ i < 8, t i = s i) :
    Holds l t x := by
  intro i hi j hj
  rw [hst i hi, h i hi j hj]

theorem byteAt_fun (f : ℕ → Byte) (j : ℕ) (hj : j < 16) :
    byteAt (fun k : Fin 16 => f k.val) j = f j := by
  simp only [byteAt, Fin.ofNat, Nat.mod_eq_of_lt hj]

/-! ### Loading and storing -/

theorem getLsbD_leLoad32 (x : Block) (off p : ℕ) (hp : p < 32) :
    (leLoad32 x off).getLsbD p = (byteAt x (off + p / 8)).getLsbD (p % 8) := by
  have hpos : p = 8 * (p / 8) + p % 8 := (Nat.div_add_mod p 8).symm
  have hrow : p / 8 < 4 := by omega
  have hbit : p % 8 < 8 := Nat.mod_lt _ (by omega)
  rw [hpos] at hp ⊢
  generalize p / 8 = r at *
  generalize p % 8 = k at *
  have hr : (8 * r + k) / 8 = r := by omega
  have hk : (8 * r + k) % 8 = k := by omega
  rw [hr, hk]
  simp only [leLoad32, BitVec.getLsbD_or, BitVec.getLsbD_shiftLeft, BitVec.getLsbD_setWidth]
  interval_cases r <;> interval_cases k <;> simp

theorem getLsbD_and_setWidth (y : Word) (mask : Word) (k : ℕ) (hk : k < 8)
    (hmask : mask.getLsbD k = true) : ((y &&& mask).setWidth 8).getLsbD k = y.getLsbD k := by
  rw [BitVec.getLsbD_setWidth, BitVec.getLsbD_and, decide_eq_true hk, hmask, Bool.and_true,
    Bool.true_and]

/- Row `r` of the stored word. -/
theorem getLsbD_leStore32 (x : Block) (off : ℕ) (y : Word) (hoff : off + 3 < 16) (r k : ℕ)
    (hr : r < 4) (hk : k < 8) :
    (byteAt (leStore32 x off y) (off + r)).getLsbD k = y.getLsbD (8 * r + k) := by
  have hff : ∀ k < 8, (0xff#32).getLsbD k = true := by decide
  simp only [leStore32]
  match r, hr with
  | 0, _ =>
    show BitVec.getLsbD (byteAt _ off) k = _
    rw [byteAt_setByte_of_ne _ _ _ _ (by omega) (by omega),
      byteAt_setByte_of_ne _ _ _ _ (by omega) (by omega),
      byteAt_setByte_of_ne _ _ _ _ (by omega) (by omega), byteAt_setByte_self _ _ _ (by omega),
      getLsbD_and_setWidth _ _ k hk (hff k hk), Nat.mul_zero, Nat.zero_add]
  | 1, _ =>
    rw [byteAt_setByte_of_ne _ _ _ _ (by omega) (by omega),
      byteAt_setByte_of_ne _ _ _ _ (by omega) (by omega), byteAt_setByte_self _ _ _ (by omega),
      getLsbD_and_setWidth _ _ k hk (hff k hk), BitVec.getLsbD_ushiftRight]
  | 2, _ =>
    rw [byteAt_setByte_of_ne _ _ _ _ (by omega) (by omega), byteAt_setByte_self _ _ _ (by omega),
      getLsbD_and_setWidth _ _ k hk (hff k hk), BitVec.getLsbD_ushiftRight]
  | 3, _ =>
    rw [byteAt_setByte_self _ _ _ (by omega), BitVec.getLsbD_setWidth, decide_eq_true hk,
      Bool.true_and, BitVec.getLsbD_ushiftRight]

theorem byteAt_leStore32_of_ne (x : Block) (off : ℕ) (y : Word) (j : ℕ) (hj : j < 16)
    (hne : j < off ∨ off + 3 < j) : byteAt (leStore32 x off y) j = byteAt x j := by
  simp only [leStore32]
  rw [byteAt_setByte_of_ne _ _ _ _ hj (by omega), byteAt_setByte_of_ne _ _ _ _ hj (by omega),
    byteAt_setByte_of_ne _ _ _ _ hj (by omega), byteAt_setByte_of_ne _ _ _ _ hj (by omega)]

/-! ### Packing -/

/-- The bit exchanges of `packing`. -/
def packNetwork : List (Exchange 32) :=
  [⟨1, 0, 0x55555555#32, 1⟩, ⟨3, 2, 0x55555555#32, 1⟩, ⟨5, 4, 0x55555555#32, 1⟩,
    ⟨7, 6, 0x55555555#32, 1⟩, ⟨2, 0, 0x33333333#32, 2⟩, ⟨3, 1, 0x33333333#32, 2⟩,
    ⟨6, 4, 0x33333333#32, 2⟩, ⟨7, 5, 0x33333333#32, 2⟩, ⟨4, 0, 0x0f0f0f0f#32, 4⟩,
    ⟨5, 1, 0x0f0f0f0f#32, 4⟩, ⟨6, 2, 0x0f0f0f0f#32, 4⟩, ⟨7, 3, 0x0f0f0f0f#32, 4⟩]

/-- The words `packing` loads. -/
def loaded (in0 in1 : Block) : Words := fun i =>
  [leLoad32 in0 0, leLoad32 in1 0, leLoad32 in0 4, leLoad32 in1 4,
    leLoad32 in0 8, leLoad32 in1 8, leLoad32 in0 12, leLoad32 in1 12].getD i 0

theorem packing_eq (in0 in1 : Block) :
    packing in0 in1 = packNetwork.foldl (fun s e => e.apply s) (loaded in0 in1) := rfl

theorem wires_packNetwork : Wires (fun s => packNetwork.foldl (fun s e => e.apply s) s)
    fun q => packNetwork.foldr (fun e q => e.wire q) q :=
  wires_network packNetwork (by decide)

/- Where `packing` puts bit `7 - i` of byte `j`. -/
theorem packNetwork_lanePos : ∀ l < 2, ∀ i < 8, ∀ j < 16,
    packNetwork.foldr (fun e q => e.wire q) (i, lanePos l j) =
      (2 * (j / 4) + l, 8 * (j % 4) + (7 - i)) := by
  decide +kernel

theorem getLsbD_loaded (in0 in1 : Block) (l c p : ℕ) (hl : l < 2) (hc : c < 4) (hp : p < 32) :
    (loaded in0 in1 (2 * c + l)).getLsbD p =
      (byteAt (if l = 0 then in0 else in1) (4 * c + p / 8)).getLsbD (p % 8) := by
  interval_cases l <;> interval_cases c <;> exact getLsbD_leLoad32 _ _ p hp

theorem holds_packing (in0 in1 : Block) (l : ℕ) (hl : l < 2) :
    Holds l (packing in0 in1) (if l = 0 then in0 else in1) := by
  intro i hi j hj
  have hrow : (8 * (j % 4) + (7 - i)) / 8 = j % 4 := by omega
  have hbit : (8 * (j % 4) + (7 - i)) % 8 = 7 - i := by omega
  have hbyte : 4 * (j / 4) + j % 4 = j := Nat.div_add_mod j 4
  rw [packing_eq, wires_packNetwork.bit (loaded in0 in1) i _ (lanePos_lt l j hj),
    packNetwork_lanePos l hl i hi j hj, getLsbD_loaded in0 in1 l (j / 4) _ hl (by omega) (by omega),
    hrow, hbit, hbyte]

/-- The bit exchanges of `unpacking`. -/
def unpackNetwork : List (Exchange 32) :=
  [⟨4, 0, 0x0f0f0f0f#32, 4⟩, ⟨5, 1, 0x0f0f0f0f#32, 4⟩, ⟨6, 2, 0x0f0f0f0f#32, 4⟩,
    ⟨7, 3, 0x0f0f0f0f#32, 4⟩, ⟨2, 0, 0x33333333#32, 2⟩, ⟨3, 1, 0x33333333#32, 2⟩,
    ⟨6, 4, 0x33333333#32, 2⟩, ⟨7, 5, 0x33333333#32, 2⟩, ⟨1, 0, 0x55555555#32, 1⟩,
    ⟨3, 2, 0x55555555#32, 1⟩, ⟨5, 4, 0x55555555#32, 1⟩, ⟨7, 6, 0x55555555#32, 1⟩]

theorem wires_unpackNetwork : Wires (fun s => unpackNetwork.foldl (fun s e => e.apply s) s)
    fun q => unpackNetwork.foldr (fun e q => e.wire q) q :=
  wires_network unpackNetwork (by decide)

theorem unpackNetwork_eq : ∀ l < 2, ∀ c < 4, ∀ r < 4, ∀ k < 8,
    unpackNetwork.foldr (fun e q => e.wire q) (2 * c + l, 8 * r + k) =
      (7 - k, lanePos l (4 * c + r)) := by
  decide +kernel

/-- The words `unpacking` stores. -/
def restored (input : Words) : Words := unpackNetwork.foldl (fun s e => e.apply s) input

theorem getLsbD_restored (input : Words) (x : Block) (l c r k : ℕ) (hl : l < 2) (hc : c < 4)
    (hr : r < 4) (hk : k < 8) (h : Holds l input x) :
    (restored input (2 * c + l)).getLsbD (8 * r + k) = (byteAt x (4 * c + r)).getLsbD k := by
  have hback : 7 - (7 - k) = k := by omega
  rw [restored, wires_unpackNetwork.bit input _ _ (by omega), unpackNetwork_eq l hl c hc r hr k hk,
    h (7 - k) (by omega) (4 * c + r) (by omega), hback]

/-- The four stores of one lane. -/
def storeLane (s : Words) (l : ℕ) : Block :=
  let out := leStore32 zeroBlock 0 (s l)
  let out := leStore32 out 4 (s (2 + l))
  let out := leStore32 out 8 (s (4 + l))
  leStore32 out 12 (s (6 + l))

theorem unpacking_eq (input : Words) :
    unpacking input = (storeLane (restored input) 0, storeLane (restored input) 1) := rfl

theorem byteAt_storeLane (s : Words) (l c r k : ℕ) (hc : c < 4) (hr : r < 4) (hk : k < 8) :
    (byteAt (storeLane s l) (4 * c + r)).getLsbD k = (s (2 * c + l)).getLsbD (8 * r + k) := by
  simp only [storeLane]
  match c, hc with
  | 0, _ =>
    rw [byteAt_leStore32_of_ne _ 12 _ _ (by omega) (by omega),
      byteAt_leStore32_of_ne _ 8 _ _ (by omega) (by omega),
      byteAt_leStore32_of_ne _ 4 _ _ (by omega) (by omega),
      getLsbD_leStore32 _ 0 _ (by omega) r k hr hk, Nat.mul_zero, Nat.zero_add]
  | 1, _ =>
    rw [byteAt_leStore32_of_ne _ 12 _ _ (by omega) (by omega),
      byteAt_leStore32_of_ne _ 8 _ _ (by omega) (by omega),
      getLsbD_leStore32 _ 4 _ (by omega) r k hr hk]
  | 2, _ =>
    rw [byteAt_leStore32_of_ne _ 12 _ _ (by omega) (by omega),
      getLsbD_leStore32 _ 8 _ (by omega) r k hr hk]
  | 3, _ => rw [getLsbD_leStore32 _ 12 _ (by omega) r k hr hk]

theorem storeLane_restored (input : Words) (x : Block) (l : ℕ) (hl : l < 2) (h : Holds l input x) :
    storeLane (restored input) l = x := by
  refine block_ext _ _ fun j hj => BitVec.eq_of_getLsbD_eq fun k hk => ?_
  have hbyte : 4 * (j / 4) + j % 4 = j := Nat.div_add_mod j 4
  rw [← hbyte, byteAt_storeLane _ l _ _ k (by omega) (by omega) hk,
    getLsbD_restored input x l _ _ k hl (by omega) (by omega) hk h]

theorem unpacking_of_holds (input : Words) (x y : Block) (hx : Holds 0 input x)
    (hy : Holds 1 input y) : unpacking input = (x, y) := by
  rw [unpacking_eq, storeLane_restored input x 0 (by decide) hx,
    storeLane_restored input y 1 (by decide) hy]

/-! ### Round keys and the S-box -/

theorem holds_ark (l : ℕ) (s k : Words) (x y : Block) (hx : Holds l s x) (hy : Holds l k y) :
    Holds l (ark s k) (xorBlocks x y) := by
  intro i hi j hj
  have hword : ark s k i = s i ^^^ k i := by
    rw [ark, forRange_update 8 (fun i v => v ^^^ k i), if_pos hi]
  rw [hword, BitVec.getLsbD_xor, hx i hi j hj, hy i hi j hj, ← BitVec.getLsbD_xor]
  rfl

/-- The bits of a byte in the order of the state words. -/
def byteVars (b : Byte) : Var → Bool := Var.init false fun i => b.getLsbD (7 - i)

/-- The truth table of bit `7 - i` of a byte. -/
def byteTable (i : ℕ) : BitVec 256 :=
  [0xffffffffffffffffffffffffffffffff00000000000000000000000000000000#256,
    0xffffffffffffffff0000000000000000ffffffffffffffff0000000000000000#256,
    0xffffffff00000000ffffffff00000000ffffffff00000000ffffffff00000000#256,
    0xffff0000ffff0000ffff0000ffff0000ffff0000ffff0000ffff0000ffff0000#256,
    0xff00ff00ff00ff00ff00ff00ff00ff00ff00ff00ff00ff00ff00ff00ff00ff00#256,
    0xf0f0f0f0f0f0f0f0f0f0f0f0f0f0f0f0f0f0f0f0f0f0f0f0f0f0f0f0f0f0f0f0#256,
    0xcccccccccccccccccccccccccccccccccccccccccccccccccccccccccccccccc#256,
    0xaaaaaaaaaaaaaaaaaaaaaaaaaaaaaaaaaaaaaaaaaaaaaaaaaaaaaaaaaaaaaaaa#256].getD i 0

theorem byteTable_eq : ∀ b : Byte, ∀ i < 8, (byteTable i).getLsbD b.toNat = b.getLsbD (7 - i) := by
  decide +kernel

/-- The truth tables of the words `sbox` leaves. -/
def sboxTable (i : ℕ) : BitVec 256 :=
  [0x52379de7b844e3e14cb3770196ca0329e7bac28f866aac825caa2ec7bf977090#256,
    0xde1f47ccdaa6e87dc094346e4cf24aa61b7ae4c40c54da9f67f5c33d3d024b00#256,
    0xab4db7ecf4b0da90827233b8f9ce61f7943d55b1f287855b07fba08492672280#256,
    0xf210a3aece472e532624b286bc48ecb4f7f17a494ce30f58c2b0f97752b8b11e#256,
    0x4e9ddb76c892fb1be9da849cf6ac6c1b2568ea2effa8527d109020a2193d586a#256,
    0xac39b6c0d6ce2efc577d64e03b0c3ffb23a869a2a428c424a16387fb3b48b4c6#256,
    0x378f68bf6b15275695baf4d10ccb794b19e5b3a1687e90858451ff82b3ac0382#256,
    0xb0e152c690db85fbef424def3ff9154a9754b405753485ec4eb12198f6939112#256].getD i 0

theorem sboxTable_eq : ∀ b : Byte, ∀ i < 8,
    (sboxTable i).getLsbD b.toNat = (Aes.sbox b ^^^ 0x63).getLsbD (7 - i) := by
  decide +kernel

theorem run_sboxProgram_byteTable : ∀ i < 8,
    run (· ^^^ ·) (· &&& ·) sboxProgram (Var.init 0 byteTable) (.state i) = sboxTable i := by
  decide +kernel

theorem getLsbD_init {w : ℕ} (s : ℕ → BitVec w) (f : ℕ → Bool) (p : ℕ)
    (h : ∀ i < 8, (s i).getLsbD p = f i) (v : Var) :
    (Var.init 0 s v).getLsbD p = Var.init false f v := by
  cases v with
  | state i =>
    simp only [Var.init]
    split
    case isTrue hi => exact h i hi
    case isFalse hi => exact BitVec.getLsbD_zero
  | t i => exact BitVec.getLsbD_zero

/- One run of the circuit on truth tables evaluates it at every byte. -/
theorem run_sboxProgram (b : Byte) (i : ℕ) (hi : i < 8) :
    run Bool.xor Bool.and sboxProgram (byteVars b) (.state i) =
      (Aes.sbox b ^^^ 0x63).getLsbD (7 - i) := by
  have hvars : (fun v => (Var.init 0 byteTable v).getLsbD b.toNat) = byteVars b :=
    funext (getLsbD_init byteTable _ _ (byteTable_eq b))
  rw [← sboxTable_eq b i hi, ← run_sboxProgram_byteTable i hi, getLsbD_run, hvars]

/-- `SubBytes` without the constant of its affine map, as `sbox` computes it. -/
def subBytesLinear (x : Block) : Block := fun j => Aes.sbox (x j) ^^^ 0x63

theorem holds_sbox (l : ℕ) (s : Words) (x : Block) (h : Holds l s x) :
    Holds l (sbox s) (subBytesLinear x) := by
  intro i hi j hj
  have hvars : (fun v => (Var.init 0 s v).getLsbD (lanePos l j)) = byteVars (byteAt x j) :=
    funext (getLsbD_init s _ _ fun i hi => h i hi j hj)
  rw [sbox, getLsbD_run, hvars, run_sboxProgram _ i hi]
  rfl

/-! ### Moving bytes -/

/- A rearrangement of each word's bits that sends bytes to bytes. -/
theorem holds_map (l : ℕ) (f : Word → Word) (σ π : ℕ → ℕ) (hf : WordWires f σ)
    (hσ : ∀ j < 16, σ (lanePos l j) = lanePos l (π j)) (hπ : ∀ j < 16, π j < 16) (s : Words)
    (x : Block) (h : Holds l s x) :
    Holds l (fun i => f (s i)) fun j => byteAt x (π j.val) := by
  intro i hi j hj
  rw [hf.bit (s i) _ (lanePos_lt l j hj), hσ j hj, h i hi _ (hπ j hj),
    byteAt_fun (fun j => byteAt x (π j)) j hj]

theorem wordWires_ror (n : ℕ) (hn : n ≤ 32) : WordWires (fun x => ror x n) fun p => (p + n) % 32 :=
  wordWires_rotate n hn

/-- `k` positions round within its byte. -/
def byteTurn (k p : ℕ) : ℕ := 8 * (p / 8) + (p % 8 + k) % 8

theorem wordWires_byteRor6 : WordWires byteRor6 (byteTurn 6) :=
  wordWires_masked _ _ 6 2 _ (by decide)

theorem wordWires_byteRor4 : WordWires byteRor4 (byteTurn 4) :=
  wordWires_masked _ _ 4 4 _ (by decide)

theorem wordWires_byteRor2 : WordWires byteRor2 (byteTurn 2) :=
  wordWires_masked _ _ 2 6 _ (by decide)

/-- The byte `k` rows down and `k * a` columns to the right of byte `j`. -/
def turn (a k j : ℕ) : ℕ := 4 * ((j / 4 + k * a) % 4) + (j % 4 + k) % 4

def turned (a k : ℕ) (x : Block) : Block := fun j => byteAt x (turn a k j.val)

theorem turn_lt (a k j : ℕ) : turn a k j < 16 := by
  simp only [turn]
  omega

theorem holds_turned (l a k : ℕ) (f : Word → Word) (σ : ℕ → ℕ) (hf : WordWires f σ)
    (hσ : ∀ j < 16, σ (lanePos l j) = lanePos l (turn a k j)) (s : Words) (x : Block)
    (h : Holds l s x) : Holds l (fun i => f (s i)) (turned a k x) :=
  holds_map l f σ (turn a k) hf hσ (fun j _ => turn_lt a k j) s x h

/-! ### MixColumns -/

theorem holds_xor (l : ℕ) (s t : Words) (x y : Block) (hx : Holds l s x) (hy : Holds l t y) :
    Holds l (fun i => s i ^^^ t i) (xorBlocks x y) := by
  intro i hi j hj
  rw [BitVec.getLsbD_xor, hx i hi j hj, hy i hi j hj, ← BitVec.getLsbD_xor]
  rfl

/-- Word `i` of the doubled bytes. -/
def xtimeWord (t : Words) (i : ℕ) : Word :=
  if i = 7 then t 0 else if i = 3 ∨ i = 4 ∨ i = 6 then t (i + 1) ^^^ t 0 else t (i + 1)

theorem getLsbD_xtime : ∀ b : Byte, ∀ i < 8, (Aes.xtime b).getLsbD (7 - i) =
    if i = 7 then b.getLsbD (7 - 0)
    else if i = 3 ∨ i = 4 ∨ i = 6 then b.getLsbD (7 - (i + 1)) ^^ b.getLsbD (7 - 0)
    else b.getLsbD (7 - (i + 1)) := by
  decide +kernel

theorem holds_xtime (l : ℕ) (t : Words) (x : Block) (h : Holds l t x) :
    Holds l (xtimeWord t) fun j => Aes.xtime (x j) := by
  intro i hi j hj
  show _ = (Aes.xtime (byteAt x j)).getLsbD (7 - i)
  rw [getLsbD_xtime _ i hi, xtimeWord]
  have h0 := h 0 (by omega) j hj
  by_cases h7 : i = 7
  · rw [if_pos h7, if_pos h7, h0]
  · have hnext := h (i + 1) (by omega) j hj
    rw [if_neg h7, if_neg h7]
    split
    · rw [BitVec.getLsbD_xor, hnext, h0]
    · exact hnext

/-- What the four `mixcolumns` have in common: `f` fetches the next byte of the column and
`g` the byte two rows on. -/
def mixWords (f g : Word → Word) (s : Words) : Words :=
  let t := fun i => s i ^^^ f (s i)
  fun i => xtimeWord t i ^^^ f (s i) ^^^ g (t i)

theorem mixcolumns0_eq (s : Words) : ∀ i < 8, mixcolumns0 s i =
    mixWords (fun x => ror (byteRor6 x) 8) (fun x => ror (byteRor4 x) 16) s i := by
  intro i hi
  interval_cases i <;>
    simp only [mixcolumns0, mixWords, xtimeWord, Function.update_apply] <;> simp <;> ac_rfl

theorem mixcolumns1_eq (s : Words) : ∀ i < 8, mixcolumns1 s i =
    mixWords (fun x => ror (byteRor4 x) 8) (fun x => ror x 16) s i := by
  have hcancel : ∀ x y : Word, x ^^^ (x ^^^ y) = y := fun x y => by
    rw [← BitVec.xor_assoc, BitVec.xor_self, BitVec.zero_xor]
  intro i hi
  interval_cases i <;> simp only [mixcolumns1, mixWords, xtimeWord, Function.update_apply] <;>
    simp [BitVec.xor_assoc, hcancel] <;> ac_rfl

theorem mixcolumns2_eq (s : Words) : ∀ i < 8, mixcolumns2 s i =
    mixWords (fun x => ror (byteRor2 x) 8) (fun x => ror (byteRor4 x) 16) s i := by
  intro i hi
  interval_cases i <;>
    simp only [mixcolumns2, mixWords, xtimeWord, Function.update_apply] <;> simp <;> ac_rfl

theorem mixcolumns3_eq (s : Words) : ∀ i < 8, mixcolumns3 s i =
    mixWords (fun x => ror x 8) (fun x => ror x 16) s i := by
  intro i hi
  interval_cases i <;> simp only [mixcolumns3, mixWords, xtimeWord, Function.update_apply] <;> simp

/-- MixColumns on a state whose rows have moved: column `c` of row `r` stands for column
`c - r * a`. -/
def mixTurned (a : ℕ) (x : Block) : Block :=
  let y := xorBlocks x (turned a 1 x)
  xorBlocks (xorBlocks (fun j => Aes.xtime (y j)) (turned a 1 x)) (turned a 2 y)

theorem holds_mixWords (l a : ℕ) (f g : Word → Word) (σ τ : ℕ → ℕ) (hf : WordWires f σ)
    (hg : WordWires g τ) (hσ : ∀ j < 16, σ (lanePos l j) = lanePos l (turn a 1 j))
    (hτ : ∀ j < 16, τ (lanePos l j) = lanePos l (turn a 2 j)) (s : Words) (x : Block)
    (h : Holds l s x) : Holds l (mixWords f g s) (mixTurned a x) := by
  have hnext := holds_turned l a 1 f σ hf hσ s x h
  have hsum := holds_xor l s _ x _ h hnext
  exact holds_xor l _ _ _ _ (holds_xor l _ _ _ _ (holds_xtime l _ _ hsum) hnext)
    (holds_turned l a 2 g τ hg hτ _ _ hsum)

theorem holds_mixcolumns0 (l : ℕ) (hl : l < 2) (s : Words) (x : Block) (h : Holds l s x) :
    Holds l (mixcolumns0 s) (mixTurned 1 x) := by
  refine (holds_mixWords l 1 _ _ _ _ (wordWires_byteRor6.comp (wordWires_ror 8 (by decide)))
    (wordWires_byteRor4.comp (wordWires_ror 16 (by decide))) ?_ ?_ s x h).congr (mixcolumns0_eq s)
  · interval_cases l <;> decide
  · interval_cases l <;> decide

theorem holds_mixcolumns1 (l : ℕ) (hl : l < 2) (s : Words) (x : Block) (h : Holds l s x) :
    Holds l (mixcolumns1 s) (mixTurned 2 x) := by
  refine (holds_mixWords l 2 _ _ _ _ (wordWires_byteRor4.comp (wordWires_ror 8 (by decide)))
    (wordWires_ror 16 (by decide)) ?_ ?_ s x h).congr (mixcolumns1_eq s)
  · interval_cases l <;> decide
  · interval_cases l <;> decide

theorem holds_mixcolumns2 (l : ℕ) (hl : l < 2) (s : Words) (x : Block) (h : Holds l s x) :
    Holds l (mixcolumns2 s) (mixTurned 3 x) := by
  refine (holds_mixWords l 3 _ _ _ _ (wordWires_byteRor2.comp (wordWires_ror 8 (by decide)))
    (wordWires_byteRor4.comp (wordWires_ror 16 (by decide))) ?_ ?_ s x h).congr (mixcolumns2_eq s)
  · interval_cases l <;> decide
  · interval_cases l <;> decide

theorem holds_mixcolumns3 (l : ℕ) (hl : l < 2) (s : Words) (x : Block) (h : Holds l s x) :
    Holds l (mixcolumns3 s) (mixTurned 4 x) := by
  refine (holds_mixWords l 4 _ _ _ _ (wordWires_ror 8 (by decide)) (wordWires_ror 16 (by decide))
    ?_ ?_ s x h).congr (mixcolumns3_eq s)
  · interval_cases l <;> decide
  · interval_cases l <;> decide

end Pobc.Fixslice
