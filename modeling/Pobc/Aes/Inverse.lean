import Pobc.Aes.Layers

/-!
# The inverse cipher of AES-128

`InvCipher` of FIPS-197 on byte arrays. Its rounds are grouped so that each one
undoes a round of `cipher`: add the round key, then the inverses of
`MixColumns`, `ShiftRows` and `SubBytes`.
-/

namespace Pobc.Aes
open Pobc.Loop

variable {α : Type*}

def invSbox (b : Byte) : Byte := (gfInv (lane (invAffineLinear (b ^^^ 0x63)))).bits

def invSubBytes (s : Block) : Block := fun i => invSbox (s i)

/-- Row `r` moves right by `r` columns. -/
def invShiftRows (s : Fin 16 → α) : Fin 16 → α :=
  fun i => byteAt s (4 * ((i.val / 4 + 4 - i.val % 4) % 4) + i.val % 4)

/-- `{a} • a₀ ⊕ {b} • a₁ ⊕ {c} • a₂ ⊕ {d} • a₃`. -/
def mixRow (k : Fin 4 → Byte) (a : Fin 4 → Byte) : Byte :=
  (lane (k 0) * lane (a 0) + lane (k 1) * lane (a 1) + lane (k 2) * lane (a 2) +
    lane (k 3) * lane (a 3)).bits

def invMixColumn (a : Fin 4 → Byte) : Fin 4 → Byte :=
  ![mixRow ![0xe, 0xb, 0xd, 0x9] a, mixRow ![0x9, 0xe, 0xb, 0xd] a,
    mixRow ![0xd, 0x9, 0xe, 0xb] a, mixRow ![0xb, 0xd, 0x9, 0xe] a]

def invMixColumns (s : Block) : Block := ofColumns fun c => invMixColumn (column s c)

def invCipherRound (w : ℕ → Byte) (n : ℕ) (s : Block) : Block :=
  invSubBytes (invShiftRows (invMixColumns (xorBlocks s (roundKey w (n + 1)))))

def invFinalRound (w : ℕ → Byte) (s : Block) : Block :=
  invSubBytes (invShiftRows (xorBlocks s (roundKey w 10)))

def invCipher (w : ℕ → Byte) (s : Block) : Block :=
  xorBlocks (forRange 9 (fun n => invCipherRound w (8 - n)) (invFinalRound w s)) (roundKey w 0)

/-! ### Layers -/

theorem invAffineLinear_affineLinear (b : Byte) : invAffineLinear (affineLinear b) = b := by
  revert b
  decide +kernel

theorem invAffineLinear_xor (a b : Byte) :
    invAffineLinear (a ^^^ b) = invAffineLinear a ^^^ invAffineLinear b := by
  simp only [invAffineLinear, rotateLeft_xor]
  ac_rfl

theorem invSbox_sbox (b : Byte) : invSbox (sbox b) = b := by
  have hadd : sbox b ^^^ 0x63 = affineLinear (gfInv (lane b)).bits := by
    rw [sbox, BitVec.xor_assoc, BitVec.xor_self, BitVec.xor_zero]
  have hlane : lane (gfInv (lane b)).bits = gfInv (lane b) := rfl
  rw [invSbox, hadd, invAffineLinear_affineLinear, hlane, gfInv_gfInv]
  rfl

theorem invSubBytes_subBytes (s : Block) : invSubBytes (subBytes s) = s := by
  funext i
  exact invSbox_sbox (s i)

theorem invShiftRows_shiftRows (s : Fin 16 → α) : invShiftRows (shiftRows s) = s := by
  have hsource : ∀ i : Fin 16,
      Fin.ofNat 16 (4 * ((i.val / 4 + 4 - i.val % 4) % 4) + i.val % 4) =
        ⟨4 * ((i.val / 4 + 4 - i.val % 4) % 4) + i.val % 4, by omega⟩ ∧
      Fin.ofNat 16 (4 * (((4 * ((i.val / 4 + 4 - i.val % 4) % 4) + i.val % 4) / 4 +
        (4 * ((i.val / 4 + 4 - i.val % 4) % 4) + i.val % 4) % 4) % 4) +
        (4 * ((i.val / 4 + 4 - i.val % 4) % 4) + i.val % 4) % 4) = i := by decide
  funext i
  obtain ⟨hfrom, hto⟩ := hsource i
  rw [invShiftRows, byteAt, hfrom, shiftRows, byteAt]
  exact congrArg s hto

theorem invMixColumn_mixColumn (a : Fin 4 → Byte) : invMixColumn (mixColumn a) = a := by
  let y := Gf.power 8 0x1b#8 1
  have he : lane 0xe = y^3 + y^2 + y := by decide
  have hb : lane 0xb = y^3 + y + 1 := by decide
  have hd : lane 0xd = y^3 + y^2 + 1 := by decide
  have h9 : lane 0x9 = y^3 + 1 := by decide
  funext r
  apply lane_inj
  rw [← lane_of_mixColumn a r, ← he, ← hb, ← hd, ← h9]
  generalize mixColumn a = m
  match r with
  | 0 => rfl
  | 1 =>
    show lane 0x9 * lane (m 0) + lane 0xe * lane (m 1) + lane 0xb * lane (m 2) +
        lane 0xd * lane (m 3) =
      lane 0xe * lane (m 1) + lane 0xb * lane (m 2) + lane 0xd * lane (m 3) + lane 0x9 * lane (m 0)
    abel
  | 2 =>
    show lane 0xd * lane (m 0) + lane 0x9 * lane (m 1) + lane 0xe * lane (m 2) +
        lane 0xb * lane (m 3) =
      lane 0xe * lane (m 2) + lane 0xb * lane (m 3) + lane 0xd * lane (m 0) + lane 0x9 * lane (m 1)
    abel
  | 3 =>
    show lane 0xb * lane (m 0) + lane 0xd * lane (m 1) + lane 0x9 * lane (m 2) +
        lane 0xe * lane (m 3) =
      lane 0xe * lane (m 3) + lane 0xb * lane (m 0) + lane 0xd * lane (m 1) + lane 0x9 * lane (m 2)
    abel

theorem invMixColumns_mixColumns (s : Block) : invMixColumns (mixColumns s) = s := by
  apply column_ext
  intro c hc
  rw [invMixColumns, column_ofColumns _ c hc, mixColumns, column_ofColumns _ c hc,
    invMixColumn_mixColumn]

theorem xorBlocks_cancel (s k : Block) : xorBlocks (xorBlocks s k) k = s := by
  funext i
  simp only [xorBlocks]
  rw [BitVec.xor_assoc, BitVec.xor_self, BitVec.xor_zero]

/-! ### The cipher -/

theorem invCipherRound_cipherRound (w : ℕ → Byte) (n : ℕ) (s : Block) :
    invCipherRound w n (cipherRound w n s) = s := by
  rw [invCipherRound, cipherRound, xorBlocks_cancel, invMixColumns_mixColumns,
    invShiftRows_shiftRows, invSubBytes_subBytes]

theorem invFinalRound_finalRound (w : ℕ → Byte) (s : Block) :
    invFinalRound w (finalRound w s) = s := by
  rw [invFinalRound, finalRound, xorBlocks_cancel, invShiftRows_shiftRows, invSubBytes_subBytes]

theorem invCipher_cipher (w : ℕ → Byte) (s : Block) : invCipher w (cipher w s) = s := by
  rw [invCipher, cipher, invFinalRound_finalRound,
    forRange_undo 9 (cipherRound w) (invCipherRound w) _
      fun n _ t => invCipherRound_cipherRound w n t, xorBlocks_cancel]

end Pobc.Aes
