import Pobc.Lib.Gf
import Pobc.Lib.Loop

/-!
# Reflected words

Elements of `GF(2)[y] / (y^w + p)` written with the coefficient of `y^0` in the
top bit of a word, the bit order of GCM. Multiplication by `y` is a shift to the
right with a conditional reduction, and the bit-serial product that runs through
the bits of a factor from the top is the product of the field.
-/

namespace Pobc.Reflected
open Pobc.Loop

variable {w : ℕ}

/-- Bit `i` from the top is the coefficient of `y^i`. -/
def toGf (p : BitVec w) (x : BitVec w) : Gf w p := ⟨x.reverse⟩

def shiftReduce (r v : BitVec w) : BitVec w := (v >>> 1) ^^^ (if v.getLsbD 0 then r else 0#w)

/-- The product of `x` and `y` bit by bit, `r` being the reflected modulus. -/
def serialMul (r x y : BitVec w) : BitVec w :=
  (forRange w (fun i (s : BitVec w × BitVec w) =>
    (if x.getMsbD i then s.1 ^^^ s.2 else s.1, shiftReduce r s.2)) (0#w, y)).1

variable (p : BitVec w)

theorem reverse_xor (x y : BitVec w) : (x ^^^ y).reverse = x.reverse ^^^ y.reverse := by
  apply BitVec.eq_of_getLsbD_eq
  intro i hi
  simp only [BitVec.getLsbD_reverse, BitVec.getLsbD_xor, BitVec.getMsbD_xor]

theorem toGf_xor (x y : BitVec w) : toGf p (x ^^^ y) = toGf p x + toGf p y :=
  Gf.ext (reverse_xor x y)

theorem toGf_zero : toGf p 0#w = 0 := Gf.ext (BitVec.reverse_eq_zero_iff.mpr rfl)

theorem toGf_injective : Function.Injective (toGf p) := by
  intro x y h
  have hbits : x.reverse = y.reverse := congrArg Gf.bits h
  rw [← BitVec.reverse_reverse_eq (x := x), hbits, BitVec.reverse_reverse_eq]

theorem reverse_ushiftRight_one (v : BitVec w) : (v >>> 1).reverse = v.reverse <<< 1 := by
  apply BitVec.eq_of_getLsbD_eq
  intro i hi
  rw [BitVec.getLsbD_reverse, BitVec.getMsbD_ushiftRight, BitVec.getLsbD_shiftLeft,
    BitVec.getLsbD_reverse, decide_eq_true hi, Bool.true_and, Bool.true_and]

theorem toGf_shiftReduce (v : BitVec w) :
    toGf p (shiftReduce p.reverse v) = Gf.mulY (toGf p v) := by
  have hmsb : v.reverse.msb = v.getLsbD 0 := BitVec.msb_reverse
  apply Gf.ext
  simp only [toGf, shiftReduce, Gf.mulY, reverse_xor, reverse_ushiftRight_one, hmsb]
  split
  · rw [BitVec.reverse_reverse_eq]
  · rw [BitVec.reverse_eq_zero_iff.mpr rfl]

theorem toGf_iterate_shiftReduce (v : BitVec w) (k : ℕ) :
    toGf p ((shiftReduce p.reverse)^[k] v) = Gf.mulY^[k] (toGf p v) := by
  induction k with
  | zero => rfl
  | succ k ih =>
    rw [Function.iterate_succ_apply', toGf_shiftReduce, ih, Function.iterate_succ_apply']

/- After `i` rounds: the partial product of the first `i` bits, and `y^i` times
the other factor. -/
theorem toGf_serialMul (x y : BitVec w) :
    toGf p (serialMul p.reverse x y) = toGf p x * toGf p y := by
  have hrun := forRange_inv
    (fun i (s : BitVec w × BitVec w) =>
      toGf p s.1 = Gf.mulFrom x.reverse i 0 (toGf p y) ∧ toGf p s.2 = Gf.mulY^[i] (toGf p y))
    w (fun i s => (if x.getMsbD i then s.1 ^^^ s.2 else s.1, shiftReduce p.reverse s.2)) (0#w, y)
    ⟨toGf_zero p, rfl⟩ fun i _ s h => by
      obtain ⟨hz, hv⟩ := h
      constructor
      · rw [Gf.mulFrom_split x.reverse i 1 0, Nat.zero_add, Gf.mulFrom, Gf.mulFrom, add_zero,
          BitVec.getLsbD_reverse, ← hz, ← hv]
        split
        · exact toGf_xor p s.1 s.2
        · exact (add_zero _).symm
      · rw [Function.iterate_succ_apply', ← hv]
        exact toGf_shiftReduce p s.2
  rw [mul_comm, Gf.mul_def]
  exact hrun.1

end Pobc.Reflected
