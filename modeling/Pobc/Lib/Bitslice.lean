import Pobc.Lib.Loop
import Mathlib.Data.BitVec
import Mathlib.Logic.Function.Basic

/-!
# Bitsliced programs

Two kinds of code on words that hold one bit of many values each. A gate program
computes on every bit position alone, so its run on words is its run on the bits,
and one run on truth tables is its run on every input. A wiring only moves bits;
wirings compose, and a closed one is checked position by position.
-/

namespace Pobc.Bitslice
open Pobc.Loop

/-! ### Gate programs -/

section Gates

variable {ρ : Type*} [DecidableEq ρ] {α β : Type*}

/-- `d = a`, `d = a ^ b` and `d = a & b` on registers. -/
inductive Gate (ρ : Type*) where
  | copy (d a : ρ)
  | xor (d a b : ρ)
  | and (d a b : ρ)

def Gate.exec (xor and : α → α → α) (s : ρ → α) : Gate ρ → ρ → α
  | .copy d a => Function.update s d (s a)
  | .xor d a b => Function.update s d (xor (s a) (s b))
  | .and d a b => Function.update s d (and (s a) (s b))

def run (xor and : α → α → α) (program : List (Gate ρ)) (s : ρ → α) : ρ → α :=
  program.foldl (Gate.exec xor and) s

/- A map that respects the two operations passes through a program. -/
theorem run_map (xor and : α → α → α) (xor' and' : β → β → β) (φ : α → β)
    (hxor : ∀ a b, φ (xor a b) = xor' (φ a) (φ b)) (hand : ∀ a b, φ (and a b) = and' (φ a) (φ b))
    (program : List (Gate ρ)) (s : ρ → α) :
    φ ∘ run xor and program s = run xor' and' program (φ ∘ s) := by
  have hexec : ∀ (g : Gate ρ) (t : ρ → α),
      φ ∘ Gate.exec xor and t g = Gate.exec xor' and' (φ ∘ t) g := by
    intro g t
    cases g with
    | copy d a =>
      rw [Gate.exec, Gate.exec, Function.comp_update]
      rfl
    | xor d a b =>
      rw [Gate.exec, Gate.exec, Function.comp_update, hxor]
      rfl
    | and d a b =>
      rw [Gate.exec, Gate.exec, Function.comp_update, hand]
      rfl
  induction program generalizing s with
  | nil => rfl
  | cons g rest ih => rw [run, List.foldl_cons, ← run, ih, hexec, run, run, List.foldl_cons]

/- Every bit position of a bitsliced run is a run on bits. -/
theorem getLsbD_run {w : ℕ} (program : List (Gate ρ)) (s : ρ → BitVec w) (p : ℕ) (r : ρ) :
    (run (· ^^^ ·) (· &&& ·) program s r).getLsbD p =
      run Bool.xor Bool.and program (fun r => (s r).getLsbD p) r :=
  congrFun (run_map (· ^^^ ·) (· &&& ·) Bool.xor Bool.and (fun x : BitVec w => x.getLsbD p)
    (fun _ _ => BitVec.getLsbD_xor) (fun _ _ => BitVec.getLsbD_and) program s) r

end Gates

/-! ### Wirings -/

section Wirings

variable {w : ℕ}

/-- Bit `p` of word `i` after `f` is bit `(σ (i, p)).2` of word `(σ (i, p)).1` before. -/
structure Wires (f : (ℕ → BitVec w) → ℕ → BitVec w) (σ : ℕ × ℕ → ℕ × ℕ) : Prop where
  lt : ∀ i p, p < w → (σ (i, p)).2 < w
  bit : ∀ s i p, p < w → (f s i).getLsbD p = (s (σ (i, p)).1).getLsbD (σ (i, p)).2

theorem Wires.comp {f g : (ℕ → BitVec w) → ℕ → BitVec w} {σ τ : ℕ × ℕ → ℕ × ℕ} (hf : Wires f σ)
    (hg : Wires g τ) : Wires (fun s => g (f s)) (σ ∘ τ) where
  lt i p hp := hf.lt _ _ (hg.lt i p hp)
  bit s i p hp := by
    rw [hg.bit (f s) i p hp, hf.bit s _ _ (hg.lt i p hp)]
    rfl

/-- `SWAPMOVE(s[a], s[b], mask, n)`: the bits of `s[b]` under the mask change places with
the bits of `s[a]` that lie `n` positions higher. -/
def swapMove (a b : ℕ) (mask : BitVec w) (n : ℕ) (s : ℕ → BitVec w) : ℕ → BitVec w :=
  let tmp := (s b ^^^ (s a >>> n)) &&& mask
  let s := Function.update s b (s b ^^^ tmp)
  Function.update s a (s a ^^^ (tmp <<< n))

def swapWire (a b : ℕ) (mask : BitVec w) (n : ℕ) (q : ℕ × ℕ) : ℕ × ℕ :=
  if q.1 = b ∧ mask.getLsbD q.2 then (a, n + q.2)
  else if q.1 = a ∧ n ≤ q.2 ∧ mask.getLsbD (q.2 - n) then (b, q.2 - n)
  else q

theorem swapWire_lt (a b : ℕ) (mask : BitVec w) (n : ℕ)
    (hfit : ∀ p < w, mask.getLsbD p = true → n + p < w) (i p : ℕ) (hp : p < w) :
    (swapWire a b mask n (i, p)).2 < w := by
  simp only [swapWire]
  split
  case isTrue h => exact hfit p hp h.2
  case isFalse =>
    split
    · omega
    · exact hp

theorem getLsbD_maskedDiff (x y mask : BitVec w) (n p : ℕ) :
    ((x ^^^ (y >>> n)) &&& mask).getLsbD p =
      ((x.getLsbD p ^^ y.getLsbD (n + p)) && mask.getLsbD p) := by
  rw [BitVec.getLsbD_and, BitVec.getLsbD_xor, BitVec.getLsbD_ushiftRight]

theorem getLsbD_maskedDiff_shiftLeft (x y mask : BitVec w) (n p : ℕ) (hp : p < w) :
    (((x ^^^ (y >>> n)) &&& mask) <<< n).getLsbD p =
      (decide (n ≤ p) && ((x.getLsbD (p - n) ^^ y.getLsbD p) && mask.getLsbD (p - n))) := by
  rw [BitVec.getLsbD_shiftLeft, getLsbD_maskedDiff, decide_eq_true hp, Bool.true_and]
  by_cases hn : n ≤ p
  · have hsum : n + (p - n) = p := by omega
    have hlt : ¬ p < n := by omega
    rw [hsum, decide_eq_false hlt, decide_eq_true hn, Bool.not_false]
  · have hlt : p < n := by omega
    rw [decide_eq_true hlt, decide_eq_false hn, Bool.not_true, Bool.false_and, Bool.false_and]

/- Within one word the two sides of the exchange must not overlap. -/
theorem wires_swapMove (a b : ℕ) (mask : BitVec w) (n : ℕ)
    (hfit : ∀ p < w, mask.getLsbD p = true → n + p < w)
    (h : a ≠ b ∨ ∀ p < w, mask.getLsbD p = true → n ≤ p → mask.getLsbD (p - n) = false) :
    Wires (swapMove a b mask n) (swapWire a b mask n) := by
  refine ⟨fun i p hp => swapWire_lt a b mask n hfit i p hp, fun s i p hp => ?_⟩
  have hdiff := getLsbD_maskedDiff (s b) (s a) mask n p
  have hshift := getLsbD_maskedDiff_shiftLeft (s b) (s a) mask n p hp
  have hback : ∀ x y : Bool, (x ^^ (y ^^ x)) = y := by decide
  simp only [swapMove, swapWire]
  rcases eq_or_ne i b with rfl | hib <;> rcases eq_or_ne i a with rfl | hia
  · have hdisj := h.resolve_left (fun hne => hne rfl) p hp
    rw [Function.update_self, Function.update_self, BitVec.getLsbD_xor, BitVec.getLsbD_xor, hdiff,
      hshift]
    by_cases hn : n ≤ p
    · cases hm : mask.getLsbD p
      · cases hm' : mask.getLsbD (p - n) <;> simp [hn, hback]
      · simp [hn, hdisj hm hn]
    · cases hm : mask.getLsbD p <;> simp [hn]
  · rw [Function.update_of_ne hia, Function.update_self, BitVec.getLsbD_xor, hdiff]
    cases hm : mask.getLsbD p <;> simp [hia]
  · rw [Function.update_self, Function.update_of_ne hib, BitVec.getLsbD_xor, hshift]
    by_cases hn : n ≤ p
    · cases hm' : mask.getLsbD (p - n) <;> simp [hn, hib, hback]
    · simp [hn, hib]
  · rw [Function.update_of_ne hia, Function.update_of_ne hib]
    simp [hia, hib]

/-- One exchange between two different words. -/
structure Exchange (w : ℕ) where
  a : ℕ
  b : ℕ
  mask : BitVec w
  n : ℕ

def Exchange.apply (e : Exchange w) (s : ℕ → BitVec w) : ℕ → BitVec w :=
  swapMove e.a e.b e.mask e.n s

def Exchange.wire (e : Exchange w) : ℕ × ℕ → ℕ × ℕ := swapWire e.a e.b e.mask e.n

def Exchange.Valid (e : Exchange w) : Prop :=
  e.a ≠ e.b ∧ ∀ p < w, e.mask.getLsbD p = true → e.n + p < w

instance (e : Exchange w) : Decidable e.Valid := inferInstanceAs (Decidable (_ ∧ _))

/- A network of exchanges is traced from its last one back to the first. -/
theorem wires_network (l : List (Exchange w)) (h : ∀ e ∈ l, e.Valid) :
    Wires (fun s => l.foldl (fun s e => e.apply s) s)
      fun q => l.foldr (fun e q => e.wire q) q := by
  induction l with
  | nil => exact ⟨fun _ _ hp => hp, fun _ _ _ _ => rfl⟩
  | cons e l ih =>
    obtain ⟨hne, hfit⟩ := h e List.mem_cons_self
    exact (wires_swapMove e.a e.b e.mask e.n hfit (Or.inl hne)).comp
      (ih fun e he => h e (List.mem_cons_of_mem _ he))

/-- Bit `p` of `f x` is bit `σ p` of `x`. -/
structure WordWires (f : BitVec w → BitVec w) (σ : ℕ → ℕ) : Prop where
  lt : ∀ p < w, σ p < w
  bit : ∀ x p, p < w → (f x).getLsbD p = x.getLsbD (σ p)

theorem WordWires.comp {f g : BitVec w → BitVec w} {σ τ : ℕ → ℕ} (hf : WordWires f σ)
    (hg : WordWires g τ) : WordWires (fun x => g (f x)) (σ ∘ τ) where
  lt p hp := hf.lt _ (hg.lt p hp)
  bit x p hp := by
    rw [hg.bit (f x) p hp, hf.bit x _ (hg.lt p hp)]
    rfl

theorem wordWires_rotate (n : ℕ) (hn : n ≤ w) :
    WordWires (fun x : BitVec w => (x >>> n) ||| (x <<< (w - n))) fun p => (p + n) % w where
  lt p hp := Nat.mod_lt _ (by omega)
  bit x p hp := by
    rw [BitVec.getLsbD_or, BitVec.getLsbD_ushiftRight, BitVec.getLsbD_shiftLeft,
      decide_eq_true hp, Bool.true_and]
    by_cases hlow : p < w - n
    · have hmod : (p + n) % w = n + p := by rw [Nat.mod_eq_of_lt (by omega), Nat.add_comm]
      rw [hmod, decide_eq_true hlow, Bool.not_true, Bool.false_and, Bool.or_false]
    · have hmod : (p + n) % w = p - (w - n) := by
        rw [Nat.mod_eq_sub_mod (by omega), Nat.mod_eq_of_lt (by omega)]
        omega
      rw [hmod, decide_eq_false hlow, BitVec.getLsbD_of_ge x (n + p) (by omega), Bool.false_or,
        Bool.not_false, Bool.true_and]

/-- `SWAPMOVE(x, x, mask, n)`. -/
def swapWord (mask : BitVec w) (n : ℕ) (x : BitVec w) : BitVec w :=
  let tmp := (x ^^^ (x >>> n)) &&& mask
  x ^^^ tmp ^^^ (tmp <<< n)

theorem swapMove_self (i : ℕ) (mask : BitVec w) (n : ℕ) (s : ℕ → BitVec w) :
    swapMove i i mask n s = Function.update s i (swapWord mask n (s i)) := by
  rw [swapMove, Function.update_self, Function.update_idem]
  rfl

theorem wordWires_swapWord (mask : BitVec w) (n : ℕ)
    (hfit : ∀ p < w, mask.getLsbD p = true → n + p < w)
    (h : ∀ p < w, mask.getLsbD p = true → n ≤ p → mask.getLsbD (p - n) = false) :
    WordWires (swapWord mask n) fun p => (swapWire 0 0 mask n (0, p)).2 where
  lt p hp := swapWire_lt 0 0 mask n hfit 0 p hp
  bit x p hp := by
    have hbit := (wires_swapMove 0 0 mask n hfit (Or.inr h)).bit (fun _ => x) 0 p hp
    rwa [swapMove_self, Function.update_self] at hbit

/- Two shifted copies under masks that cut out complementary positions. -/
theorem wordWires_masked (m m' : BitVec w) (k n : ℕ) (σ : ℕ → ℕ)
    (h : ∀ p < w, σ p < w ∧ (m.getLsbD p = true ∧ σ p = k + p ∧ (n ≤ p → m'.getLsbD (p - n) = false) ∨
      m.getLsbD p = false ∧ n ≤ p ∧ m'.getLsbD (p - n) = true ∧ σ p = p - n)) :
    WordWires (fun x : BitVec w => ((x >>> k) &&& m) ||| ((x &&& m') <<< n)) σ where
  lt p hp := (h p hp).1
  bit x p hp := by
    rw [BitVec.getLsbD_or, BitVec.getLsbD_and, BitVec.getLsbD_ushiftRight, BitVec.getLsbD_shiftLeft,
      BitVec.getLsbD_and, decide_eq_true hp, Bool.true_and]
    rcases (h p hp).2 with ⟨hm, hσ, hm'⟩ | ⟨hm, hn, hm', hσ⟩
    · rw [hσ, hm]
      by_cases hn : n ≤ p
      · rw [hm' hn, Bool.and_true, Bool.and_false, Bool.and_false, Bool.or_false]
      · have hlt : p < n := by omega
        rw [decide_eq_true hlt, Bool.and_true, Bool.not_true, Bool.false_and, Bool.or_false]
    · have hlt : ¬ p < n := by omega
      rw [hσ, hm, hm', decide_eq_false hlt, Bool.and_false, Bool.and_true, Bool.not_false,
        Bool.true_and, Bool.false_or]

end Wirings

end Pobc.Bitslice
