import Pobc.Lib.Gf
import Pobc.Lib.Loop
import Mathlib.Algebra.BigOperators.Group.List.Basic

/-!
# The machine under the Python circuits

What the circuits use of MP-SPDZ: field elements of `GF(2^128)`, a supply of
random bits and the opening of values. A program is a state transformer; its
state holds the random bits, how many are spent, and the values opened so far.

`Computes` describes a program by its value and by the secrets it opens behind
masks of fresh random bits, and follows the structure of programs; `Returns`
forgets the openings.
-/

namespace Pobc.Mpc
open Pobc.Loop

/-- `GF(2)[y] / (y^128 + y^7 + y^2 + y + 1)`. -/
abbrev Gf2n := Gf 128 0x87#128

def cgf2n (n : ℕ) : Gf2n := ⟨BitVec.ofNat 128 n⟩

def ofBit (b : Bool) : Gf2n := if b then 1 else 0

/-- `x.bit_decompose(n)`: the low coefficients. -/
def bitDecompose (n : ℕ) (x : Gf2n) : List Gf2n :=
  (List.range n).map fun i => ofBit (x.bits.getLsbD i)

def lowByte (x : Gf2n) : BitVec 8 := x.bits.setWidth 8

def shiftLeft (x : Gf2n) (k : ℕ) : Gf2n := ⟨x.bits <<< k⟩
def shiftRight (x : Gf2n) (k : ℕ) : Gf2n := ⟨x.bits >>> k⟩
def land (x y : Gf2n) : Gf2n := ⟨x.bits &&& y.bits⟩

structure Run where
  bits : ℕ → Bool
  used : ℕ
  opened : List Gf2n

abbrev Circuit := StateM Run

def getRandomBit : Circuit Gf2n := fun r => (ofBit (r.bits r.used), { r with used := r.used + 1 })

def reveal (x : Gf2n) : Circuit Gf2n := fun r => (x, { r with opened := r.opened ++ [x] })

/-- The sixteen values of an array, opened in order. -/
def revealArray (x : Fin 16 → Gf2n) : Circuit (Fin 16 → Gf2n) :=
  fun r => (x, { r with opened := r.opened ++ List.ofFn x })

/-! ### Bits -/

theorem getLsbD_ofBit (b : Bool) (i : ℕ) : (ofBit b).bits.getLsbD i = (decide (i = 0) && b) := by
  cases b <;> simp [ofBit, Gf.bits_one]

theorem ofBit_xor (a b : Bool) : ofBit (a ^^ b) = ofBit a + ofBit b := by
  cases a <;> cases b <;> simp [ofBit, Gf.add_self]

theorem bit_extract (x : Gf2n) (k : ℕ) :
    land (shiftRight x k) (cgf2n 1) = ofBit (x.bits.getLsbD k) := by
  apply Gf.ext
  apply BitVec.eq_of_getLsbD_eq
  intro i hi
  rw [getLsbD_ofBit]
  by_cases h0 : i = 0
  · subst h0
    simp [land, shiftRight, cgf2n]
  · have hone : (1#128).getLsbD i = false := by
      rw [BitVec.getLsbD_one]
      simp [h0]
    simp [land, shiftRight, cgf2n, h0]

/-! ### Masks -/

/-- `n` bits of the supply from bit `u` on. -/
def drawn (bits : ℕ → Bool) (u : ℕ) : ℕ → List Gf2n
  | 0 => []
  | n + 1 => ofBit (bits u) :: drawn bits (u + 1) n

/-- The random bits from `u` on, moved to the coordinates `ws`. -/
def maskOf (bits : ℕ → Bool) (u : ℕ) : List ℕ → Gf2n
  | [] => 0
  | w :: ws => ofBit (bits u) * shiftLeft 1 w + maskOf bits (u + 1) ws

theorem bind_apply {α β : Type} (p : Circuit α) (f : α → Circuit β) (r : Run) :
    (p >>= f) r = f (p r).1 (p r).2 := rfl

theorem mapM_getRandomBit {α : Type} (l : List α) (r : Run) :
    (l.mapM fun _ => getRandomBit) r =
      (drawn r.bits r.used l.length, { r with used := r.used + l.length }) := by
  induction l generalizing r with
  | nil => rfl
  | cons a l ih =>
    rw [List.mapM_cons, bind_apply, bind_apply, ih]
    simp only [getRandomBit, List.length_cons, drawn, Nat.add_assoc, Nat.add_comm 1]
    rfl

theorem sum_zip_drawn (bits : ℕ → Bool) (u : ℕ) (ws : List ℕ) :
    (((drawn bits u ws.length).zip ws).map fun p => p.1 * shiftLeft 1 p.2).sum =
      maskOf bits u ws := by
  induction ws generalizing u with
  | nil => rfl
  | cons w ws ih =>
    rw [List.length_cons, drawn, List.zip_cons_cons, List.map_cons, List.sum_cons, ih, maskOf]

theorem getLsbD_shiftLeft_one (b : Bool) (w k : ℕ) (hw : w < 128) :
    (ofBit b * shiftLeft 1 w).bits.getLsbD k = (decide (k = w) && b) := by
  cases b with
  | false => simp [ofBit]
  | true =>
    have htwo : shiftLeft 1 w = Gf.power 128 0x87#128 w := by
      apply Gf.ext
      rw [Gf.power, BitVec.twoPow_eq]
      rfl
    have hone : ofBit true = 1 := rfl
    rw [hone, htwo, one_mul, Gf.power, BitVec.getLsbD_twoPow, decide_eq_true hw, Bool.true_and,
      Bool.and_true]
    exact decide_eq_decide.mpr eq_comm

theorem cgf2n_two_pow (i : ℕ) : cgf2n (2^i) = shiftLeft 1 i := by
  apply Gf.ext
  apply BitVec.eq_of_toNat_eq
  simp [cgf2n, shiftLeft, Nat.shiftLeft_eq]

/- A sum of bits times powers of two has these bits. -/
theorem getLsbD_sum_bits (f : ℕ → Bool) (n k : ℕ) (hn : n ≤ 128) :
    ((List.range n).map fun i => cgf2n (2^i) * ofBit (f i)).sum.bits.getLsbD k =
      (decide (k < n) && f k) := by
  induction n with
  | zero => simp
  | succ n ih =>
    have hlast : (cgf2n (2^n) * ofBit (f n)).bits.getLsbD k = (decide (k = n) && f n) := by
      rw [mul_comm, cgf2n_two_pow, getLsbD_shiftLeft_one _ n k hn]
    rw [List.range_succ, List.map_append, List.sum_append, Gf.bits_add, BitVec.getLsbD_xor,
      ih (by omega), List.map_singleton, List.sum_singleton, hlast]
    rcases Nat.lt_trichotomy k n with hlt | rfl | hgt
    · have hne : ¬ k = n := by omega
      have hin : k < n + 1 := by omega
      simp [hlt, hne, hin]
    · simp
    · have hne : ¬ k = n := by omega
      have hout : ¬ k < n := by omega
      have hout' : ¬ k < n + 1 := by omega
      simp [hne, hout, hout']

/- A mask has no coordinate outside its positions. -/
theorem getLsbD_maskOf_of_notMem (bits : ℕ → Bool) (u : ℕ) (ws : List ℕ) (k : ℕ)
    (hws : ∀ w ∈ ws, w < 128) (hk : k ∉ ws) : (maskOf bits u ws).bits.getLsbD k = false := by
  induction ws generalizing u with
  | nil => simp [maskOf]
  | cons w ws ih =>
    have hne : ¬ k = w := fun h => hk (h ▸ List.mem_cons_self)
    have htail := ih (u + 1) (fun v hv => hws v (List.mem_cons_of_mem _ hv))
      fun h => hk (List.mem_cons_of_mem _ h)
    rw [maskOf, Gf.bits_add, BitVec.getLsbD_xor, htail,
      getLsbD_shiftLeft_one _ w k (hws w List.mem_cons_self), decide_eq_false hne]
    rfl

/- Unmasking: each position returns the bit of `x` under the mask. -/
theorem unmask_zip_drawn (x : Gf2n) (bits : ℕ → Bool) (u : ℕ) (ws : List ℕ)
    (hws : ∀ w ∈ ws, w < 128) (hnodup : ws.Nodup) :
    (((drawn bits u ws.length).zip ws).map fun p =>
      land (shiftRight (x + maskOf bits u ws) p.2) (cgf2n 1) + p.1) =
      ws.map fun w => ofBit (x.bits.getLsbD w) := by
  induction ws generalizing x u with
  | nil => rfl
  | cons w ws ih =>
    obtain ⟨hfresh, htailNodup⟩ := List.nodup_cons.mp hnodup
    have htail : ∀ v ∈ ws, v < 128 := fun v hv => hws v (List.mem_cons_of_mem _ hv)
    have hw := hws w List.mem_cons_self
    rw [List.length_cons, drawn, List.zip_cons_cons, List.map_cons, List.map_cons]
    congr 1
    · rw [bit_extract, Gf.bits_add, BitVec.getLsbD_xor, maskOf, Gf.bits_add, BitVec.getLsbD_xor,
        getLsbD_shiftLeft_one _ w w hw, getLsbD_maskOf_of_notMem bits _ ws w htail hfresh,
        ← ofBit_xor]
      simp
    · -- the mask of `w` does not reach the other positions
      rw [maskOf, ← add_assoc, ih _ (u + 1) htail htailNodup]
      refine List.map_congr_left fun v hv => ?_
      have hne : ¬ v = w := fun h => hfresh (h ▸ hv)
      rw [Gf.bits_add, BitVec.getLsbD_xor, getLsbD_shiftLeft_one _ w v hw, decide_eq_false hne]
      simp

/-! ### Programs -/

/-- Whatever the state, the program returns `v`. -/
def Returns {α : Type} (p : Circuit α) (v : α) : Prop := ∀ r, (p r).1 = v

theorem returns_pure {α : Type} (v : α) : Returns (pure v) v := fun _ => rfl

theorem returns_bind {α β : Type} (p : Circuit α) (f : α → Circuit β) (a : α) (b : β)
    (hp : Returns p a) (hf : Returns (f a) b) : Returns (p >>= f) b := by
  intro r
  rw [bind_apply, hp r]
  exact hf _

theorem returns_reveal (x : Gf2n) : Returns (reveal x) x := fun _ => rfl

theorem returns_revealArray (x : Fin 16 → Gf2n) : Returns (revealArray x) x := fun _ => rfl

theorem returns_mapM {α β : Type} (l : List α) (f : α → Circuit β) (g : α → β)
    (h : ∀ x ∈ l, Returns (f x) (g x)) : Returns (l.mapM f) (l.map g) := by
  induction l with
  | nil => exact returns_pure []
  | cons x l ih =>
    rw [List.mapM_cons, List.map_cons]
    refine returns_bind _ _ (g x) _ (h x List.mem_cons_self) ?_
    exact returns_bind _ _ (l.map g) _ (ih fun y hy => h y (List.mem_cons_of_mem _ hy))
      (returns_pure _)

theorem returns_forRangeM {σ : Type} (n : ℕ) (body : ℕ → σ → Circuit σ) (s : ℕ → σ)
    (hbody : ∀ i < n, Returns (body i (s i)) (s (i + 1))) :
    Returns (forRangeM n body (s 0)) (s n) := by
  induction n with
  | zero => exact returns_pure (s 0)
  | succ n ih =>
    exact returns_bind _ _ (s n) (s (n + 1)) (ih fun i hi => hbody i (by omega))
      (hbody n (by omega))

section Openings

variable (ws : List ℕ)

/-- The opened values of a list of secrets, each masked with the next
`ws.length` random bits. -/
def openings (bits : ℕ → Bool) : ℕ → List Gf2n → List Gf2n
  | _, [] => []
  | u, x :: xs => (x + maskOf bits u ws) :: openings bits (u + ws.length) xs

theorem openings_append (bits : ℕ → Bool) (u : ℕ) (xs ys : List Gf2n) :
    openings ws bits u (xs ++ ys) =
      openings ws bits u xs ++ openings ws bits (u + ws.length * xs.length) ys := by
  induction xs generalizing u with
  | nil => rfl
  | cons x xs ih =>
    have hlen : u + ws.length * (xs.length + 1) = u + ws.length + ws.length * xs.length := by
      rw [Nat.mul_add, Nat.mul_one]
      omega
    rw [List.cons_append, openings, ih, openings, List.length_cons, hlen, List.cons_append]

/-- Equal off the masked positions. -/
def SameOutside (x y : Gf2n) : Prop := ∀ k, k ∉ ws → x.bits.getLsbD k = y.bits.getLsbD k

/- What an observer of the openings sees of the secrets. -/
theorem sameOutside_of_openings (hws : ∀ w ∈ ws, w < 128) (bits bits' : ℕ → Bool) (u : ℕ)
    (xs ys : List Gf2n) (h : openings ws bits u xs = openings ws bits' u ys) :
    List.Forall₂ (SameOutside ws) xs ys := by
  induction xs generalizing u ys with
  | nil =>
    cases ys with
    | nil => exact List.Forall₂.nil
    | cons y ys => cases h
  | cons x xs ih =>
    cases ys with
    | nil => cases h
    | cons y ys =>
      obtain ⟨hhead, htail⟩ := List.cons.inj h
      refine List.Forall₂.cons (fun k hk => ?_) (ih (u + ws.length) ys htail)
      have hbit := congrArg (fun z => z.bits.getLsbD k) hhead
      simp only [Gf.bits_add, BitVec.getLsbD_xor, getLsbD_maskOf_of_notMem _ u ws k hws hk,
        Bool.xor_false] at hbit
      exact hbit

def Run.after (r : Run) (xs : List Gf2n) : Run :=
  { r with
    used := r.used + ws.length * xs.length
    opened := r.opened ++ openings ws r.bits r.used xs }

theorem after_append (r : Run) (xs ys : List Gf2n) :
    (r.after ws xs).after ws ys = r.after ws (xs ++ ys) := by
  simp only [Run.after, openings_append, List.length_append, Nat.mul_add, Nat.add_assoc,
    List.append_assoc]

/-- The program returns `v` and opens the secrets `xs`, freshly masked, in order. -/
def Computes {α : Type} (p : Circuit α) (v : α) (xs : List Gf2n) : Prop :=
  ∀ r, p r = (v, r.after ws xs)

theorem computes_pure {α : Type} (v : α) : Computes ws (pure v) v [] := by
  intro r
  simp only [Run.after, openings, List.append_nil, List.length_nil, Nat.mul_zero, Nat.add_zero]
  rfl

theorem computes_bind {α β : Type} (p : Circuit α) (f : α → Circuit β) (a : α) (b : β)
    (xs ys : List Gf2n) (hp : Computes ws p a xs) (hf : Computes ws (f a) b ys) :
    Computes ws (p >>= f) b (xs ++ ys) := by
  intro r
  rw [bind_apply, hp r, hf, after_append]

theorem computes_forRangeM {σ : Type} (n : ℕ) (body : ℕ → σ → Circuit σ) (s : ℕ → σ)
    (xs : ℕ → List Gf2n) (hbody : ∀ i < n, Computes ws (body i (s i)) (s (i + 1)) (xs i)) :
    Computes ws (forRangeM n body (s 0)) (s n) ((List.range n).flatMap xs) := by
  induction n with
  | zero => exact computes_pure ws (s 0)
  | succ n ih =>
    rw [List.range_succ, List.flatMap_append, List.flatMap_singleton]
    exact computes_bind ws _ _ (s n) (s (n + 1)) _ _ (ih fun i hi => hbody i (by omega))
      (hbody n (by omega))

end Openings

theorem Computes.returns {α : Type} {ws : List ℕ} {p : Circuit α} {v : α} {xs : List Gf2n}
    (h : Computes ws p v xs) : Returns p v := by
  intro r
  rw [h r]

end Pobc.Mpc
