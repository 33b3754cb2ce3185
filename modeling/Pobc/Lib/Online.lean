import Mathlib.Data.Nat.Notation
import Mathlib.Tactic.TypeStar

/-!
# Runs of invertible rounds

A mode of operation that enciphers block after block: a round turns a block into
another one and moves a state on. When the rounds of a second machine undo those
of the first from every state, the runs undo each other, and each of them knows
the state the other one ends in.
-/

namespace Pobc.Online

variable {σ A B : Type*}

/-- The state before round `i` of a run over the blocks `x 0`, `x 1`, …. -/
def runState (step : ℕ → σ → A → B × σ) (s : σ) (x : ℕ → A) : ℕ → σ
  | 0 => s
  | i + 1 => (step i (runState step s x i) (x i)).2

def runOut (step : ℕ → σ → A → B × σ) (s : σ) (x : ℕ → A) (i : ℕ) : B :=
  (step i (runState step s x i) (x i)).1

/-- The rounds of `dec` undo those of `enc`. -/
structure Undoes (enc : ℕ → σ → A → B × σ) (dec : ℕ → σ → B → A × σ) : Prop where
  out : ∀ i s x y, (enc i s x).1 = y ↔ (dec i s y).1 = x
  state : ∀ i s x, (dec i s (enc i s x).1).2 = (enc i s x).2

section Undoes

variable {enc : ℕ → σ → A → B × σ} {dec : ℕ → σ → B → A × σ}

theorem runState_eq (h : Undoes enc dec) (s : σ) (x : ℕ → A) (y : ℕ → B) (n : ℕ)
    (hrun : ∀ i < n, runOut enc s x i = y i) : runState dec s y n = runState enc s x n := by
  induction n with
  | zero => rfl
  | succ n ih =>
    have hrest := ih fun i hi => hrun i (by omega)
    have hlast : (enc n (runState enc s x n) (x n)).1 = y n := hrun n (by omega)
    rw [runState, runState, hrest, ← hlast, h.state]

/- A run gives `y` from `x` exactly when the undoing run gives `x` from `y`. -/
theorem run_iff (h : Undoes enc dec) (s : σ) (x : ℕ → A) (y : ℕ → B) (n : ℕ) :
    (∀ i < n, runOut enc s x i = y i) ↔ ∀ i < n, runOut dec s y i = x i := by
  induction n with
  | zero => exact ⟨fun _ i hi => absurd hi (by omega), fun _ i hi => absurd hi (by omega)⟩
  | succ n ih =>
    have hsplit : ∀ P : ℕ → Prop, (∀ i < n + 1, P i) ↔ (∀ i < n, P i) ∧ P n := by
      intro P
      constructor
      · intro hall
        exact ⟨fun i hi => hall i (by omega), hall n (by omega)⟩
      · rintro ⟨hrest, hlast⟩ i hi
        rcases Nat.lt_succ_iff_lt_or_eq.mp hi with hlt | rfl
        · exact hrest i hlt
        · exact hlast
    rw [hsplit, hsplit, ← ih]
    refine and_congr_right fun hrest => ?_
    have hstate := runState_eq h s x y n hrest
    rw [runOut, runOut, hstate]
    exact h.out n _ _ _

end Undoes

end Pobc.Online
