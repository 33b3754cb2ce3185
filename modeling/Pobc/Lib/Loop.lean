import Mathlib.Logic.Function.Iterate

/-!
# Loops over an explicit state

The loop shapes of imperative code, as structurally recursive functions on a
state, with an invariant rule each. Nothing here refers to a program.
-/

namespace Pobc.Loop

universe u v

variable {σ : Type u}

/-- `for (i = 0; i < n; i++) s = body(i, s)`. -/
def forRange (n : ℕ) (body : ℕ → σ → σ) (s : σ) : σ :=
  match n with
  | 0 => s
  | n + 1 => body n (forRange n body s)

@[simp] theorem forRange_zero (body : ℕ → σ → σ) (s : σ) : forRange 0 body s = s := rfl

@[simp] theorem forRange_succ (n : ℕ) (body : ℕ → σ → σ) (s : σ) :
    forRange (n + 1) body s = body n (forRange n body s) := rfl

theorem forRange_congr (n : ℕ) (body body' : ℕ → σ → σ) (s : σ)
    (h : ∀ i < n, ∀ t, body i t = body' i t) : forRange n body s = forRange n body' s := by
  induction n with
  | zero => rfl
  | succ n ih =>
    have hrest := ih fun i hi => h i (by omega)
    rw [forRange_succ, forRange_succ, hrest, h n (by omega)]

/- A loop seen through a map that its rounds respect. -/
theorem forRange_map {τ : Type v} (g : σ → τ) (n : ℕ) (body : ℕ → σ → σ) (body' : ℕ → τ → τ) (s : σ)
    (h : ∀ i t, g (body i t) = body' i (g t)) : g (forRange n body s) = forRange n body' (g s) := by
  induction n with
  | zero => rfl
  | succ n ih => rw [forRange_succ, forRange_succ, h, ih]

/- A loop in two pieces. -/
theorem forRange_add (n m : ℕ) (body : ℕ → σ → σ) (s : σ) :
    forRange (n + m) body s = forRange m (fun i => body (n + i)) (forRange n body s) := by
  induction m with
  | zero => rfl
  | succ m ih => rw [← Nat.add_assoc, forRange_succ, forRange_succ, ih]

/- A loop that rewrites the entries below `m` one by one. -/
theorem forRange_update {α : Type*} (m : ℕ) (f : ℕ → α → α) (s : ℕ → α) (i : ℕ) :
    forRange m (fun i s => Function.update s i (f i (s i))) s i =
      if i < m then f i (s i) else s i := by
  induction m with
  | zero => rfl
  | succ m ih =>
    rw [forRange_succ]
    rcases eq_or_ne i m with rfl | hne
    · have hold : ¬ i < i := by omega
      have hnew : i < i + 1 := by omega
      rw [Function.update_self, ih, if_neg hold, if_pos hnew]
    · have hiff : i < m ↔ i < m + 1 := by omega
      rw [Function.update_of_ne hne, ih, if_congr hiff rfl rfl]

/- A loop over a sequence of values. -/
theorem forRange_eq_foldl {α : Type*} (n : ℕ) (step : σ → α → σ) (x : ℕ → α) (s : σ) :
    forRange n (fun i t => step t (x i)) s = ((List.range n).map x).foldl step s := by
  induction n with
  | zero => rfl
  | succ n ih =>
    rw [forRange_succ, ih, List.range_succ, List.map_append, List.foldl_append]
    rfl

theorem forRange_inv (P : ℕ → σ → Prop) (n : ℕ) (body : ℕ → σ → σ) (s : σ) (h0 : P 0 s)
    (hstep : ∀ i < n, ∀ t, P i t → P (i + 1) (body i t)) : P n (forRange n body s) := by
  induction n with
  | zero => exact h0
  | succ n ih =>
    have hn : P n (forRange n body s) := ih fun i hi t ht => hstep i (by omega) t ht
    exact hstep n (by omega) _ hn

/- A loop is undone by undoing its rounds from the last one on. -/
theorem forRange_undo (n : ℕ) (body undo : ℕ → σ → σ) (s : σ)
    (h : ∀ i < n, ∀ t, undo i (body i t) = t) :
    forRange n (fun k => undo (n - 1 - k)) (forRange n body s) = s := by
  have hpart : ∀ k ≤ n, forRange k (fun k => undo (n - 1 - k)) (forRange n body s) =
      forRange (n - k) body s := by
    intro k
    induction k with
    | zero => intro _; rfl
    | succ k ih =>
      intro hk
      have hlast : n - k = n - 1 - k + 1 := by omega
      have hrest : n - (k + 1) = n - 1 - k := by omega
      rw [forRange_succ, ih (by omega), hlast, forRange_succ, h _ (by omega), hrest]
  have hall := hpart n (Nat.le_refl n)
  rwa [Nat.sub_self, forRange_zero] at hall

theorem forRange_bijective (n : ℕ) (body : ℕ → σ → σ)
    (h : ∀ i < n, Function.Bijective (body i)) : Function.Bijective (forRange n body) := by
  induction n with
  | zero => exact Function.bijective_id
  | succ n ih =>
    have hrest : Function.Bijective (forRange n body) := ih fun i hi => h i (by omega)
    exact (h n (by omega)).comp hrest

/-- `while (cond(s)) s = body(s)`, cut off after `fuel` rounds. -/
def whileLoop (fuel : ℕ) (cond : σ → Bool) (body : σ → σ) (s : σ) : σ :=
  match fuel with
  | 0 => s
  | fuel + 1 => if cond s then whileLoop fuel cond body (body s) else s

/-- `while (cond(s)) s = body(s)` is left, in the state `t`. -/
inductive WhileEnds (cond : σ → Bool) (body : σ → σ) : σ → σ → Prop where
  | done (s : σ) (hc : cond s = false) : WhileEnds cond body s s
  | round (s t : σ) (hc : cond s = true) (hrest : WhileEnds cond body (body s) t) :
      WhileEnds cond body s t

theorem WhileEnds.inv (I : σ → Prop) {cond : σ → Bool} {body : σ → σ} {s t : σ}
    (h : WhileEnds cond body s t) (hstep : ∀ s, I s → cond s = true → I (body s)) (hs : I s) :
    I t ∧ cond t = false := by
  induction h with
  | done s hc => exact ⟨hs, hc⟩
  | round s t hc hrest ih => exact ih (hstep s hs hc)

/- A variant that fits in the fuel: the cut-off is never what ends the loop. -/
theorem whileLoop_ends (I : σ → Prop) (variant : σ → ℕ) (cond : σ → Bool) (body : σ → σ)
    (hstep : ∀ s, I s → cond s = true → I (body s) ∧ variant (body s) < variant s)
    (fuel : ℕ) (s : σ) (hs : I s) (hfuel : variant s ≤ fuel) :
    WhileEnds cond body s (whileLoop fuel cond body s) := by
  induction fuel generalizing s with
  | zero =>
    cases hc : cond s with
    | false => exact .done s hc
    | true =>
      have hlt := (hstep s hs hc).2
      omega
  | succ fuel ih =>
    cases hc : cond s with
    | false =>
      have hexit : whileLoop (fuel + 1) cond body s = s := by
        simp only [whileLoop, hc, Bool.false_eq_true, if_false]
      rw [hexit]
      exact .done s hc
    | true =>
      obtain ⟨hI, hlt⟩ := hstep s hs hc
      simp only [whileLoop, hc, if_true]
      exact .round s _ hc (ih (body s) hI (by omega))

theorem whileLoop_inv (I : σ → Prop) (variant : σ → ℕ) (cond : σ → Bool) (body : σ → σ)
    (hstep : ∀ s, I s → cond s = true → I (body s) ∧ variant (body s) < variant s)
    (fuel : ℕ) (s : σ) (hs : I s) (hfuel : variant s ≤ fuel) :
    I (whileLoop fuel cond body s) ∧ cond (whileLoop fuel cond body s) = false :=
  (whileLoop_ends I variant cond body hstep fuel s hs hfuel).inv I
    (fun s hs hc => (hstep s hs hc).1) hs

/-! ### Loops with an effect -/

/-- `forRange` with a body in a monad. -/
def forRangeM {m : Type u → Type v} [Monad m] {σ : Type u} (n : ℕ) (body : ℕ → σ → m σ) (s : σ) :
    m σ :=
  match n with
  | 0 => pure s
  | n + 1 => forRangeM n body s >>= body n

theorem forRangeM_some (P : ℕ → σ → Prop) (n : ℕ) (body : ℕ → σ → Option σ) (s : σ) (h0 : P 0 s)
    (hstep : ∀ i < n, ∀ t, P i t → ∃ t', body i t = some t' ∧ P (i + 1) t') :
    ∃ t, forRangeM n body s = some t ∧ P n t := by
  induction n with
  | zero => exact ⟨s, rfl, h0⟩
  | succ n ih =>
    obtain ⟨t, ht, hP⟩ := ih fun i hi t ht => hstep i (by omega) t ht
    obtain ⟨t', ht', hP'⟩ := hstep n (by omega) t hP
    refine ⟨t', ?_, hP'⟩
    rw [forRangeM, ht, Option.bind_eq_bind, Option.bind_some, ht']

/- A failing round fails the loop. -/
theorem forRangeM_none (n : ℕ) (body : ℕ → σ → Option σ) (s : σ) (i : ℕ) (hi : i < n)
    (hbody : ∀ t, body i t = none) : forRangeM n body s = none := by
  induction n with
  | zero => omega
  | succ n ih =>
    rw [forRangeM, Option.bind_eq_bind]
    rcases Nat.lt_succ_iff_lt_or_eq.mp hi with hlt | rfl
    · rw [ih hlt, Option.bind_none]
    · cases forRangeM i body s with
      | none => rfl
      | some t => rw [Option.bind_some, hbody]

end Pobc.Loop
