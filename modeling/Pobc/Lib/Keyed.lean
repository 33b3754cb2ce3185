import Mathlib.Algebra.BigOperators.Group.Multiset.Basic
import Mathlib.Algebra.Group.End
import Mathlib.Algebra.Order.Group.Multiset
import Mathlib.Data.Multiset.Range
import Mathlib.Data.Nat.ModEq
import Mathlib.Logic.Equiv.Basic

/-!
# Multisets of keyed blocks

The blocks `B 0`, …, `B (n - 1)`, each under a key of its own, without their
order. As long as the keys are distinct the multiset determines the sequence; a
key used twice leaves open which of its two blocks came first, and nothing else.
-/

namespace Pobc.Keyed

variable {K V : Type*}

def keyed (c : ℕ → K) (B : ℕ → V) (n : ℕ) : Multiset (K × V) :=
  (Multiset.range n).map fun i => (c i, B i)

theorem mem_keyed (c : ℕ → K) (B : ℕ → V) (n : ℕ) (x : K × V) :
    x ∈ keyed c B n ↔ ∃ i < n, (c i, B i) = x := by
  simp only [keyed, Multiset.mem_map, Multiset.mem_range]

theorem card_keyed (c : ℕ → K) (B : ℕ → V) (n : ℕ) : Multiset.card (keyed c B n) = n := by
  rw [keyed, Multiset.card_map, Multiset.card_range]

theorem keyed_succ (c : ℕ → K) (B : ℕ → V) (n : ℕ) :
    keyed c B (n + 1) = (c n, B n) ::ₘ keyed c B n := by
  rw [keyed, Multiset.range_succ, Multiset.map_cons, keyed]

theorem keyed_congr (c : ℕ → K) (B B' : ℕ → V) (n : ℕ) (h : ∀ i < n, B i = B' i) :
    keyed c B n = keyed c B' n := by
  refine Multiset.map_congr rfl fun i hi => ?_
  rw [h i (Multiset.mem_range.mp hi)]

/- Equal multisets have equal last keys when the other keys agree. -/
theorem last_key_eq (c c' : ℕ → K) (B B' : ℕ → V) (n : ℕ) (hkeys : ∀ i < n, c i = c' i)
    (h : keyed c B (n + 1) = keyed c' B' (n + 1)) : c n = c' n := by
  have hfst := congrArg (Multiset.map Prod.fst) h
  have hrest : ∀ (d : ℕ → K) (D : ℕ → V),
      (keyed d D n).map Prod.fst = (Multiset.range n).map d := by
    intro d D
    rw [keyed, Multiset.map_map]
    rfl
  have hsame : (Multiset.range n).map c = (Multiset.range n).map c' :=
    Multiset.map_congr rfl fun i hi => hkeys i (Multiset.mem_range.mp hi)
  rw [keyed_succ, keyed_succ, Multiset.map_cons, Multiset.map_cons, hrest, hrest, hsame] at hfst
  exact (Multiset.cons_inj_left _).mp hfst

/- A block whose key is used once is found again in any equal multiset. -/
theorem block_eq_of_key_unique (c : ℕ → K) (B B' : ℕ → V) (n i : ℕ) (hi : i < n)
    (hkey : ∀ k < n, c k = c i → k = i) (h : keyed c B n = keyed c B' n) : B i = B' i := by
  have hmem : (c i, B i) ∈ keyed c B' n := by
    rw [← h]
    exact (mem_keyed c B n _).mpr ⟨i, hi, rfl⟩
  obtain ⟨k, hk, heq⟩ := (mem_keyed c B' n _).mp hmem
  rw [Prod.mk.injEq] at heq
  have hki := hkey k hk heq.1
  rw [← heq.2, hki]

theorem keyed_eq_iff_of_distinct (c : ℕ → K) (B B' : ℕ → V) (n : ℕ)
    (hc : ∀ i < n, ∀ k < n, c k = c i → k = i) :
    keyed c B n = keyed c B' n ↔ ∀ i < n, B i = B' i := by
  constructor
  · intro h i hi
    exact block_eq_of_key_unique c B B' n i hi (hc i hi) h
  · exact keyed_congr c B B' n

theorem keys_nodup (c : ℕ → K) (B : ℕ → V) (n : ℕ)
    (hc : ∀ i < n, ∀ k < n, c k = c i → k = i) : ((keyed c B n).map Prod.fst).Nodup := by
  rw [keyed, Multiset.map_map]
  refine Multiset.Nodup.map_on (fun k hk i hi h => ?_) (Multiset.nodup_range n)
  exact hc i (Multiset.mem_range.mp hi) k (Multiset.mem_range.mp hk) h

/- Two blocks under one key come back in either order. -/
theorem pair_eq_pair {key : K} {x y x' y' : V}
    (h : (key, x) ::ₘ {(key, y)} = (key, x') ::ₘ {(key, y')}) :
    (y = y' ∧ x = x') ∨ (x = y' ∧ y = x') := by
  rw [Multiset.cons_eq_cons] at h
  rcases h with ⟨hx, hrest⟩ | ⟨_, t, hl, hr⟩
  · have hy := Multiset.singleton_inj.mp hrest
    exact Or.inl ⟨(Prod.mk.inj hy).2, (Prod.mk.inj hx).2⟩
  · have hl' := (Multiset.singleton_eq_cons_iff _).mp hl
    have hr' := (Multiset.singleton_eq_cons_iff _).mp hr
    exact Or.inr ⟨((Prod.mk.inj hr'.1).2).symm, (Prod.mk.inj hl'.1).2⟩

section Repeat

variable (c : ℕ → K) (B B' : ℕ → V) (n j : ℕ)

/- The block at `j` and the last one apart from the others. -/
theorem keyed_split (hj : j < n) : keyed c B (n + 1) =
    ((Multiset.range n).erase j).map (fun i => (c i, B i)) + ((c n, B n) ::ₘ {(c j, B j)}) := by
  have hrange : Multiset.range n = j ::ₘ (Multiset.range n).erase j :=
    (Multiset.cons_erase (Multiset.mem_range.mpr hj)).symm
  rw [keyed_succ, keyed, hrange, Multiset.map_cons, add_comm, Multiset.cons_add,
    Multiset.singleton_add, ← hrange]

theorem map_erase_congr (h : ∀ i < n, i ≠ j → B i = B' i) :
    ((Multiset.range n).erase j).map (fun i => (c i, B i)) =
      ((Multiset.range n).erase j).map fun i => (c i, B' i) := by
  refine Multiset.map_congr rfl fun i hi => ?_
  obtain ⟨hne, hmem⟩ := (Multiset.Nodup.mem_erase_iff (Multiset.nodup_range n)).mp hi
  rw [h i (Multiset.mem_range.mp hmem) hne]

/- With the key of the last block also used at `j`, exchanging the two blocks
changes nothing. -/
theorem keyed_exchange (hj : j < n) (hrepeat : c j = c n) :
    keyed c (fun i => B (Equiv.swap j n i)) (n + 1) = keyed c B (n + 1) := by
  have hswap : ∀ i < n, i ≠ j → B (Equiv.swap j n i) = B i := by
    intro i hi hne
    rw [Equiv.swap_apply_of_ne_of_ne hne (by omega)]
  rw [keyed_split c _ n j hj, keyed_split c B n j hj, map_erase_congr c _ B n j hswap,
    Equiv.swap_apply_left, Equiv.swap_apply_right, hrepeat]
  exact congrArg _ (Multiset.pair_comm _ _)

theorem keyed_eq_iff_of_repeat (hj : j < n) (hrepeat : c j = c n)
    (hc : ∀ i < n, ∀ k < n, c k = c i → k = i) :
    keyed c B (n + 1) = keyed c B' (n + 1) ↔
      (∀ i < n + 1, B i = B' i) ∨ ∀ i < n + 1, B (Equiv.swap j n i) = B' i := by
  constructor
  · intro h
    have hother : ∀ i < n, i ≠ j → B i = B' i := by
      intro i hi hne
      refine block_eq_of_key_unique c B B' (n + 1) i (by omega) (fun k hk hkey => ?_) h
      rcases Nat.lt_succ_iff_lt_or_eq.mp hk with hlt | rfl
      · exact hc i hi k hlt hkey
      · exact absurd (hc i hi j hj (hrepeat.trans hkey)).symm hne
    -- what is left of both sides are the two blocks under the repeated key
    rw [keyed_split c B n j hj, keyed_split c B' n j hj, map_erase_congr c B B' n j hother] at h
    have hpair := add_left_cancel h
    rw [hrepeat] at hpair
    rcases pair_eq_pair hpair with ⟨h1, h2⟩ | ⟨h1, h2⟩
    · left
      intro i hi
      rcases Nat.lt_succ_iff_lt_or_eq.mp hi with hlt | rfl
      · by_cases hij : i = j
        · rw [hij, h1]
        · exact hother i hlt hij
      · exact h2
    · right
      intro i hi
      rcases Nat.lt_succ_iff_lt_or_eq.mp hi with hlt | rfl
      · by_cases hij : i = j
        · rw [hij, Equiv.swap_apply_left, h1]
        · rw [Equiv.swap_apply_of_ne_of_ne hij (by omega), hother i hlt hij]
      · rw [Equiv.swap_apply_right, h2]
  · rintro (h | h)
    · exact keyed_congr c B B' (n + 1) h
    · rw [← keyed_exchange c B n j hj hrepeat]
      exact keyed_congr c _ B' (n + 1) h

end Repeat

/-! ### Counters that wrap around -/

theorem wrap_inj (a w n : ℕ) (hn : n ≤ w) (i k : ℕ) (hi : i < n) (hk : k < n)
    (h : (k + a) % w = (i + a) % w) : k = i := by
  have hmod : k ≡ i [MOD w] := Nat.ModEq.add_right_cancel' a h
  rwa [Nat.ModEq, Nat.mod_eq_of_lt (by omega), Nat.mod_eq_of_lt (by omega)] at hmod

/- A run of counters and one more value: distinct when the run misses the value. -/
theorem nodup_wrap_iff (a w n z : ℕ) (hn : n ≤ w) :
    ((List.range n).map (fun i => (i + a) % w) ++ [z]).Nodup ↔ ∀ i < n, (i + a) % w ≠ z := by
  have hrun : ((List.range n).map fun i => (i + a) % w).Nodup := by
    refine List.Nodup.map_on (fun k hk i hi h => ?_) List.nodup_range
    exact wrap_inj a w n hn i k (List.mem_range.mp hi) (List.mem_range.mp hk) h
  rw [List.nodup_append]
  constructor
  · rintro ⟨_, _, hdis⟩ i hi
    exact hdis _ (List.mem_map_of_mem (List.mem_range.mpr hi)) z (List.mem_singleton_self z)
  · intro h
    refine ⟨hrun, List.nodup_singleton z, fun x hx y hy => ?_⟩
    obtain ⟨i, hi, rfl⟩ := List.mem_map.mp hx
    rw [List.mem_singleton.mp hy]
    exact h i (List.mem_range.mp hi)

/-! ### Telling keyed blocks apart by permutations -/

theorem key_notMem_of_nodup (t : K) (x : V) (R : Multiset (K × V))
    (hnodup : (((t, x) ::ₘ R).map Prod.fst).Nodup) : ∀ p ∈ R, p.1 ≠ t := by
  rw [Multiset.map_cons, Multiset.nodup_cons] at hnodup
  intro p hp hpt
  exact hnodup.1 (Multiset.mem_map.mpr ⟨p, hp, hpt⟩)

section Sum

variable {G : Type*} [AddCommGroup G] [DecidableEq K]

/-- The sum of the images of the blocks, each under the permutation of its key. -/
def keyedSum (f : V → G) (E : K → Equiv.Perm V) (M : Multiset (K × V)) : G :=
  (M.map fun p => f (E p.1 p.2)).sum

/-- `σ` under the key `t`, nothing elsewhere. -/
def single (t : K) (σ : Equiv.Perm V) : K → Equiv.Perm V := fun u => if u = t then σ else 1

variable (f : V → G) (t : K) (σ : Equiv.Perm V) (x : V) (M M' R : Multiset (K × V))

theorem keyedSum_single_of_notMem (ht : ∀ p ∈ M, p.1 ≠ t) :
    keyedSum f (single t σ) M = keyedSum f (single t 1) M := by
  refine congrArg Multiset.sum (Multiset.map_congr rfl fun p hp => ?_)
  rw [single, single, if_neg (ht p hp), if_neg (ht p hp)]

theorem keyedSum_single_cons (ht : ∀ p ∈ R, p.1 ≠ t) :
    keyedSum f (single t σ) ((t, x) ::ₘ R) = f (σ x) + keyedSum f (single t 1) R := by
  rw [← keyedSum_single_of_notMem f t σ R ht]
  simp only [keyedSum, Multiset.map_cons, Multiset.sum_cons, single, if_true]

variable [DecidableEq V]

/- A block of `M` that is not in `M'`. The values of the permutation at the block,
and at the one that stands under its key in `M'`, can be moved independently. -/
theorem exists_sum_ne_of_mem (hf : Function.Injective f)
    (hthird : ∀ x x' : V, ∃ y, y ≠ x ∧ y ≠ x') (hM : (M.map Prod.fst).Nodup)
    (hM' : (M'.map Prod.fst).Nodup) (hx : (t, x) ∈ M) (hx' : (t, x) ∉ M') :
    ∃ E, keyedSum f E M ≠ keyedSum f E M' := by
  obtain ⟨R, rfl⟩ := Multiset.exists_cons_of_mem hx
  have hR := key_notMem_of_nodup t x R hM
  by_contra hall
  push Not at hall
  by_cases hkey : ∃ x', (t, x') ∈ M'
  · obtain ⟨x', hmem⟩ := hkey
    obtain ⟨R', rfl⟩ := Multiset.exists_cons_of_mem hmem
    have hR' := key_notMem_of_nodup t x' R' hM'
    have hne : x ≠ x' := by
      rintro rfl
      exact hx' (Multiset.mem_cons_self _ _)
    obtain ⟨y, hyx, hyx'⟩ := hthird x x'
    have hid := hall (single t 1)
    have hswap := hall (single t (Equiv.swap x' y))
    rw [keyedSum_single_cons f t 1 x R hR, keyedSum_single_cons f t 1 x' R' hR'] at hid
    rw [keyedSum_single_cons f t _ x R hR, keyedSum_single_cons f t _ x' R' hR',
      Equiv.swap_apply_of_ne_of_ne hne hyx.symm, Equiv.swap_apply_left] at hswap
    have hsame : f x' = f y := add_right_cancel (hid.symm.trans hswap)
    exact hyx' (hf hsame).symm
  · have ht : ∀ p ∈ M', p.1 ≠ t := by
      rintro ⟨u, v⟩ hp rfl
      exact hkey ⟨v, hp⟩
    obtain ⟨y, hyx, _⟩ := hthird x x
    have hid := hall (single t 1)
    have hswap := hall (single t (Equiv.swap x y))
    rw [keyedSum_single_cons f t 1 x R hR] at hid
    rw [keyedSum_single_cons f t _ x R hR, keyedSum_single_of_notMem f t _ M' ht, ← hid,
      Equiv.swap_apply_left] at hswap
    exact hyx (hf (add_right_cancel hswap))

/- Distinct multisets under distinct keys have distinct sums for some permutations. -/
theorem exists_sum_ne (hf : Function.Injective f) (hthird : ∀ x x' : V, ∃ y, y ≠ x ∧ y ≠ x')
    (hM : (M.map Prod.fst).Nodup) (hM' : (M'.map Prod.fst).Nodup) (hne : M ≠ M') :
    ∃ E, keyedSum f E M ≠ keyedSum f E M' := by
  have hdiff : ∃ p, ¬ (p ∈ M ↔ p ∈ M') := by
    by_contra hall
    push Not at hall
    exact hne ((Multiset.Nodup.ext (Multiset.Nodup.of_map _ hM)
      (Multiset.Nodup.of_map _ hM')).mpr hall)
  obtain ⟨⟨t, x⟩, hp⟩ := hdiff
  by_cases hx : (t, x) ∈ M
  · have hx' : (t, x) ∉ M' := fun h => hp ⟨fun _ => h, fun _ => hx⟩
    exact exists_sum_ne_of_mem f t x M M' hf hthird hM hM' hx hx'
  · have hx' : (t, x) ∈ M' := by
      by_contra h
      exact hp ⟨fun h' => absurd h' hx, fun h' => absurd h' h⟩
    obtain ⟨E, hE⟩ := exists_sum_ne_of_mem f t x M' M hf hthird hM' hM hx' hx
    exact ⟨E, hE.symm⟩

end Sum

end Pobc.Keyed
