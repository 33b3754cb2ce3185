import Mathlib.Algebra.BigOperators.Group.Finset.Piecewise
import Mathlib.Algebra.Group.Basic
import Mathlib.Logic.Equiv.Basic
import Mathlib.Data.Finset.SymmDiff
import Mathlib.Data.Fintype.Basic
import Mathlib.Tactic.Abel

/-!
# Sums over a set under an unknown permutation

When is `sum of f (E x)` over a fixed set the same for every permutation `E`?
Only when the set is empty or everything: otherwise two images can be exchanged
across its border. Together with sums in groups where `x + x = 0`, in which a
term that occurs twice disappears.
-/

namespace Pobc.PermSum

section Permutation

variable {α G : Type*} [DecidableEq α] [AddCommGroup G]

theorem exists_perm_pair (x y a b : α) (hxy : x ≠ y) (hab : a ≠ b) :
    ∃ E : Equiv.Perm α, E x = a ∧ E y = b := by
  have hne : Equiv.swap x a y ≠ a := by
    intro h
    have hx : Equiv.swap x a x = a := Equiv.swap_apply_left x a
    exact hxy ((Equiv.swap x a).injective (hx.trans h.symm))
  refine ⟨(Equiv.swap x a).trans (Equiv.swap (Equiv.swap x a y) b), ?_, ?_⟩
  · rw [Equiv.trans_apply, Equiv.swap_apply_left]
    exact Equiv.swap_apply_of_ne_of_ne hne.symm hab
  · rw [Equiv.trans_apply, Equiv.swap_apply_left]

/- Exchanging the images of `x`, inside `D`, and `y`, outside, moves the sum by
`f b - f a`. -/
theorem sum_swap (D : Finset α) (f : α → G) (E : Equiv.Perm α) (x y : α) (hx : x ∈ D)
    (hy : y ∉ D) :
    ∑ z ∈ D, f ((E.trans (Equiv.swap (E x) (E y))) z) = ∑ z ∈ D, f (E z) - f (E x) + f (E y) := by
  have hrest : ∀ z ∈ D.erase x, f ((E.trans (Equiv.swap (E x) (E y))) z) = f (E z) := by
    intro z hz
    have hzx : E z ≠ E x := fun h => (Finset.ne_of_mem_erase hz) (E.injective h)
    have hzy : E z ≠ E y := by
      intro h
      have hmem : z ∈ D := Finset.mem_of_mem_erase hz
      rw [E.injective h] at hmem
      exact hy hmem
    rw [Equiv.trans_apply, Equiv.swap_apply_of_ne_of_ne hzx hzy]
  rw [← Finset.add_sum_erase D _ hx, Finset.sum_congr rfl hrest,
    ← Finset.add_sum_erase D (fun z => f (E z)) hx, Equiv.trans_apply, Equiv.swap_apply_left]
  abel

theorem exists_perm_sum_ne (D : Finset α) (f : α → G) (x y a b : α) (hx : x ∈ D) (hy : y ∉ D)
    (hab : f a ≠ f b) (t : G) : ∃ E : Equiv.Perm α, ∑ z ∈ D, f (E z) ≠ t := by
  have hxy : x ≠ y := fun h => hy (h ▸ hx)
  obtain ⟨E, hEx, hEy⟩ := exists_perm_pair x y a b hxy (fun h => hab (congrArg f h))
  by_cases ht : ∑ z ∈ D, f (E z) = t
  · refine ⟨E.trans (Equiv.swap (E x) (E y)), ?_⟩
    rw [sum_swap D f E x y hx hy, ht, hEx, hEy]
    intro h
    have hzero : f b - f a = 0 := by
      have h' : t + (f b - f a) = t + 0 := by
        rw [add_zero, ← add_sub_assoc, ← sub_add_eq_add_sub]
        exact h
      exact add_left_cancel h'
    exact hab (sub_eq_zero.mp hzero).symm
  · exact ⟨E, ht⟩

end Permutation

section CharTwo

variable {ι G : Type*} [DecidableEq ι] [AddCommGroup G]

theorem sum_add_sum_eq_symmDiff (hG : ∀ x : G, x + x = 0) (I J : Finset ι) (h : ι → G) :
    ∑ i ∈ I, h i + ∑ i ∈ J, h i = ∑ i ∈ symmDiff I J, h i := by
  have hdis : Disjoint (I \ J) (J \ I) := disjoint_sdiff_sdiff
  have hI : ∑ i ∈ I, h i = ∑ i ∈ I \ J, h i + ∑ i ∈ I ∩ J, h i := by
    rw [add_comm, Finset.sum_inter_add_sum_sdiff]
  have hJ : ∑ i ∈ J, h i = ∑ i ∈ J \ I, h i + ∑ i ∈ I ∩ J, h i := by
    rw [add_comm, Finset.inter_comm, Finset.sum_inter_add_sum_sdiff]
  have hcancel := hG (∑ i ∈ I ∩ J, h i)
  rw [symmDiff_def, Finset.sup_eq_union, Finset.sum_union hdis, hI, hJ, add_add_add_comm, hcancel,
    add_zero]

/-- The elements a list holds an odd number of times. -/
def odds {α : Type*} [DecidableEq α] (l : List α) : Finset α :=
  l.toFinset.filter fun x => l.count x % 2 = 1

theorem mem_odds {α : Type*} [DecidableEq α] (l : List α) (x : α) :
    x ∈ odds l ↔ l.count x % 2 = 1 := by
  simp only [odds, Finset.mem_filter, List.mem_toFinset, and_iff_right_iff_imp]
  intro h
  exact List.count_pos_iff.mp (by omega)

theorem odds_cons {α : Type*} [DecidableEq α] (a : α) (l : List α) :
    odds (a :: l) = symmDiff {a} (odds l) := by
  ext x
  simp only [Finset.mem_symmDiff, mem_odds, List.count_cons, Finset.mem_singleton]
  by_cases hx : x = a
  · subst hx
    simp only [beq_self_eq_true, if_true, true_and, not_true_eq_false, and_false, or_false]
    omega
  · have hne : (a == x) = false := by simpa using fun h => hx h.symm
    simp [hx, hne]

theorem sum_list_eq_odds {α : Type*} [DecidableEq α] (hG : ∀ x : G, x + x = 0) (l : List α)
    (h : α → G) : (l.map h).sum = ∑ x ∈ odds l, h x := by
  induction l with
  | nil => rfl
  | cons a l ih =>
    rw [List.map_cons, List.sum_cons, ih, odds_cons, ← sum_add_sum_eq_symmDiff hG,
      Finset.sum_singleton]

end CharTwo

end Pobc.PermSum
