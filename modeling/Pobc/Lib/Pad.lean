import Mathlib.Data.List.Basic
import Mathlib.Data.List.GetD
import Mathlib.Data.Nat.Notation
import Mathlib.Tactic.TypeStar

/-!
# The 10* padding

A string whose length is a multiple of `n` is left alone; any other one is
followed by one `mark` and then by `zero`s up to the next multiple. The padding
alone does not say which of the two happened: a whole string may end in a mark
and zeros of its own.
-/

namespace Pobc.Pad

/-- The number of blocks before the last one, which is only empty when there is
nothing at all. -/
def fullBlocks (n len : ℕ) : ℕ := if len % n = 0 then len / n - 1 else len / n

def lastLength (n len : ℕ) : ℕ := if len % n = 0 then n else len % n

theorem fullBlocks_add_lastLength (n len : ℕ) (hlen : 0 < len) :
    n * fullBlocks n len + lastLength n len = len := by
  have hdiv := Nat.div_add_mod len n
  unfold fullBlocks lastLength
  by_cases hw : len % n = 0
  · have hquot : 0 < len / n := by
      rcases Nat.eq_zero_or_pos (len / n) with h | h
      · rw [h, hw, Nat.mul_zero] at hdiv
        omega
      · exact h
    have hlast : n * (len / n - 1) + n = n * (len / n) := by
      rw [← Nat.mul_succ, Nat.succ_eq_add_one, Nat.sub_add_cancel hquot]
    rw [if_pos hw, if_pos hw, hlast]
    omega
  · rw [if_neg hw, if_neg hw]
    exact hdiv

theorem lastLength_le (n len : ℕ) (hn : 0 < n) : lastLength n len ≤ n := by
  have hlt := Nat.mod_lt len hn
  unfold lastLength
  split <;> omega

theorem lastLength_pos (n len : ℕ) (hn : 0 < n) : 0 < lastLength n len := by
  unfold lastLength
  split <;> omega

theorem length_le_iff (n b len : ℕ) (hn : 0 < n) (hlen : 0 < len) :
    len ≤ b * n ↔ fullBlocks n len < b := by
  have hsplit := fullBlocks_add_lastLength n len hlen
  have hpos := lastLength_pos n len hn
  have hle := lastLength_le n len hn
  rw [Nat.mul_comm b n]
  constructor
  · intro h
    by_contra hge
    have hmul : n * b ≤ n * fullBlocks n len := Nat.mul_le_mul_left n (Nat.not_lt.mp hge)
    omega
  · intro h
    have hmul : n * (fullBlocks n len + 1) ≤ n * b := Nat.mul_le_mul_left n h
    rw [Nat.mul_succ] at hmul
    omega

variable {α : Type*}

theorem getD_append_replicate (l : List α) (n k : ℕ) (zero : α) :
    (l ++ List.replicate n zero).getD k zero = l.getD k zero := by
  simp only [List.getD_eq_getElem?_getD, List.getElem?_append, List.getElem?_replicate]
  grind

/- A string and a mark behind it, with zeros from there on. -/
theorem marked_inj (mark zero : α) (hmark : mark ≠ zero) (l l' : List α)
    (h : ∀ k, (l ++ [mark]).getD k zero = (l' ++ [mark]).getD k zero) : l = l' := by
  have hle : ∀ l l' : List α, (∀ k, (l ++ [mark]).getD k zero = (l' ++ [mark]).getD k zero) →
      l'.length ≤ l.length := by
    intro l l' h
    by_contra hlt
    have hend := h l'.length
    have hout : (l ++ [mark]).length ≤ l'.length := by
      rw [List.length_append, List.length_singleton]
      omega
    rw [List.getD_eq_default _ _ hout, List.getD_eq_getElem?_getD, List.getElem?_concat_length,
      Option.getD_some] at hend
    exact hmark hend.symm
  have hlen : l.length = l'.length :=
    Nat.le_antisymm (hle l' l fun k => (h k).symm) (hle l l' h)
  refine List.ext_getElem hlen fun k hk hk' => ?_
  have hget := h k
  rwa [List.getD_append _ _ _ _ hk, List.getD_append _ _ _ _ hk', List.getD_eq_getElem _ _ hk,
    List.getD_eq_getElem _ _ hk'] at hget

def pad (n : ℕ) (mark zero : α) (l : List α) : List α :=
  if l.length % n = 0 then l
  else l ++ mark :: List.replicate (n - l.length % n - 1) zero

variable (n : ℕ) (mark zero : α) (l l' : List α)

theorem pad_of_whole (h : l.length % n = 0) : pad n mark zero l = l := if_pos h

theorem pad_of_tail (h : l.length % n ≠ 0) :
    pad n mark zero l = l ++ mark :: List.replicate (n - l.length % n - 1) zero := if_neg h

theorem length_pad (hn : 0 < n) (hl : l ≠ []) :
    (pad n mark zero l).length = n * (fullBlocks n l.length + 1) := by
  have hpos : 0 < l.length := List.length_pos_iff.mpr hl
  have hsplit := fullBlocks_add_lastLength n l.length hpos
  by_cases hw : l.length % n = 0
  · rw [lastLength, if_pos hw] at hsplit
    rw [pad_of_whole n mark zero l hw, Nat.mul_succ, hsplit]
  · have hlt := Nat.mod_lt l.length hn
    rw [lastLength, if_neg hw] at hsplit
    rw [pad_of_tail n mark zero l hw, List.length_append, List.length_cons,
      List.length_replicate, Nat.mul_succ]
    omega

/- Both partial: the text is what stands before the last mark. -/
theorem pad_partial_inj (hmark : mark ≠ zero) (h : l.length % n ≠ 0) (h' : l'.length % n ≠ 0)
    (heq : pad n mark zero l = pad n mark zero l') : l = l' := by
  rw [pad_of_tail n mark zero l h, pad_of_tail n mark zero l' h'] at heq
  have hread : ∀ (l : List α) (i k : ℕ), (l ++ mark :: List.replicate i zero).getD k zero =
      (l ++ [mark]).getD k zero := by
    intro l i k
    rw [List.append_cons, getD_append_replicate]
  refine marked_inj mark zero hmark l l' fun k => ?_
  rw [← hread l, heq, hread l']

end Pobc.Pad
