import Mathlib.Data.Set.Basic
import Mathlib.Logic.Function.Basic

/-!
# Functions on part of a memory

A function on memories is local to a set of places when it writes only there and what it
writes depends only on what stands there. Functions local to disjoint sets commute.
-/

namespace Pobc.Frame

variable {ι α : Type*} {s t : Set ι} {f g : (ι → α) → ι → α}

structure Local (s : Set ι) (f : (ι → α) → ι → α) : Prop where
  frame : ∀ v k, k ∉ s → f v k = v k
  reads : ∀ v w, (∀ k ∈ s, v k = w k) → ∀ k ∈ s, f v k = f w k

theorem Local.comp (hf : Local s f) (hg : Local s g) : Local s (f ∘ g) where
  frame v k hk := (hf.frame (g v) k hk).trans (hg.frame v k hk)
  reads v w h := hf.reads (g v) (g w) (hg.reads v w h)

/- One place is written. -/
theorem local_update [DecidableEq ι] (a : ι) (ha : a ∈ s) (e : (ι → α) → α)
    (he : ∀ v w, (∀ k ∈ s, v k = w k) → e v = e w) :
    Local s fun v => Function.update v a (e v) where
  frame v k hk := by
    have hne : k ≠ a := fun h => hk (h ▸ ha)
    exact Function.update_of_ne hne _ _
  reads v w h k hk := by
    rw [he v w h]
    rcases eq_or_ne k a with rfl | hne
    · rw [Function.update_self, Function.update_self]
    · rw [Function.update_of_ne hne, Function.update_of_ne hne, h k hk]

theorem Local.comm (hf : Local s f) (hg : Local t g) (hd : ∀ k ∈ s, k ∉ t) (v : ι → α) :
    f (g v) = g (f v) := by
  funext k
  by_cases hs : k ∈ s
  · have hsame : ∀ k ∈ s, g v k = v k := fun k hk => hg.frame v k (hd k hk)
    rw [hf.reads (g v) v hsame k hs, hg.frame (f v) k (hd k hs)]
  · rw [hf.frame (g v) k hs]
    by_cases ht : k ∈ t
    · have hsame : ∀ k ∈ t, f v k = v k := fun k hk => hf.frame v k fun hks => hd k hks hk
      exact (hg.reads (f v) v hsame k ht).symm
    · rw [hg.frame v k ht, hg.frame (f v) k ht, hf.frame v k hs]

end Pobc.Frame
