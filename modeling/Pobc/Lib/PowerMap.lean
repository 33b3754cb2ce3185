import Mathlib.Data.Int.ConditionallyCompleteOrder
import Mathlib.Data.List.Prime
import Mathlib.FieldTheory.Finite.Basic
import Mathlib.NumberTheory.LucasPrimality
import Pobc.Lib.Loop

/-!
# Power maps in a finite field

`x ↦ x^e` permutes a finite field when `e` is prime to the order of its group of
units, and so does a cipher that adds keys and constants between such rounds. The
field of a big prime modulus needs its primality, which Lucas's test decides from the
prime factors of the modulus less one. Nothing here refers to a program.
-/

namespace Pobc.PowerMap
open Pobc.Loop

/-! ### Primality -/

/- Lucas's test, with the prime factors of `p - 1` in a list. -/
theorem prime_of_factors (p k : ℕ) (a : ZMod p) (qs : List ℕ) (hqs : ∀ q ∈ qs, q.Prime)
    (hdvd : p - 1 ∣ qs.prod^k) (hone : a^(p - 1) = 1)
    (hne : ∀ q ∈ qs, a^((p - 1) / q) ≠ 1) : p.Prime := by
  refine lucas_primality p a hone fun q hq hdiv => hne q ?_
  have hprod : q ∣ qs.prod := hq.dvd_of_dvd_pow (hdiv.trans hdvd)
  exact mem_list_primes_of_dvd_prod hq.prime (fun q hq => (hqs q hq).prime) hprod

/-! ### Integers for residues -/

section Residues

variable (n : ℕ)

theorem intCast_injOn : Set.InjOn (fun x : ℤ => (x : ZMod n)) (Set.Ico 0 n) := by
  intro x hx y hy h
  change (x : ZMod n) = (y : ZMod n) at h
  rw [ZMod.intCast_eq_intCast_iff'] at h
  rwa [Int.emod_eq_of_lt hx.1 hx.2, Int.emod_eq_of_lt hy.1 hy.2] at h

theorem intCast_surjOn [NeZero n] :
    Set.SurjOn (fun x : ℤ => (x : ZMod n)) (Set.Ico 0 n) Set.univ := by
  intro a _
  refine ⟨a.val, ⟨Int.natCast_nonneg _, Int.ofNat_lt.mpr a.val_lt⟩, ?_⟩
  change ((a.val : ℤ) : ZMod n) = a
  rw [Int.cast_natCast, ZMod.natCast_zmod_val]

/- A map of the integers below `n` that is a bijection of the residues. -/
theorem bijOn_of_residues [NeZero n] (f : ℤ → ℤ) (g : ZMod n → ZMod n)
    (hmaps : Set.MapsTo f (Set.Ico 0 n) (Set.Ico 0 n)) (hg : Function.Bijective g)
    (hcast : ∀ x, (f x : ZMod n) = g x) : Set.BijOn f (Set.Ico 0 n) (Set.Ico 0 n) := by
  refine ⟨hmaps, ?_, ?_⟩
  · intro x hx y hy h
    have hres : g x = g y := by rw [← hcast, ← hcast, h]
    exact intCast_injOn n hx hy (hg.injective hres)
  · intro y hy
    obtain ⟨a, ha⟩ := hg.surjective y
    obtain ⟨x, hx, rfl⟩ := intCast_surjOn n (Set.mem_univ a)
    have hres : (f x : ZMod n) = y := (hcast x).trans ha
    exact ⟨x, hx, intCast_injOn n (hmaps hx) hy hres⟩

end Residues

/-! ### Power maps -/

section Field

variable {F : Type*} [Field F] [Finite F]

/- 0 is its own power, and on the units the exponent can be inverted. -/
theorem pow_bijective (e : ℕ) (he : e ≠ 0) (hcop : (Nat.card F - 1).Coprime e) :
    Function.Bijective fun x : F => x^e := by
  refine Finite.injective_iff_bijective.mp fun x y h => ?_
  change x^e = y^e at h
  by_cases hx : x = 0
  · rw [hx, zero_pow he] at h
    rw [hx, eq_comm, ← pow_eq_zero_iff he, ← h]
  · have hy : y ≠ 0 := by
      intro hy
      rw [hy, zero_pow he] at h
      exact hx ((pow_eq_zero_iff he).mp h)
    have hunits : (Nat.card Fˣ).Coprime e := by rwa [Nat.card_units]
    have hpow : Units.mk0 x hx ^ e = Units.mk0 y hy ^ e := Units.ext h
    exact congrArg Units.val (hunits.pow_left_bijective.injective hpow)

end Field

/-! ### Ciphers -/

section Cipher

variable {F : Type*} [Field F]

def powerRound (e : ℕ) (k : F) (c : ℕ → F) (i : ℕ) (x : F) : F := x^e + k + c i

/-- `n` rounds of a power map, a key addition and a constant, with the key added before
the first round and after the last. -/
def powerCipher (e n : ℕ) (c : ℕ → F) (k x : F) : F := forRange n (powerRound e k c) (x + k) + k

theorem powerCipher_bijective [Finite F] (e n : ℕ) (he : e ≠ 0)
    (hcop : (Nat.card F - 1).Coprime e) (c : ℕ → F) (k : F) :
    Function.Bijective (powerCipher e n c k) := by
  have hadd : ∀ b : F, Function.Bijective fun x : F => x + b := AddGroup.addRight_bijective
  have hround : ∀ i < n, Function.Bijective (powerRound e k c i) := fun i _ =>
    (hadd (c i)).comp ((hadd k).comp (pow_bijective e he hcop))
  exact (hadd k).comp ((forRange_bijective n _ hround).comp (hadd k))

end Cipher

end Pobc.PowerMap
