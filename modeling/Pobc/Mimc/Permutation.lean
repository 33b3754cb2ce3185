import Mathlib.Data.Set.Function
import Mathlib.FieldTheory.Finite.Basic
import Mathlib.Tactic.NormNum.Prime
import Mathlib.Tactic.ReduceModChar
import Pobc.Lib.PowerMap
import Pobc.Mimc.Mimc128

/-!
# MiMC-128 as a block cipher (`mimc-gmp/mimc128_gmp.c`)

The modulus is a prime p with p - 1 not a multiple of 3, so cubing permutes the
integers below it, and so does the cipher under every key. The C function computes in
place: its operands are variables, the ciphertext is overwritten from the first
statement on, and it may be the variable of the message.
-/

namespace Pobc.Mimc
open Pobc.Loop Pobc.PowerMap

universe u

/-! ### The modulus -/

/-- `instance->prime` as a natural number. -/
def modulus : ℕ := 0x800000000000000000000000001b8001

theorem prime_eq : prime = modulus := rfl

theorem prime_15176372063 : Nat.Prime 15176372063 := by
  refine prime_of_factors _ 1 5 [2, 173, 881, 49787] (by norm_num) (by decide) ?_ ?_
  · norm_num
    reduce_mod_char
  · norm_num
    reduce_mod_char
    decide

theorem prime_30352744127 : Nat.Prime 30352744127 := by
  refine prime_of_factors _ 1 5 [2, 15176372063] ?_ (by decide) ?_ ?_
  · simp only [List.forall_mem_cons, List.not_mem_nil, false_imp_iff, implies_true, and_true]
    exact ⟨Nat.prime_two, prime_15176372063⟩
  · norm_num
    reduce_mod_char
  · norm_num
    reduce_mod_char
    decide

theorem prime_674436562519 : Nat.Prime 674436562519 := by
  refine prime_of_factors _ 1 3 [2, 3, 677, 6067, 27367] (by norm_num) (by decide) ?_ ?_
  · norm_num
    reduce_mod_char
  · norm_num
    reduce_mod_char
    decide

/- p - 1 is 2^15 times the other four primes. -/
theorem modulus_prime : Nat.Prime modulus := by
  refine prime_of_factors _ 15 3 [2, 79087, 3207121, 30352744127, 674436562519] ?_ ?_ ?_ ?_
  · simp only [List.forall_mem_cons, List.not_mem_nil, false_imp_iff, implies_true, and_true]
    exact ⟨Nat.prime_two, by norm_num, by norm_num, prime_30352744127, prime_674436562519⟩
  · unfold modulus
    decide
  · unfold modulus
    norm_num
    reduce_mod_char
  · unfold modulus
    norm_num
    reduce_mod_char
    decide

instance : Fact (Nat.Prime modulus) := ⟨modulus_prime⟩

/- The exponent 3 can be inverted modulo p - 1. -/
theorem modulus_coprime : (Nat.card (ZMod modulus) - 1).Coprime 3 := by
  rw [Nat.card_zmod, modulus]
  norm_num

/-! ### The cipher in the field -/

theorem intCast_emod_prime (x : ℤ) : ((x % prime : ℤ) : ZMod modulus) = x :=
  ZMod.intCast_mod x modulus

theorem intCast_modAdd (a b : ℤ) : (modAdd a b : ZMod modulus) = a + b := by
  rw [modAdd, intCast_emod_prime, Int.cast_add]

/-- The round constants as field elements. -/
def roundConstant (i : ℕ) : ZMod modulus := (hexConstants.getD i 0 : ℤ)

theorem intCast_mimc128Round (key : ℤ) (i : ℕ) (x : ℤ) : (mimc128Round key i x : ZMod modulus) =
    powerRound 3 (key : ZMod modulus) roundConstant i x := by
  have hcube : ((x * x % prime * x % prime : ℤ) : ZMod modulus) = (x : ZMod modulus)^3 := by
    rw [intCast_emod_prime, Int.cast_mul, intCast_emod_prime, Int.cast_mul, pow_succ, sq]
  rw [mimc128Round, intCast_modAdd, intCast_modAdd, hcube]
  rfl

theorem intCast_mimc128Enc (key message : ℤ) : (mimc128Enc key message : ZMod modulus) =
    powerCipher 3 73 roundConstant (key : ZMod modulus) message := by
  have hrounds := forRange_map (fun x : ℤ => (x : ZMod modulus)) 73 (mimc128Round key)
    (powerRound 3 (key : ZMod modulus) roundConstant) (modAdd message key)
    (intCast_mimc128Round key)
  rw [mimc128Enc, intCast_modAdd, hrounds, intCast_modAdd]
  rfl

theorem mimc128Enc_bijOn (key : ℤ) :
    Set.BijOn (mimc128Enc key) (Set.Ico 0 prime) (Set.Ico 0 prime) := by
  have hmaps : Set.MapsTo (mimc128Enc key) (Set.Ico 0 prime) (Set.Ico 0 prime) := fun m _ =>
    ⟨mimc128Enc_nonneg key m, mimc128Enc_lt key m⟩
  have hbij := powerCipher_bijective 3 73 (by decide) modulus_coprime roundConstant
    (key : ZMod modulus)
  rw [prime_eq] at hmaps ⊢
  exact bijOn_of_residues modulus _ _ hmaps hbij (intCast_mimc128Enc key)

/-! ### The function on variables -/

/-- The `mpz_t` that `mimc128_enc` can reach: those of its caller, its own `tmp`, and the
fields of the instance. -/
inductive Mpz (ι : Type u) where
  | var (v : ι)
  | tmp
  | prime
  | constants (i : ℕ)
  deriving DecidableEq

theorem Mpz.var_ne_tmp {ι : Type u} (v : ι) : Mpz.var v ≠ .tmp := nofun

theorem Mpz.prime_ne_var {ι : Type u} (v : ι) : Mpz.prime ≠ .var v := nofun

theorem Mpz.var_ne_var {ι : Type u} {v w : ι} (h : v ≠ w) : Mpz.var w ≠ .var v := fun he =>
  h (Mpz.var.inj he).symm

abbrev Store (ι : Type u) := Mpz ι → ℤ

section Store

variable {ι : Type u} [DecidableEq ι]

namespace Store

def mpzInitSet (s : Store ι) (rop : Mpz ι) (x : ℤ) : Store ι := Function.update s rop x
def mpzSet (s : Store ι) (rop op : Mpz ι) : Store ι := Function.update s rop (s op)
def mpzAdd (s : Store ι) (rop a b : Mpz ι) : Store ι := Function.update s rop (s a + s b)
def mpzMul (s : Store ι) (rop a b : Mpz ι) : Store ι := Function.update s rop (s a * s b)
def mpzMod (s : Store ι) (r n d : Mpz ι) : Store ι := Function.update s r (s n % s d)

/-- `mod_add` (`mimc.h:24`). -/
def modAdd (s : Store ι) (rop a b modulus : Mpz ι) : Store ι :=
  let s := s.mpzAdd rop a b
  s.mpzMod rop rop modulus

/-- `mimc128_init` (`mimc128_gmp.c:80-85`). -/
def mimc128Init (s : Store ι) : Store ι :=
  let s := s.mpzInitSet .prime Mimc.prime
  forRange 73 (fun i s => s.mpzInitSet (.constants i) (hexConstants.getD i 0)) s

/-- x³ (`mimc128_gmp.c:99-104`). -/
def cube (ciphertext : ι) (s : Store ι) : Store ι :=
  let s := s.mpzSet .tmp (.var ciphertext)
  let s := s.mpzMul (.var ciphertext) (.var ciphertext) (.var ciphertext)
  let s := s.mpzMod (.var ciphertext) (.var ciphertext) .prime
  let s := s.mpzMul (.var ciphertext) (.var ciphertext) .tmp
  s.mpzMod (.var ciphertext) (.var ciphertext) .prime

/-- One round of `mimc128_enc` (`mimc128_gmp.c:98-107`). -/
def mimc128Round (ciphertext key : ι) (i : ℕ) (s : Store ι) : Store ι :=
  let s := s.cube ciphertext
  let s := s.modAdd (.var ciphertext) (.var ciphertext) (.var key) .prime
  s.modAdd (.var ciphertext) (.var ciphertext) (.constants i) .prime

/-- `mimc128_enc` (`mimc128_gmp.c:94-110`). -/
def mimc128Enc (ciphertext key message : ι) (s : Store ι) : Store ι :=
  let s := s.modAdd (.var ciphertext) (.var message) (.var key) .prime
  let s := s.mpzInitSet .tmp 0
  let s := forRange 73 (mimc128Round ciphertext key) s
  s.modAdd (.var ciphertext) (.var ciphertext) (.var key) .prime

/-- The instance after `mimc128_init`. -/
structure Initialized (s : Store ι) : Prop where
  prime : s .prime = Mimc.prime
  constants : ∀ i < 73, s (.constants i) = hexConstants.getD i 0

/-- `t` is `s` but for the ciphertext, which is `x`, and `tmp`. -/
structure Holds (s : Store ι) (ciphertext : ι) (x : ℤ) (t : Store ι) : Prop where
  value : t (.var ciphertext) = x
  frame : ∀ v, v ≠ .var ciphertext → v ≠ .tmp → t v = s v

theorem Holds.prime {ι : Type u} {s t : Store ι} {ciphertext : ι} {x : ℤ}
    (h : Holds s ciphertext x t) (hs : s.Initialized) : t .prime = Mimc.prime :=
  (h.frame .prime nofun nofun).trans hs.prime

theorem modAdd_eq (s : Store ι) (rop a b modulus : Mpz ι) (h : modulus ≠ rop) :
    s.modAdd rop a b modulus = Function.update s rop ((s a + s b) % s modulus) := by
  rw [modAdd, mpzAdd, mpzMod, Function.update_self, Function.update_of_ne h, Function.update_idem]

theorem mimc128Init_initialized (s : Store ι) : s.mimc128Init.Initialized := by
  have h := forRange_inv
    (fun n t => t .prime = Mimc.prime ∧ ∀ i < n, t (.constants i) = hexConstants.getD i 0) 73
    (fun i t => t.mpzInitSet (.constants i) (hexConstants.getD i 0))
    (s.mpzInitSet .prime Mimc.prime) ⟨Function.update_self .., fun i hi => by omega⟩ ?_
  · exact ⟨h.1, h.2⟩
  · rintro n _ t ⟨hprime, hconst⟩
    refine ⟨hprime, fun i hi => ?_⟩
    by_cases hin : i = n
    · rw [hin]
      exact Function.update_self ..
    · have hne : (Mpz.constants i : Mpz ι) ≠ .constants n := fun he => hin (Mpz.constants.inj he)
      rw [mpzInitSet, Function.update_of_ne hne]
      exact hconst i (by omega)

section Run

variable {s t : Store ι} {ciphertext : ι} {x : ℤ}

theorem Holds.update (h : Holds s ciphertext x t) (y : ℤ) :
    Holds s ciphertext y (Function.update t (.var ciphertext) y) := by
  refine ⟨Function.update_self .., fun v hv hv' => ?_⟩
  rw [Function.update_of_ne hv]
  exact h.frame v hv hv'

theorem Holds.update_tmp (h : Holds s ciphertext x t) (y : ℤ) :
    Holds s ciphertext x (Function.update t .tmp y) := by
  refine ⟨?_, fun v hv hv' => ?_⟩
  · rw [Function.update_of_ne (Mpz.var_ne_tmp ciphertext)]
    exact h.value
  · rw [Function.update_of_ne hv']
    exact h.frame v hv hv'

theorem Holds.modAdd (h : Holds s ciphertext x t) (hs : s.Initialized) (b : Mpz ι)
    (hb : b ≠ .var ciphertext) (hb' : b ≠ .tmp) : Holds s ciphertext (Mimc.modAdd x (s b))
      (t.modAdd (.var ciphertext) (.var ciphertext) b .prime) := by
  rw [modAdd_eq _ _ _ _ _ (Mpz.prime_ne_var ciphertext), h.value, h.frame b hb hb', h.prime hs]
  exact h.update _

theorem Holds.cube (h : Holds s ciphertext x t) (hs : s.Initialized) :
    Holds s ciphertext (x * x % Mimc.prime * x % Mimc.prime) (t.cube ciphertext) := by
  have hvar := Mpz.var_ne_tmp ciphertext
  have hne : (Mpz.prime : Mpz ι) ≠ .tmp := nofun
  simp only [Store.cube, mpzSet, mpzMul, mpzMod, Function.update_self, Function.update_idem,
    Function.update_of_ne hvar, Function.update_of_ne hvar.symm, Function.update_of_ne hne,
    Function.update_of_ne (Mpz.prime_ne_var ciphertext), h.value, h.prime hs]
  exact (h.update_tmp x).update _

theorem mimc128Round_holds (key : ι) (hkey : ciphertext ≠ key) (hs : s.Initialized) (i : ℕ)
    (hi : i < 73) (h : Holds s ciphertext x t) :
    Holds s ciphertext (Mimc.mimc128Round (s (.var key)) i x)
      (t.mimc128Round ciphertext key i) := by
  have hne := Mpz.var_ne_var hkey
  have hround := ((h.cube hs).modAdd hs (.var key) hne nofun).modAdd hs (.constants i) nofun nofun
  rw [hs.constants i hi] at hround
  exact hround

theorem mimc128Enc_holds (key message : ι) (hkey : ciphertext ≠ key) (hs : s.Initialized) :
    Holds s ciphertext (Mimc.mimc128Enc (s (.var key)) (s (.var message)))
      (s.mimc128Enc ciphertext key message) := by
  have hne := Mpz.var_ne_var hkey
  have hself : Holds s ciphertext (s (.var ciphertext)) s := ⟨rfl, fun _ _ _ => rfl⟩
  -- the sum is formed before the ciphertext is overwritten, also where it is the message
  have hwhite : Holds s ciphertext (Mimc.modAdd (s (.var message)) (s (.var key)))
      (s.modAdd (.var ciphertext) (.var message) (.var key) .prime) := by
    rw [modAdd_eq _ _ _ _ _ (Mpz.prime_ne_var ciphertext), hs.prime]
    exact hself.update _
  have hrun := forRange_inv
    (fun n t => Holds s ciphertext (forRange n (Mimc.mimc128Round (s (.var key)))
      (Mimc.modAdd (s (.var message)) (s (.var key)))) t) 73
    (mimc128Round ciphertext key) _ (hwhite.update_tmp 0)
    (fun i hi t ht => mimc128Round_holds key hkey hs i hi ht)
  exact hrun.modAdd hs (.var key) hne nofun

end Run

end Store

/-- `mimc128_init`, and `mimc128_enc` on a key and a message in variables of the caller. -/
def encipher (ciphertext key message : ι) (s : Store ι) (k m : ℤ) : ℤ :=
  let s := s.mimc128Init
  let s := s.mpzInitSet (.var key) k
  let s := s.mpzInitSet (.var message) m
  s.mimc128Enc ciphertext key message (.var ciphertext)

theorem encipher_eq (ciphertext key message : ι) (hkey : ciphertext ≠ key)
    (hmessage : message ≠ key) (s : Store ι) (k m : ℤ) :
    encipher ciphertext key message s k m = mimc128Enc k m := by
  have hinit := s.mimc128Init_initialized
  have hne := Mpz.var_ne_var hmessage
  have hs : ((s.mimc128Init.mpzInitSet (.var key) k).mpzInitSet (.var message) m).Initialized :=
    ⟨hinit.prime, hinit.constants⟩
  have hval := (Store.mimc128Enc_holds key message hkey hs).value
  rw [Store.mpzInitSet, Function.update_self, Function.update_of_ne hne, Store.mpzInitSet,
    Function.update_self] at hval
  exact hval

/-- Under every key the function permutes the integers below the prime. The ciphertext may
be the variable of the message; the key has one of its own, as in all calls of the modes. -/
theorem mimc128_permutation (ciphertext key message : ι) (hkey : ciphertext ≠ key)
    (hmessage : message ≠ key) (s : Store ι) (k : ℤ) :
    Set.BijOn (encipher ciphertext key message s k) (Set.Ico 0 prime) (Set.Ico 0 prime) := by
  have heq : encipher ciphertext key message s k = mimc128Enc k :=
    funext (encipher_eq ciphertext key message hkey hmessage s k)
  rw [heq]
  exact mimc128Enc_bijOn k

/- In place, as the modes call it. -/
theorem mimc128_permutation_in_place : Set.BijOn (encipher false true false (fun _ => 0) 5)
    (Set.Ico 0 prime) (Set.Ico 0 prime) :=
  mimc128_permutation false true false (by decide) (by decide) (fun _ => 0) 5

end Store

end Pobc.Mimc
