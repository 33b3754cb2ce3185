import Pobc.Mpc.Machine
import Mathlib.Algebra.BigOperators.Ring.List

/-!
# The tag comparison (`MPC/code/utils.py`)

`tag_check` multiplies the negated bits of all differences in a tree. The tree
changes neither the product nor its value: one when no bit is set, zero
otherwise.
-/

namespace Pobc.Mpc
open Pobc.Loop

/-- One pass of the loop: neighbours multiplied, an odd last one kept
(`utils.py:80`). -/
def treeStep (deltaBits : List Gf2n) : List Gf2n :=
  ((List.range (deltaBits.length / 2)).map fun t =>
    deltaBits.getD (2 * t) 0 * deltaBits.getD (2 * t + 1) 0) ++
    deltaBits.drop (deltaBits.length - deltaBits.length % 2)

/-- The negated bits of all differences (`utils.py:74-77`). -/
def negatedDeltas (publicTag secretTag : List Gf2n) (bitDecompose : Gf2n → List Gf2n) : List Gf2n :=
  (secretTag.zip publicTag).flatMap fun p => (bitDecompose (p.1 - p.2)).map fun b => b + cgf2n 1

/-- `tag_check` (`utils.py:70-81`). -/
def tagCheck (publicTag secretTag : List Gf2n) (bitDecompose : Gf2n → List Gf2n) : Gf2n :=
  let deltaBits := negatedDeltas publicTag secretTag bitDecompose
  let deltaBits := whileLoop deltaBits.length (fun d => decide (d.length > 1)) treeStep deltaBits
  deltaBits.getD 0 0

/-- `tag_check` with a `bit_decompose` that opens masked values. -/
def tagCheckM (publicTag secretTag : List Gf2n) (bitDecompose : Gf2n → Circuit (List Gf2n)) :
    Circuit Gf2n := do
  let deltaBits ← (secretTag.zip publicTag).mapM fun p => bitDecompose (p.1 - p.2)
  let deltaBits := deltaBits.flatten.map fun b => b + cgf2n 1
  let deltaBits := whileLoop deltaBits.length (fun d => decide (d.length > 1)) treeStep deltaBits
  return deltaBits.getD 0 0

theorem tagCheckM_returns (publicTag secretTag : List Gf2n) (f : Gf2n → Circuit (List Gf2n))
    (g : Gf2n → List Gf2n) (h : ∀ x, Returns (f x) (g x)) :
    Returns (tagCheckM publicTag secretTag f) (tagCheck publicTag secretTag g) := by
  have hdeltas : (((secretTag.zip publicTag).map fun p => g (p.1 - p.2)).flatten.map
      fun b => b + cgf2n 1) = negatedDeltas publicTag secretTag g := by
    rw [negatedDeltas, List.map_flatten, List.map_map]
    rfl
  have hbits := returns_mapM (secretTag.zip publicTag) (fun p => f (p.1 - p.2))
    (fun p => g (p.1 - p.2)) fun p _ => h (p.1 - p.2)
  rw [tagCheck, ← hdeltas]
  exact returns_bind _ _ _ _ hbits (returns_pure _)

/-! ### The product tree -/

theorem treeStep_cons_cons (x y : Gf2n) (d : List Gf2n) :
    treeStep (x :: y :: d) = x * y :: treeStep d := by
  have hhalf : (d.length + 1 + 1) / 2 = d.length / 2 + 1 := by omega
  have hrest : d.length + 1 + 1 - (d.length + 1 + 1) % 2 = d.length - d.length % 2 + 1 + 1 := by
    omega
  simp only [treeStep, List.length_cons, hhalf, hrest, List.range_succ_eq_map, List.map_cons,
    List.map_map, List.drop_succ_cons, List.cons_append, List.getD_cons_zero, Nat.mul_zero,
    List.getD_cons_succ]
  refine congrArg (fun l => x * y :: (l ++ _)) (List.map_congr_left fun t _ => ?_)
  have htwo : 2 * (t + 1) = 2 * t + 1 + 1 := by omega
  simp only [Function.comp_apply, Nat.succ_eq_add_one, htwo, List.getD_cons_succ]

theorem treeStep_prod (d : List Gf2n) :
    (treeStep d).prod = d.prod ∧ (treeStep d).length = (d.length + 1) / 2 := by
  match d with
  | [] => exact ⟨rfl, rfl⟩
  | [x] => simp [treeStep]
  | x :: y :: d =>
    obtain ⟨hprod, hlen⟩ := treeStep_prod d
    constructor
    · rw [treeStep_cons_cons, List.prod_cons, List.prod_cons, List.prod_cons, hprod, mul_assoc]
    · rw [treeStep_cons_cons, List.length_cons, List.length_cons, List.length_cons, hlen]
      omega

/- The loop runs out by itself, with the product as the only entry. -/
theorem treeLoop_ends (d : List Gf2n) (hne : d ≠ []) :
    WhileEnds (fun l => decide (l.length > 1)) treeStep d [d.prod] ∧
      whileLoop d.length (fun l => decide (l.length > 1)) treeStep d = [d.prod] := by
  have hstep : ∀ l : List Gf2n, l.prod = d.prod ∧ l ≠ [] → decide (l.length > 1) = true →
      ((treeStep l).prod = d.prod ∧ treeStep l ≠ []) ∧ (treeStep l).length < l.length := by
    intro l hl hc
    have hlong : l.length > 1 := of_decide_eq_true hc
    obtain ⟨hprod, hlen⟩ := treeStep_prod l
    refine ⟨⟨hprod.trans hl.1, fun hnil => ?_⟩, by omega⟩
    rw [hnil, List.length_nil] at hlen
    omega
  have hends := whileLoop_ends (fun l : List Gf2n => l.prod = d.prod ∧ l ≠ []) List.length
    (fun l => decide (l.length > 1)) treeStep hstep d.length d ⟨rfl, hne⟩ (le_refl _)
  obtain ⟨⟨hprod, hpos⟩, hexit⟩ := hends.inv (fun l : List Gf2n => l.prod = d.prod ∧ l ≠ [])
    (fun l hl hc => (hstep l hl hc).1) ⟨rfl, hne⟩
  have hlast : whileLoop d.length (fun l => decide (l.length > 1)) treeStep d = [d.prod] := by
    rw [← hprod]
    have hshort := of_decide_eq_false hexit
    generalize whileLoop d.length (fun l => decide (l.length > 1)) treeStep d = l at hpos hshort
    match l with
    | [] => exact absurd rfl hpos
    | [x] => rw [List.prod_singleton]
    | x :: y :: l =>
      rw [List.length_cons, List.length_cons] at hshort
      omega
  exact ⟨hlast ▸ hends, hlast⟩

theorem tagCheck_eq_prod (publicTag secretTag : List Gf2n) (bitDecompose : Gf2n → List Gf2n)
    (hne : negatedDeltas publicTag secretTag bitDecompose ≠ []) :
    tagCheck publicTag secretTag bitDecompose =
      (negatedDeltas publicTag secretTag bitDecompose).prod := by
  simp only [tagCheck]
  rw [(treeLoop_ends _ hne).2, List.getD_cons_zero]

theorem ofBit_zero_or_one (b : Bool) : ofBit b = 0 ∨ ofBit b = 1 := by
  cases b with
  | false => exact Or.inl rfl
  | true => exact Or.inr rfl

/- One negated bit that is zero makes the product zero. -/
theorem prod_negated_bits (bits : List Gf2n) (hbits : ∀ b ∈ bits, b = 0 ∨ b = 1) :
    (bits.map fun b => b + cgf2n 1).prod = if ∀ b ∈ bits, b = 0 then 1 else 0 := by
  have hone : cgf2n 1 = 1 := rfl
  split_ifs with hzero
  · refine List.prod_eq_one fun x hx => ?_
    obtain ⟨b, hb, rfl⟩ := List.mem_map.mp hx
    rw [hzero b hb, hone, zero_add]
  · push Not at hzero
    obtain ⟨b, hb, hne⟩ := hzero
    have hset : b + cgf2n 1 = 0 := by
      rw [(hbits b hb).resolve_left hne, hone, Gf.add_self]
    exact List.prod_eq_zero (List.mem_map.mpr ⟨b, hb, hset⟩)

/- The same for bits as truth values. -/
theorem prod_negated (bits : List Bool) :
    (bits.map fun b => ofBit b + cgf2n 1).prod = if ∀ b ∈ bits, b = false then 1 else 0 := by
  have hzero : ∀ b, ofBit b = 0 ↔ b = false := by decide
  have hbits : ∀ x ∈ bits.map ofBit, x = 0 ∨ x = 1 := by
    intro x hx
    obtain ⟨b, _, rfl⟩ := List.mem_map.mp hx
    exact ofBit_zero_or_one b
  have h := prod_negated_bits (bits.map ofBit) hbits
  rw [List.map_map] at h
  rw [← Function.comp_def (· + cgf2n 1) ofBit, h]
  simp only [List.forall_mem_map, hzero]

/-- No bit of a difference is set. -/
def NoDeltaBit (publicTag secretTag : List Gf2n) (bitDecompose : Gf2n → List Gf2n) : Prop :=
  ∀ p ∈ secretTag.zip publicTag, ∀ b ∈ bitDecompose (p.1 - p.2), b = 0

instance (publicTag secretTag : List Gf2n) (bitDecompose : Gf2n → List Gf2n) :
    Decidable (NoDeltaBit publicTag secretTag bitDecompose) :=
  inferInstanceAs (Decidable (∀ _ ∈ _, ∀ _ ∈ _, _))

/-- The loop of `tag_check` comes to an end with one entry, which says whether a bit of a
difference is set. -/
theorem tagCheck_decides (publicTag secretTag : List Gf2n) (bitDecompose : Gf2n → List Gf2n)
    (n w : ℕ) (hn : 1 ≤ n) (hw : 1 ≤ w) (hpublic : publicTag.length = n)
    (hsecret : secretTag.length = n) (hlen : ∀ x, (bitDecompose x).length = w)
    (hbits : ∀ x, ∀ b ∈ bitDecompose x, b = 0 ∨ b = 1) :
    WhileEnds (fun l => decide (l.length > 1)) treeStep
        (negatedDeltas publicTag secretTag bitDecompose)
        [if NoDeltaBit publicTag secretTag bitDecompose then 1 else 0] ∧
      tagCheck publicTag secretTag bitDecompose =
        if NoDeltaBit publicTag secretTag bitDecompose then 1 else 0 := by
  let bits := (secretTag.zip publicTag).flatMap fun p => bitDecompose (p.1 - p.2)
  have hdeltas : negatedDeltas publicTag secretTag bitDecompose =
      bits.map fun b => b + cgf2n 1 := by
    rw [negatedDeltas, List.map_flatMap]
  have hcount : bits.length = n * w := by
    simp only [bits, List.length_flatMap, hlen, List.map_const', List.sum_replicate,
      List.length_zip, hsecret, hpublic, Nat.min_self, smul_eq_mul]
  have hne : negatedDeltas publicTag secretTag bitDecompose ≠ [] := by
    have hpos : 0 < n * w := Nat.mul_pos hn hw
    rw [hdeltas, ← List.length_pos_iff, List.length_map, hcount]
    exact hpos
  have hclear : (∀ b ∈ bits, b = 0) ↔ NoDeltaBit publicTag secretTag bitDecompose :=
    List.forall_mem_flatMap
  have hprod : (negatedDeltas publicTag secretTag bitDecompose).prod =
      if NoDeltaBit publicTag secretTag bitDecompose then 1 else 0 := by
    rw [hdeltas, prod_negated_bits bits fun b hb => ?_]
    · exact if_congr hclear rfl rfl
    · obtain ⟨p, _, hmem⟩ := List.mem_flatMap.mp hb
      exact hbits _ b hmem
  rw [← hprod]
  exact ⟨(treeLoop_ends _ hne).1, tagCheck_eq_prod _ _ _ hne⟩

/-- Three entries, of which the last one differs. -/
theorem tagCheck_decides_example :
    WhileEnds (fun l => decide (l.length > 1)) treeStep
        (negatedDeltas [cgf2n 7, cgf2n 7, cgf2n 7] [cgf2n 7, cgf2n 7, cgf2n 6] (bitDecompose 8))
        [if NoDeltaBit [cgf2n 7, cgf2n 7, cgf2n 7] [cgf2n 7, cgf2n 7, cgf2n 6] (bitDecompose 8)
          then 1 else 0] ∧
      tagCheck [cgf2n 7, cgf2n 7, cgf2n 7] [cgf2n 7, cgf2n 7, cgf2n 6] (bitDecompose 8) =
        if NoDeltaBit [cgf2n 7, cgf2n 7, cgf2n 7] [cgf2n 7, cgf2n 7, cgf2n 6] (bitDecompose 8)
          then 1 else 0 := by
  refine tagCheck_decides [cgf2n 7, cgf2n 7, cgf2n 7] [cgf2n 7, cgf2n 7, cgf2n 6] (bitDecompose 8)
    3 8 (by decide) (by decide) rfl rfl (fun x => ?_) fun x b hb => ?_
  · rw [bitDecompose, List.length_map, List.length_range]
  · obtain ⟨i, _, rfl⟩ := List.mem_map.mp hb
    exact ofBit_zero_or_one _

/-- The low eight bits of all differences of two tags. -/
def lowDeltas (publicTag secretTag : Fin 16 → Gf2n) : List Bool :=
  (List.finRange 16).flatMap fun j => (List.range 8).map fun i =>
    (secretTag j - publicTag j).bits.getLsbD i

theorem tagCheck_eq_prod_lowDeltas (publicTag secretTag : Fin 16 → Gf2n) :
    tagCheck (List.ofFn publicTag) (List.ofFn secretTag) (bitDecompose 8) =
      ((lowDeltas publicTag secretTag).map fun b => ofBit b + cgf2n 1).prod := by
  have hdeltas : negatedDeltas (List.ofFn publicTag) (List.ofFn secretTag) (bitDecompose 8) =
      (lowDeltas publicTag secretTag).map fun b => ofBit b + cgf2n 1 := by
    rw [negatedDeltas, List.ofFn_eq_map, List.ofFn_eq_map, List.zip_map', List.flatMap_map,
      lowDeltas, List.map_flatMap]
    refine congrArg (fun f => (List.finRange 16).flatMap f) (funext fun j => ?_)
    simp only [bitDecompose, List.map_map]
    rfl
  have hne : negatedDeltas (List.ofFn publicTag) (List.ofFn secretTag) (bitDecompose 8) ≠ [] := by
    rw [hdeltas]
    exact List.cons_ne_nil _ _
  rw [tagCheck_eq_prod _ _ _ hne, hdeltas]

theorem lowDeltas_clear_iff (publicTag secretTag : Fin 16 → Gf2n) :
    (∀ b ∈ lowDeltas publicTag secretTag, b = false) ↔
      ∀ j, lowByte (secretTag j) = lowByte (publicTag j) := by
  simp only [lowDeltas, List.mem_flatMap, List.mem_finRange, true_and, List.mem_map,
    List.mem_range, forall_exists_index, and_imp]
  have hbit : ∀ j i, (secretTag j - publicTag j).bits.getLsbD i =
      ((secretTag j).bits.getLsbD i ^^ (publicTag j).bits.getLsbD i) := fun j i =>
    BitVec.getLsbD_xor
  constructor
  · intro h j
    apply BitVec.eq_of_getLsbD_eq
    intro i hi
    have hzero := h _ j i hi rfl
    rw [hbit, bne_eq_false_iff_eq] at hzero
    simp only [lowByte, BitVec.getLsbD_setWidth, hzero]
  · rintro h b j i hi rfl
    have heq := congrArg (fun x => x.getLsbD i) (h j)
    simp only [lowByte, BitVec.getLsbD_setWidth, hi, decide_true, Bool.true_and] at heq
    rw [hbit, heq, Bool.xor_self]

/-- On whole tags with `bit_decompose(8)`: whether the low bytes agree. -/
theorem tagCheck_low_bytes_eq (publicTag secretTag : Fin 16 → Gf2n)
    [Decidable (∀ j, lowByte (secretTag j) = lowByte (publicTag j))] :
    tagCheck (List.ofFn publicTag) (List.ofFn secretTag) (bitDecompose 8) =
      if ∀ j, lowByte (secretTag j) = lowByte (publicTag j) then 1 else 0 := by
  rw [tagCheck_eq_prod_lowDeltas, prod_negated]
  exact if_congr (lowDeltas_clear_iff publicTag secretTag) rfl rfl

theorem tagCheck_low_bytes (publicTag secretTag : Fin 16 → Gf2n) :
    tagCheck (List.ofFn publicTag) (List.ofFn secretTag) (bitDecompose 8) = 1 ↔
      ∀ j, lowByte (secretTag j) = lowByte (publicTag j) := by
  have hne : (0 : Gf2n) ≠ 1 := by decide
  rw [tagCheck_low_bytes_eq]
  split_ifs with h
  · exact iff_of_true rfl h
  · exact iff_of_false hne h

end Pobc.Mpc
