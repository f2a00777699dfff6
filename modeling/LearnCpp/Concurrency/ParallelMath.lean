/-
# `LearnCpp.Concurrency.ParallelMath` — factors on 64 bits

`topics/concurrency/parallel_math/lib.h`.  `get_factors` divides by 2, 3, 4, …
as often as each divides, and stops when nothing but one is left or when the
divisor is larger than what is left.  Both loops stop: the inner one makes the
number smaller, and the outer counter does not wrap, for it would have to pass
`2⁶⁴ − 1`, and what this leaves of a number it can divide is one.

    get_factors num                                      =  the prime factors of num, in order
    get_common_factors (get_factors a) (get_factors b)   =  get_factors (gcd a b)
-/
import LearnCpp.Lib.Factors

namespace LearnCpp.Concurrency.ParallelMath

open Lib

section
variable {i num : UInt64}

theorem mod_eq_zero_iff : num % i = 0 ↔ i.toNat ∣ num.toNat := by
  rw [← UInt64.toNat_inj, UInt64.toNat_mod]
  exact (Nat.dvd_iff_mod_eq_zero ..).symm

theorem ne_zero_iff : num ≠ 0 ↔ num.toNat ≠ 0 := by
  rw [ne_eq, ← UInt64.toNat_inj]
  rfl

theorem two_le_toNat (hi : 2 ≤ i) : 2 ≤ i.toNat := UInt64.le_iff_toNat_le.mp hi

theorem ne_zero_of_two_le (hi : 2 ≤ i) (hle : i ≤ num) : num ≠ 0 := by
  have h2 := two_le_toNat hi
  have hnum := UInt64.le_iff_toNat_le.mp hle
  exact ne_zero_iff.mpr (by omega)

theorem div_ne_zero (hi : 2 ≤ i) (hnum : num ≠ 0) (hmod : num % i = 0) : num / i ≠ 0 := by
  have hpos := Nat.pos_of_ne_zero (ne_zero_iff.mp hnum)
  have hle : i.toNat ≤ num.toNat := Nat.le_of_dvd hpos (mod_eq_zero_iff.mp hmod)
  have h2 := two_le_toNat hi
  rw [ne_zero_iff, UInt64.toNat_div]
  exact Nat.pos_iff_ne_zero.mp (Nat.div_pos hle (by omega))

theorem div_lt (hi : 2 ≤ i) (hnum : num ≠ 0) : (num / i).toNat < num.toNat := by
  rw [UInt64.toNat_div]
  exact Nat.div_lt_self (Nat.pos_of_ne_zero (ne_zero_iff.mp hnum)) (two_le_toNat hi)

end

/-- The inner loop: divide by `i` as often as it divides.  The factors pushed, and
what is left of `num`. -/
def divideOut (i num : UInt64) (hi : 2 ≤ i) (hnum : num ≠ 0) : List UInt64 × UInt64 :=
  if hmod : num % i = 0 then
    let rest := divideOut i (num / i) hi (div_ne_zero hi hnum hmod)
    (i :: rest.1, rest.2)
  else ([], num)
termination_by num.toNat
decreasing_by exact div_lt hi hnum

section
variable {i num : UInt64} (hi : 2 ≤ i) (hnum : num ≠ 0)

theorem divideOut_of_dvd (hmod : num % i = 0) :
    divideOut i num hi hnum =
      (i :: (divideOut i (num / i) hi (div_ne_zero hi hnum hmod)).1,
        (divideOut i (num / i) hi (div_ne_zero hi hnum hmod)).2) := by
  rw [divideOut, dif_pos hmod]

theorem divideOut_of_not_dvd (hmod : ¬ num % i = 0) : divideOut i num hi hnum = ([], num) := by
  rw [divideOut, dif_neg hmod]

theorem divideOut_dvd : (divideOut i num hi hnum).2.toNat ∣ num.toNat := by
  induction num, hnum using divideOut.induct i hi with
  | case1 num hnum hmod ih =>
      rw [divideOut_of_dvd hi hnum hmod]
      refine ih.trans ?_
      rw [UInt64.toNat_div]
      exact Nat.div_dvd_of_dvd (mod_eq_zero_iff.mp hmod)
  | case2 num hnum hmod => rw [divideOut_of_not_dvd hi hnum hmod]

theorem divideOut_not_dvd : ¬ i.toNat ∣ (divideOut i num hi hnum).2.toNat := by
  induction num, hnum using divideOut.induct i hi with
  | case1 num hnum hmod ih => rwa [divideOut_of_dvd hi hnum hmod]
  | case2 num hnum hmod =>
      rw [divideOut_of_not_dvd hi hnum hmod]
      exact fun hdvd => hmod (mod_eq_zero_iff.mpr hdvd)

/-- The largest 64-bit number leaves one of a number that it divides. -/
theorem divideOut_max (hmax : i.toNat = 2 ^ 64 - 1) (hle : i ≤ num) :
    (divideOut i num hi hnum).2 = 1 := by
  have hnat : i.toNat ≤ num.toNat := UInt64.le_iff_toNat_le.mp hle
  have hlt : num.toNat < 2 ^ 64 := num.toNat_lt
  obtain rfl : num = i := UInt64.toNat_inj.mp (by omega)
  have hrest := divideOut_dvd hi (div_ne_zero hi hnum (mod_eq_zero_iff.mpr (Nat.dvd_refl _)))
  rw [UInt64.toNat_div, Nat.div_self (Nat.pos_of_ne_zero (ne_zero_iff.mp hnum))] at hrest
  rw [divideOut_of_dvd hi hnum (mod_eq_zero_iff.mpr (Nat.dvd_refl _)), ← UInt64.toNat_inj]
  exact Nat.dvd_one.mp hrest

theorem toNat_succ (hle : i ≤ num) (hrest : (divideOut i num hi hnum).2 ≠ 1) :
    (i + 1).toNat = i.toNat + 1 := by
  have hmax : i.toNat ≠ 2 ^ 64 - 1 := fun h => hrest (divideOut_max hi hnum h hle)
  have hlt : i.toNat < 2 ^ 64 := i.toNat_lt
  rw [UInt64.toNat_add, show UInt64.toNat 1 = 1 from rfl, Nat.mod_eq_of_lt (by omega)]

theorem two_le_succ (hle : i ≤ num) (hrest : (divideOut i num hi hnum).2 ≠ 1) : 2 ≤ i + 1 := by
  have h2 := two_le_toNat hi
  rw [UInt64.le_iff_toNat_le, toNat_succ hi hnum hle hrest]
  show 2 ≤ i.toNat + 1
  omega

end

/-- The outer loop, from the divisor `i` on. -/
def factorsFrom (i num : UInt64) (hi : 2 ≤ i) : List UInt64 :=
  if hle : i ≤ num then
    let rest := divideOut i num hi (ne_zero_of_two_le hi hle)
    if hone : rest.2 = 1 then rest.1
    else rest.1 ++ factorsFrom (i + 1) rest.2 (two_le_succ hi _ hle hone)
  else []
termination_by 2 ^ 64 - i.toNat
decreasing_by
  have hlt : i.toNat < 2 ^ 64 := i.toNat_lt
  rw [toNat_succ hi _ hle hone]
  omega

def getFactors (num : UInt64) : List UInt64 := factorsFrom 2 num (le_refl 2)

/-- `list2` is the copy that the elements found are erased from. -/
def getCommonFactors : List UInt64 → List UInt64 → List UInt64
  | [], _ => []
  | elem :: list1, list2 =>
      if elem ∈ list2 then elem :: getCommonFactors list1 (list2.erase elem)
      else getCommonFactors list1 list2

/-! ## What the loops compute -/

section
variable {i num : UInt64} (hi : 2 ≤ i)

theorem divideOut_factors (hnum : num ≠ 0) (h : Rough i.toNat num.toNat) :
    num.toNat.primeFactorsList = (divideOut i num hi hnum).1.map UInt64.toNat ++
      (divideOut i num hi hnum).2.toNat.primeFactorsList := by
  induction num, hnum using divideOut.induct i hi with
  | case1 num hnum hmod ih =>
      have hdvd := mod_eq_zero_iff.mp hmod
      have hrough : Rough i.toNat (num / i).toNat := by
        rw [UInt64.toNat_div]
        exact h.of_dvd (Nat.div_dvd_of_dvd hdvd)
      rw [divideOut_of_dvd hi hnum hmod,
        h.primeFactorsList_eq_cons (two_le_toNat hi) (ne_zero_iff.mp hnum) hdvd, ← UInt64.toNat_div,
        ih hrough]
      rfl
  | case2 num hnum hmod =>
      rw [divideOut_of_not_dvd hi hnum hmod]
      rfl

/-- The outer loop finds the prime factors of a number that has none below `i`. -/
theorem map_factorsFrom (h : Rough i.toNat num.toNat) :
    (factorsFrom i num hi).map UInt64.toNat = num.toNat.primeFactorsList := by
  induction i, num, hi using factorsFrom.induct with
  | case1 i num hi hle rest hone =>
      have hfactors := divideOut_factors hi (ne_zero_of_two_le hi hle) h
      rw [show (divideOut i num hi (ne_zero_of_two_le hi hle)).2 = 1 from hone] at hfactors
      rw [factorsFrom, dif_pos hle, dif_pos hone, hfactors, UInt64.toNat_one,
        Nat.primeFactorsList_one, List.append_nil]
  | case2 i num hi hle rest hone ih =>
      have hrough : Rough (i + 1).toNat rest.2.toNat := by
        rw [toNat_succ hi _ hle hone]
        exact (h.of_dvd (divideOut_dvd hi _)).succ (divideOut_not_dvd hi _)
      rw [factorsFrom, dif_pos hle, dif_neg hone, List.map_append, ih hrough,
        divideOut_factors hi _ h]
  | case3 i num hi hle =>
      rw [factorsFrom, dif_neg hle]
      exact (h.primeFactorsList_eq_nil (UInt64.lt_iff_toNat_lt.mp (UInt64.not_le.mp hle))).symm

end

theorem map_getFactors (num : UInt64) :
    (getFactors num).map UInt64.toNat = num.toNat.primeFactorsList :=
  map_factorsFrom _ (rough_two _)

theorem getCommonFactors_eq (list1 list2 : List UInt64) :
    getCommonFactors list1 list2 = list1.bagInter list2 := by
  induction list1 generalizing list2 with
  | nil => rw [getCommonFactors, List.nil_bagInter]
  | cons elem list1 ih => rw [getCommonFactors, List.cons_bagInter, ih, ih]

/-! ## Common factors -/

/-- The greatest common divisor of two 64-bit numbers. -/
def gcd (a b : UInt64) : UInt64 := UInt64.ofNat (a.toNat.gcd b.toNat)

section
variable {a b : UInt64}

theorem one_le_iff : 1 ≤ a ↔ a.toNat ≠ 0 := by
  rw [UInt64.le_iff_toNat_le]
  exact Nat.one_le_iff_ne_zero

theorem toNat_gcd (ha : 1 ≤ a) : (gcd a b).toNat = a.toNat.gcd b.toNat := by
  have hpos := Nat.pos_of_ne_zero (one_le_iff.mp ha)
  have hle : a.toNat.gcd b.toNat ≤ a.toNat := Nat.gcd_le_left _ hpos
  exact UInt64.toNat_ofNat_of_lt (hle.trans_lt a.toNat_lt)

theorem getCommonFactors_getFactors (ha : 1 ≤ a) (hb : 1 ≤ b) :
    getCommonFactors (getFactors a) (getFactors b) = getFactors (gcd a b) := by
  have hinj : Function.Injective UInt64.toNat := fun _ _ => UInt64.toNat_inj.mp
  refine List.map_injective_iff.mpr hinj ?_
  rw [getCommonFactors_eq, map_bagInter hinj, map_getFactors, map_getFactors, map_getFactors,
    toNat_gcd ha, primeFactorsList_gcd (one_le_iff.mp ha) (one_le_iff.mp hb)]

end

/-- **The common factors** of two numbers are the factors of their greatest common
divisor, in either order of the two, and their product is that divisor. -/
theorem commonFactors_gcd {a b : UInt64} (ha : 1 ≤ a) (hb : 1 ≤ b) :
    getCommonFactors (getFactors a) (getFactors b) = getFactors (gcd a b) ∧
    getCommonFactors (getFactors a) (getFactors b) = getCommonFactors (getFactors b) (getFactors a) ∧
    ((getCommonFactors (getFactors a) (getFactors b)).map UInt64.toNat).prod =
      a.toNat.gcd b.toNat := by
  have hcommon := getCommonFactors_getFactors ha hb
  refine ⟨hcommon, ?_, ?_⟩
  · rw [hcommon, getCommonFactors_getFactors hb ha, gcd, gcd, Nat.gcd_comm]
  · rw [hcommon, map_getFactors, toNat_gcd ha]
    exact Nat.prod_primeFactorsList (Nat.gcd_ne_zero_left (one_le_iff.mp ha))

theorem commonFactors_gcd_twelve :
    getCommonFactors (getFactors 12) (getFactors 18) = getFactors (gcd 12 18) ∧
    getCommonFactors (getFactors 12) (getFactors 18) = getCommonFactors (getFactors 18) (getFactors 12) ∧
    ((getCommonFactors (getFactors 12) (getFactors 18)).map UInt64.toNat).prod =
      (12 : UInt64).toNat.gcd (18 : UInt64).toNat :=
  commonFactors_gcd (by decide) (by decide)

end LearnCpp.Concurrency.ParallelMath
