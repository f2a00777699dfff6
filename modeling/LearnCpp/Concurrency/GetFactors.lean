/-
# `LearnCpp.Concurrency.GetFactors` — the two loops of `get_factors`, step by step

`topics/concurrency/parallel_math/lib.h`.  `ParallelMath` has `get_factors` as a
function, whose definition already carries why its loops stop.  Here the loops
are run as the code has them, and nothing is assumed of them: a division by
zero and a counter that passes its largest value are undefined.

The bound `num` shrinks while the counter grows.  What is left of the number is
rough for the counter all along, so that a counter past it means that nothing
but one is left, and what it does not divide, unless it is one, is larger.
-/
import LearnCpp.Concurrency.ParallelMath
import LearnCpp.Lib.Loop

namespace LearnCpp.Concurrency.ParallelMath

open Lib

/-- Which of the two loops is about to test its condition. -/
inductive At where
  | outer
  | inner
deriving DecidableEq

/-- The variables of `get_factors`. -/
structure Factoring where
  i : UInt64
  num : UInt64
  factors : List UInt64
  loc : At

/-- One test of a loop condition, and what the code does after it. -/
def factorRound (s : Factoring) : Option (Round Factoring (List UInt64)) :=
  match s.loc with
  | .outer =>
      if s.i ≤ s.num then some (.next { s with loc := .inner })
      else some (.leave s.factors)
  | .inner =>
      if s.i = 0 then none
      else if s.num % s.i = 0 then
        some (.next { s with num := s.num / s.i, factors := s.factors ++ [s.i] })
      else if s.num = 1 then some (.leave s.factors)
      else if s.i.toNat = 2 ^ 64 - 1 then none
      else some (.next { s with i := s.i + 1, loc := .outer })

/-- Before the first test of the outer loop. -/
def Factoring.init (num : UInt64) : Factoring := ⟨2, num, [], .outer⟩

/-- What holds between two tests, of the number `n` that was given: the factors
pushed and those of what is left are the factors of `n`, and none of the latter
is below the counter. -/
structure Factoring.Inv (n : ℕ) (s : Factoring) : Prop where
  two_le : 2 ≤ s.i
  num_ne_zero : s.num ≠ 0
  rough : Rough s.i.toNat s.num.toNat
  factors : s.factors.map UInt64.toNat ++ s.num.toNat.primeFactorsList = n.primeFactorsList

/-- The number falls, or the counter grows, or the inner loop is entered. -/
def Factoring.variant (s : Factoring) : ℕ :=
  2 * (s.num.toNat + (2 ^ 64 - s.i.toNat)) + (if s.loc = .outer then 1 else 0)

namespace Factoring

theorem inv_init {num : UInt64} (hnum : 1 ≤ num) : (init num).Inv num.toNat where
  two_le := le_refl 2
  num_ne_zero := ne_zero_iff.mpr (one_le_iff.mp hnum)
  rough := rough_two _
  factors := rfl

variable {n : ℕ} {s : Factoring}

theorem Inv.map_factors (h : s.Inv n) (hnil : s.num.toNat.primeFactorsList = []) :
    s.factors.map UInt64.toNat = n.primeFactorsList := by
  rw [← h.factors, hnil, List.append_nil]

theorem Inv.divide (h : s.Inv n) (hmod : s.num % s.i = 0) :
    Inv n { s with num := s.num / s.i, factors := s.factors ++ [s.i] } where
  two_le := h.two_le
  num_ne_zero := div_ne_zero h.two_le h.num_ne_zero hmod
  rough := by
    rw [UInt64.toNat_div]
    exact h.rough.of_dvd (Nat.div_dvd_of_dvd (mod_eq_zero_iff.mp hmod))
  factors := by
    have hcons := h.rough.primeFactorsList_eq_cons (two_le_toNat h.two_le)
      (ne_zero_iff.mp h.num_ne_zero) (mod_eq_zero_iff.mp hmod)
    rw [← h.factors, hcons, List.map_append, UInt64.toNat_div, List.append_assoc]
    rfl

theorem Inv.lt_num (h : s.Inv n) (hmod : ¬ s.num % s.i = 0) (hone : ¬ s.num = 1) :
    s.i.toNat < s.num.toNat := by
  have hzero : s.num.toNat ≠ 0 := ne_zero_iff.mp h.num_ne_zero
  have hone' : s.num.toNat ≠ 1 := fun h1 => hone (UInt64.toNat_inj.mp h1)
  have hdvd : ¬ s.i.toNat ∣ s.num.toNat := fun hdvd => hmod (mod_eq_zero_iff.mpr hdvd)
  have hle : s.i.toNat ≤ s.num.toNat := by
    refine le_of_not_gt fun hlt => ?_
    have hnil := (Nat.primeFactorsList_eq_nil _).mp (h.rough.primeFactorsList_eq_nil hlt)
    omega
  refine lt_of_le_of_ne hle fun heq => ?_
  exact hdvd (heq ▸ Nat.dvd_refl _)

theorem Inv.succ (h : s.Inv n) (hmod : ¬ s.num % s.i = 0) (hi : (s.i + 1).toNat = s.i.toNat + 1) :
    Inv n { s with i := s.i + 1, loc := .outer } where
  two_le := by
    have h2 := two_le_toNat h.two_le
    rw [UInt64.le_iff_toNat_le, hi]
    exact Nat.le_succ_of_le h2
  num_ne_zero := h.num_ne_zero
  rough := by
    rw [hi]
    exact h.rough.succ fun hdvd => hmod (mod_eq_zero_iff.mpr hdvd)
  factors := h.factors

/-- One test: the loops go on, keeping the invariant and lowering the variant, or
leave with the prime factors of the number given. -/
theorem Inv.round (h : s.Inv n) :
    (∃ s', factorRound s = some (.next s') ∧ s'.Inv n ∧ s'.variant < s.variant) ∨
      (∃ r, factorRound s = some (.leave r) ∧ r.map UInt64.toNat = n.primeFactorsList) := by
  obtain ⟨i, num, factors, loc⟩ := s
  cases loc with
  | outer =>
      by_cases hle : i ≤ num
      · refine .inl ⟨⟨i, num, factors, .inner⟩, ?_, ⟨h.two_le, h.num_ne_zero, h.rough, h.factors⟩, ?_⟩
        · exact if_pos hle
        · simp [variant]
      · refine .inr ⟨factors, if_neg hle, h.map_factors ?_⟩
        exact h.rough.primeFactorsList_eq_nil (UInt64.lt_iff_toNat_lt.mp (UInt64.not_le.mp hle))
  | inner =>
      have h2 : 2 ≤ i.toNat := two_le_toNat h.two_le
      have hi0 : i ≠ 0 := ne_zero_iff.mpr (by omega)
      simp only [factorRound, if_neg hi0]
      by_cases hmod : num % i = 0
      · refine .inl ⟨_, if_pos hmod, h.divide hmod, ?_⟩
        have hlt : (num / i).toNat < num.toNat := div_lt h.two_le h.num_ne_zero
        simp only [variant]
        omega
      by_cases hone : num = 1
      · refine .inr ⟨factors, by rw [if_neg hmod, if_pos hone], h.map_factors ?_⟩
        simp [hone]
      · -- the counter is below the number, so it does not wrap
        have hlt : i.toNat < num.toNat := h.lt_num hmod hone
        have hnum : num.toNat < 2 ^ 64 := num.toNat_lt
        have hsucc : (i + 1).toNat = i.toNat + 1 := by
          rw [UInt64.toNat_add, UInt64.toNat_one, Nat.mod_eq_of_lt (by omega)]
        refine .inl ⟨_, ?_, h.succ hmod hsucc, ?_⟩
        · rw [if_neg hmod, if_neg hone, if_neg (by omega)]
        · simp only [variant, hsucc]
          grind

end Factoring

theorem returns_getFactors {num : UInt64} (hnum : 1 ≤ num) :
    Returns factorRound (.init num) (getFactors num) := by
  obtain ⟨factors, hreturns, hfactors⟩ := Returns.rule (Factoring.Inv num.toNat) Factoring.variant
    (fun _ h => h.round) (Factoring.inv_init hnum)
  have hinj : Function.Injective UInt64.toNat := fun _ _ => UInt64.toNat_inj.mp
  rwa [← List.map_injective_iff.mpr hinj (hfactors.trans (map_getFactors num).symm)]

/-- **`get_factors`** ends on every number from one on, its counter never passing the
largest 64-bit value, with primes in order whose product is the number. -/
theorem getFactors_prime_sorted {num : UInt64} (hnum : 1 ≤ num) :
    ∃ factors, Returns factorRound (.init num) factors ∧
      (factors.map UInt64.toNat).Pairwise (· ≤ ·) ∧
      (∀ f ∈ factors, f.toNat.Prime) ∧
      (factors.map UInt64.toNat).prod = num.toNat := by
  refine ⟨getFactors num, returns_getFactors hnum, ?_, ?_, ?_⟩
  · rw [map_getFactors]
    exact (Nat.primeFactorsList_sorted _).pairwise
  · intro f hf
    have hmem : f.toNat ∈ num.toNat.primeFactorsList := by
      rw [← map_getFactors]
      exact List.mem_map_of_mem hf
    exact Nat.prime_of_mem_primeFactorsList hmem
  · rw [map_getFactors]
    exact Nat.prod_primeFactorsList (one_le_iff.mp hnum)

theorem getFactors_prime_sorted_sixty :
    ∃ factors, Returns factorRound (.init 60) factors ∧
      (factors.map UInt64.toNat).Pairwise (· ≤ ·) ∧
      (∀ f ∈ factors, f.toNat.Prime) ∧
      (factors.map UInt64.toNat).prod = (60 : UInt64).toNat :=
  getFactors_prime_sorted (by decide)

example : loop factorRound 20 (.init 60) = some [2, 2, 3, 5] := by decide

end LearnCpp.Concurrency.ParallelMath
