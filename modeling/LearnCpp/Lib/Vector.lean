/-
# `LearnCpp.Lib.Vector` — `int` and vectors, with what C++ leaves undefined

Signed arithmetic is undefined when its result is outside `int`, and so is an
access outside a vector.  Both are `none` here.  A conversion to `int` is
defined for every value, and keeps it modulo `2³²`.

    intOf z         conversion to int             =  z   when z is in the range
    checked z       the result of an operation    =  some z   when z is
    nth xs i        xs[i]                         =  some xs[i]   when i is an index
    swap xs i j     swap(xs[i], xs[j])            a permutation of xs
-/
import Mathlib.Data.List.Basic
import Mathlib.Algebra.Order.Ring.Int
import Mathlib.Tactic.Common
import LearnCpp.Lib.LowerBound

namespace LearnCpp.Lib

/-! ## `int` -/

/-- The values of `int`. -/
def InInt (z : ℤ) : Prop := -2 ^ 31 ≤ z ∧ z < 2 ^ 31

instance decidableInInt (z : ℤ) : Decidable (InInt z) := inferInstanceAs (Decidable (_ ∧ _))

/-- Conversion of an integral value to `int`. -/
def intOf (z : ℤ) : ℤ := z.bmod (2 ^ 32)

/-- The result of a signed operation. -/
def checked (z : ℤ) : Option ℤ := if InInt z then some z else none

theorem intOf_of_inInt {z : ℤ} (h : InInt z) : intOf z = z := by
  obtain ⟨hlo, hhi⟩ := h
  exact Int.bmod_eq_of_le (by omega) (by omega)

theorem checked_of_inInt {z : ℤ} (h : InInt z) : checked z = some z := if_pos h

theorem intOf_length {n : ℕ} (hn : n < 2 ^ 31) : intOf n = n :=
  intOf_of_inInt ⟨by omega, by omega⟩

/-! ## Elements of a vector -/

section
variable {α : Type} {xs xs' : List α} {i j : ℕ}

/-- The element at an index of type `int`. -/
def nth (xs : List α) (i : ℤ) : Option α := if 0 ≤ i then xs[i.toNat]? else none

@[simp] theorem nth_natCast (xs : List α) (i : ℕ) : nth xs i = xs[i]? := by
  simp [nth]

/-- Assignment to the element at an index. -/
def assign (xs : List α) (i : ℕ) (a : α) : Option (List α) :=
  if i < xs.length then some (xs.set i a) else none

theorem assign_of_lt (hi : i < xs.length) (a : α) : assign xs i a = some (xs.set i a) := if_pos hi

/-- `swap` of two elements. -/
def swap (xs : List α) (i j : ℕ) : Option (List α) :=
  match xs[i]?, xs[j]? with
  | some a, some b => some ((xs.set i b).set j a)
  | _, _ => none

theorem swap_of_lt (hi : i < xs.length) (hj : j < xs.length) :
    swap xs i j = some ((xs.set i xs[j]).set j xs[i]) := by
  simp [swap, hi, hj]

theorem exists_swap (hi : i < xs.length) (hj : j < xs.length) :
    ∃ xs', swap xs i j = some xs' ∧ xs'.Perm xs ∧ xs'[i]? = xs[j]? ∧ xs'[j]? = xs[i]? ∧
      ∀ l, l ≠ i → l ≠ j → xs'[l]? = xs[l]? := by
  refine ⟨_, swap_of_lt hi hj, List.set_set_perm hi hj, ?_, ?_, fun l hli hlj => ?_⟩
  · rcases eq_or_ne j i with rfl | hne
    · simp
    · simp [hne, hi, hj]
  · simp [hi, hj]
  · simp [hli.symm, hlj.symm]

end

/-! ## Vectors in order -/

section
variable {α : Type} [LinearOrder α] {xs : List α}

/-- In a vector in order, the elements below `t` are the first ones. -/
theorem getElem_lt_iff_lt_countP (hxs : xs.Pairwise (· ≤ ·)) {i : ℕ} (hi : i < xs.length) (t : α) :
    xs[i] < t ↔ i < xs.countP (· < t) := by
  have hparts : xs.Pairwise fun a b => decide (b < t) = true → decide (a < t) = true :=
    hxs.imp fun hab hb => decide_eq_true (hab.trans_lt (of_decide_eq_true hb))
  obtain ⟨lo, hi', rfl, hlo, hhi⟩ := exists_parts hparts
  have hcount : (lo ++ hi').countP (· < t) = lo.length := by
    rw [List.countP_append, List.countP_eq_length.mpr hlo,
      List.countP_eq_zero.mpr fun a ha => by simp [hhi a ha]]
    rfl
  rw [hcount, ← any_getElem?_iff hlo hhi hi, List.getElem?_eq_getElem hi, Option.any_some,
    decide_eq_true_eq]

end

end LearnCpp.Lib
