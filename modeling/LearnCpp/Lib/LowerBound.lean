/-
# `LearnCpp.Lib.LowerBound` — binary search in a vector

`std::lower_bound` halves a range until nothing is left of it.  On a vector whose
elements that satisfy `p` come before those that do not, the place where they
change stays in the range, and the search ends there:

    lowerBound p (lo ++ hi)   =   lo.length
-/
import Mathlib.Data.List.Basic
import Mathlib.Tactic.Common

namespace LearnCpp.Lib

variable {α : Type}

/-- The search in the `len` elements from `first` on. -/
def lowerBoundFrom (p : α → Bool) (xs : List α) (first len : ℕ) : ℕ :=
  if _hlen : 0 < len then
    let half := len / 2
    if xs[first + half]?.any p then lowerBoundFrom p xs (first + half + 1) (len - half - 1)
    else lowerBoundFrom p xs first half
  else first
termination_by len
decreasing_by all_goals omega

/-- `std::lower_bound`, as the index of the iterator. -/
def lowerBound (p : α → Bool) (xs : List α) : ℕ := lowerBoundFrom p xs 0 xs.length

variable {p : α → Bool} {lo hi xs : List α}

theorem any_getElem?_iff (hlo : ∀ a ∈ lo, p a = true) (hhi : ∀ a ∈ hi, p a = false) {i : ℕ}
    (hi' : i < (lo ++ hi).length) : (lo ++ hi)[i]?.any p = true ↔ i < lo.length := by
  rw [List.getElem?_eq_getElem hi', Option.any_some]
  constructor
  · intro hp
    by_contra hge
    rw [List.getElem_append_right (Nat.le_of_not_lt hge), hhi _ (List.getElem_mem _)] at hp
    cases hp
  · intro hlt
    rw [List.getElem_append_left hlt]
    exact hlo _ (List.getElem_mem hlt)

/-- The place of the change stays in the range that is left. -/
theorem lowerBoundFrom_append (hlo : ∀ a ∈ lo, p a = true) (hhi : ∀ a ∈ hi, p a = false)
    {first len : ℕ} (hfirst : first ≤ lo.length) (hlast : lo.length ≤ first + len)
    (hend : first + len ≤ (lo ++ hi).length) : lowerBoundFrom p (lo ++ hi) first len = lo.length := by
  induction first, len using lowerBoundFrom.induct p (lo ++ hi) with
  | case1 first len hlen half hp ih =>
      have hmid : first + half < lo.length :=
        (any_getElem?_iff hlo hhi (by omega)).mp hp
      rw [lowerBoundFrom, dif_pos hlen, if_pos hp]
      exact ih (by omega) (by omega) (by omega)
  | case2 first len hlen half hp ih =>
      have hmid : ¬ first + half < lo.length :=
        fun hlt => hp ((any_getElem?_iff hlo hhi (by omega)).mpr hlt)
      rw [lowerBoundFrom, dif_pos hlen, if_neg hp]
      exact ih hfirst (by omega) (by omega)
  | case3 first len hlen =>
      rw [lowerBoundFrom, dif_neg hlen]
      omega

/-- **The search finds the first element that does not satisfy `p`.** -/
theorem lowerBound_append (hlo : ∀ a ∈ lo, p a = true) (hhi : ∀ a ∈ hi, p a = false) :
    lowerBound p (lo ++ hi) = lo.length :=
  lowerBoundFrom_append hlo hhi (Nat.zero_le _) (by simp) (Nat.le_of_eq (Nat.zero_add _))

theorem exists_parts (h : xs.Pairwise fun a b => p b = true → p a = true) :
    ∃ lo hi, xs = lo ++ hi ∧ (∀ a ∈ lo, p a = true) ∧ ∀ a ∈ hi, p a = false := by
  induction xs with
  | nil => exact ⟨[], [], rfl, List.forall_mem_nil _, List.forall_mem_nil _⟩
  | cons x xs ih =>
      obtain ⟨hx, hxs⟩ := List.pairwise_cons.mp h
      cases hp : p x with
      | true =>
          obtain ⟨lo, hi, rfl, hlo, hhi⟩ := ih hxs
          exact ⟨x :: lo, hi, rfl, List.forall_mem_cons.mpr ⟨hp, hlo⟩, hhi⟩
      | false =>
          refine ⟨[], x :: xs, rfl, List.forall_mem_nil _, List.forall_mem_cons.mpr ⟨hp, ?_⟩⟩
          intro a ha
          rw [← Bool.not_eq_true]
          intro hpa
          cases hp.symm.trans (hx a ha hpa)

theorem insertIdx_length_append (lo hi : List α) (a : α) :
    (lo ++ hi).insertIdx lo.length a = lo ++ a :: hi := by
  induction lo with
  | nil => rw [List.nil_append, List.length_nil, List.insertIdx_zero, List.nil_append]
  | cons b lo ih => rw [List.cons_append, List.length_cons, List.insertIdx_succ_cons, ih, List.cons_append]

end LearnCpp.Lib
