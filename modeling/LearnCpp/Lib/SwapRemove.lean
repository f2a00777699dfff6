/-
# `LearnCpp.Lib.SwapRemove` — removal by the last element

An array whose order does not matter loses an element in constant time: the last
one is moved into its place, and the array gets shorter by one.

    pre ++ x :: mid ++ [y]   →   pre ++ y :: mid
    pre ++ [x]               →   pre

Who walks along the array meanwhile stays at the same index.  What is before it is
as it was, and what is behind it are the elements that were behind `x`, in another
order (`swapRemove_spec`).
-/
import Mathlib.Data.List.Basic
import Mathlib.Data.List.Perm.Basic
import Mathlib.Data.List.Range
import Mathlib.Logic.Function.Basic
import Mathlib.Tactic.Common

namespace LearnCpp.Lib

variable {α : Type}

/-- The last element goes to the index `i`, and from the end. -/
def swapRemove (i : ℕ) (xs : List α) : List α :=
  match xs.getLast? with
  | some back => (xs.set i back).dropLast
  | none => xs

section
variable {pre mid xs : List α} {x y : α} {i : ℕ}

theorem swapRemove_concat (back : α) :
    swapRemove i (xs ++ [back]) = ((xs ++ [back]).set i back).dropLast := by
  rw [swapRemove, List.getLast?_concat]

/-- The last element is overwritten with itself. -/
theorem swapRemove_last : swapRemove pre.length (pre ++ [x]) = pre := by
  rw [swapRemove_concat, List.set_append_right _ _ (Nat.le_refl _), Nat.sub_self]
  exact List.dropLast_concat

theorem swapRemove_inner :
    swapRemove pre.length (pre ++ x :: (mid ++ [y])) = pre ++ y :: mid := by
  have hassoc : pre ++ x :: (mid ++ [y]) = (pre ++ x :: mid) ++ [y] := by
    rw [List.append_assoc, List.cons_append]
  rw [hassoc, swapRemove_concat, List.append_assoc, List.set_append_right _ _ (Nat.le_refl _), Nat.sub_self,
    List.cons_append, List.set_cons_zero, ← List.cons_append, ← List.append_assoc]
  exact List.dropLast_concat

/-- **What is removed, what stays where it is, and what is only put in another order.** -/
theorem swapRemove_spec (hx : xs[i]? = some x) :
    ∃ pre post post', xs = pre ++ x :: post ∧ pre.length = i ∧ swapRemove i xs = pre ++ post' ∧
      post'.Perm post := by
  obtain ⟨hi, rfl⟩ := List.getElem?_eq_some_iff.mp hx
  have hsplit : xs = xs.take i ++ xs[i] :: xs.drop (i + 1) := by
    rw [← List.drop_eq_getElem_cons hi, List.take_append_drop]
  have hlen : (xs.take i).length = i := List.length_take_of_le (Nat.le_of_lt hi)
  refine ⟨xs.take i, xs.drop (i + 1), ?_⟩
  generalize xs.take i = pre, xs.drop (i + 1) = post, xs[i] = x at hsplit hlen
  subst hsplit hlen
  rcases List.eq_nil_or_concat' post with rfl | ⟨mid, y, rfl⟩
  · exact ⟨[], rfl, rfl, swapRemove_last.trans (List.append_nil pre).symm, List.Perm.refl _⟩
  · exact ⟨y :: mid, rfl, rfl, swapRemove_inner, (List.perm_append_singleton y mid).symm⟩

theorem cons_swapRemove_perm (hx : xs[i]? = some x) : (x :: swapRemove i xs).Perm xs := by
  obtain ⟨pre, post, post', rfl, -, heq, hperm⟩ := swapRemove_spec hx
  rw [heq]
  exact (List.perm_middle.symm).trans ((hperm.cons x).append_left pre)

theorem map_range_update (f : ℕ → α) (i n : ℕ) :
    (List.range n).map (Function.update f i (f n)) = swapRemove i ((List.range (n + 1)).map f) := by
  rw [List.range_succ, List.map_append, List.map_singleton, swapRemove_concat]
  refine List.ext_getElem (by simp) fun j hj _ => ?_
  have hjn : j < n := by simpa using hj
  rw [List.getElem_map, List.getElem_range, List.getElem_dropLast, List.getElem_set]
  rcases eq_or_ne i j with rfl | hne
  · rw [Function.update_self, if_pos rfl]
  · rw [Function.update_of_ne hne.symm, if_neg hne, List.getElem_append_left (by simpa using hjn),
      List.getElem_map, List.getElem_range]

end

end LearnCpp.Lib
