/-
# `LearnCpp.Lib.Effort` — what a system of threads has left to do

Measures for `Progress`.  The threads' own steps are priced by where each of them
is; a step of one thread changes its own price only.  A wait on a condition
variable costs its thread one step more each time it is woken up, so that it has
to be awake counts as well:

    effort  =  Σ cost (place i)  +  threads awake  +  …

A thread that goes to sleep lowers it by one, a notification raises it by at most
one, and a notification to all by at most the number of threads.
-/
import LearnCpp.Lib.CondVar
import Mathlib.Algebra.BigOperators.Group.Finset.Basic
import Mathlib.Data.Fintype.Card

namespace LearnCpp.Lib

variable {ι π : Type}

namespace CondVar

variable {c : CondVar ι} {i : ι}

/-- Where everybody sleeps who waits, there is no work. -/
theorem Covered.eq_zero {work : ℕ} (h : c.Covered work 0) (hall : c.notified = ∅)
    (hi : i ∈ c.asleep) : work = 0 := by
  have hle := h ⟨i, hi⟩
  rw [hall] at hle
  exact Nat.le_zero.mp hle

end CondVar

variable [Fintype ι]

/-- What the threads have left, by where they are. -/
def effort (cost : π → ℕ) (place : ι → π) : ℕ := ∑ i, cost (place i)

variable [DecidableEq ι]

theorem effort_update (cost : π → ℕ) (place : ι → π) (i : ι) (p : π) :
    effort cost (Function.update place i p) + cost (place i) = effort cost place + cost p := by
  have hrest : ∑ j ∈ Finset.univ.erase i, cost (Function.update place i p j) =
      ∑ j ∈ Finset.univ.erase i, cost (place j) := by
    refine Finset.sum_congr rfl fun j hj => ?_
    rw [Function.update_of_ne (Finset.ne_of_mem_erase hj)]
  have hbefore := Finset.add_sum_erase _ (fun j => cost (place j)) (Finset.mem_univ i)
  have hafter := Finset.add_sum_erase _ (fun j => cost (Function.update place i p j))
    (Finset.mem_univ i)
  rw [hrest, Function.update_self] at hafter
  rw [effort, effort]
  omega

namespace CondVar

variable {c c' : CondVar ι} {i : ι}

/-- How many threads do not sleep on it. -/
def awake (c : CondVar ι) : ℕ := c.asleepᶜ.card

theorem awake_sleep (hi : i ∉ c.asleep) : (c.sleep i).awake + 1 = c.awake := by
  show (insert i c.asleep)ᶜ.card + 1 = c.asleepᶜ.card
  rw [Finset.compl_insert]
  exact Finset.card_erase_add_one (Finset.mem_compl.mpr hi)

@[simp] theorem awake_leave : (c.leave i).awake = c.awake := rfl

theorem awake_notifyOne {choice : Option ι} (h : c.notifyOne choice = some c') :
    c'.awake ≤ c.awake + 1 := by
  rcases notifyOne_cases h with ⟨-, rfl⟩ | ⟨i, -, rfl⟩
  · exact Nat.le_succ _
  · show (c.asleep.erase i)ᶜ.card ≤ c.asleepᶜ.card + 1
    rw [Finset.compl_erase]
    exact Finset.card_insert_le i _

theorem awake_notifyAll : c.notifyAll.awake ≤ Fintype.card ι := Finset.card_le_univ _

end CondVar

end LearnCpp.Lib
