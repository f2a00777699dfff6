/-
# `LearnCpp.Lib.CondVar` — condition variables, and counting notifications

Threads that wait on a condition variable are asleep until they are notified, or
wake up for no reason.  A thread that was notified is on its way to take the
mutex again; until it has looked at its predicate it counts as notified.  Which
sleeper a `notifyOne` wakes is not determined, and with no sleeper the
notification is lost.

Work that is handed out one notification at a time is stranded if it lies there
while its thread sleeps.  That cannot be as long as

    some thread is asleep   →   work ≤ notified threads + notifications to come

(`Covered`), and each operation keeps it: work comes with a notification, a
notification reaches a thread or finds none asleep, a thread that takes work
gives up at most its own notification, and a thread goes to sleep only when there
is no work.
-/
import Mathlib.Data.Finset.Card
import Mathlib.Logic.Function.Basic
import Mathlib.Tactic.Common

namespace LearnCpp.Lib

/-- A condition variable: who sleeps on it, and who was notified and has not yet
looked at its predicate. -/
structure CondVar (ι : Type) where
  asleep : Finset ι
  notified : Finset ι
  apart : Disjoint asleep notified

namespace CondVar

variable {ι : Type} {c c' : CondVar ι} {i : ι} {work pending : ℕ}

def new : CondVar ι := ⟨∅, ∅, Finset.disjoint_empty_left _⟩

/-- Notifications suffice for the work, should anybody sleep. -/
def Covered (c : CondVar ι) (work pending : ℕ) : Prop :=
  c.asleep.Nonempty → work ≤ c.notified.card + pending

theorem covered_zero : c.Covered 0 pending := fun _ => Nat.zero_le _

theorem covered_of_asleep_eq (h : c.asleep = ∅) : c.Covered work pending := by
  intro hsleeper
  exact absurd h hsleeper.ne_empty

theorem Covered.mono {work' : ℕ} (hle : work' ≤ work) (h : c.Covered work pending) :
    c.Covered work' pending :=
  fun hsleeper => hle.trans (h hsleeper)

/-- Work that comes with a notification. -/
theorem Covered.post (h : c.Covered work pending) : c.Covered (work + 1) (pending + 1) :=
  fun hsleeper => Nat.succ_le_succ (h hsleeper)

variable [DecidableEq ι]

/-- The predicate is false: the thread goes to sleep. -/
def sleep (c : CondVar ι) (i : ι) : CondVar ι where
  asleep := insert i c.asleep
  notified := c.notified.erase i
  apart := by
    rw [Finset.disjoint_insert_left]
    exact ⟨Finset.notMem_erase i _, c.apart.mono_right (Finset.erase_subset i _)⟩

/-- The predicate is true: the thread leaves the wait. -/
def leave (c : CondVar ι) (i : ι) : CondVar ι where
  asleep := c.asleep
  notified := c.notified.erase i
  apart := c.apart.mono_right (Finset.erase_subset i _)

/-- A thread wakes up for no reason. -/
def wake (c : CondVar ι) (i : ι) : CondVar ι where
  asleep := c.asleep.erase i
  notified := c.notified
  apart := c.apart.mono_left (Finset.erase_subset i _)

/-- A sleeper is notified. -/
def rouse (c : CondVar ι) (i : ι) : CondVar ι where
  asleep := c.asleep.erase i
  notified := insert i c.notified
  apart := by
    rw [Finset.disjoint_insert_right]
    exact ⟨Finset.notMem_erase i _, c.apart.mono_left (Finset.erase_subset i _)⟩

/-- `notify_one`, with the thread that it wakes if there is one to wake. -/
def notifyOne (c : CondVar ι) : Option ι → Option (CondVar ι)
  | none => if c.asleep = ∅ then some c else none
  | some i => if i ∈ c.asleep then some (c.rouse i) else none

def notifyAll (c : CondVar ι) : CondVar ι where
  asleep := ∅
  notified := c.notified ∪ c.asleep
  apart := Finset.disjoint_empty_left _

/-- Who is inside a wait, as far as it has not woken up for no reason. -/
def waiters (c : CondVar ι) : Finset ι := c.asleep ∪ c.notified

theorem notifyOne_cases {choice : Option ι} (h : c.notifyOne choice = some c') :
    (c.asleep = ∅ ∧ c' = c) ∨ ∃ i ∈ c.asleep, c' = c.rouse i := by
  cases choice with
  | none =>
      obtain ⟨hempty, hc'⟩ := Option.ite_none_right_eq_some.mp h
      exact .inl ⟨hempty, (Option.some_inj.mp hc').symm⟩
  | some i =>
      obtain ⟨hi, hc'⟩ := Option.ite_none_right_eq_some.mp h
      exact .inr ⟨i, hi, (Option.some_inj.mp hc').symm⟩

theorem asleep_notifyOne {choice : Option ι} (h : c.notifyOne choice = some c') :
    c'.asleep ⊆ c.asleep := by
  rcases notifyOne_cases h with ⟨-, rfl⟩ | ⟨i, -, rfl⟩
  · exact Finset.Subset.refl _
  · exact Finset.erase_subset i _

theorem exists_notifyOne (c : CondVar ι) : ∃ choice c', c.notifyOne choice = some c' := by
  rcases c.asleep.eq_empty_or_nonempty with hasleep | ⟨i, hi⟩
  · exact ⟨none, c, if_pos hasleep⟩
  · exact ⟨some i, c.rouse i, if_pos hi⟩

@[simp] theorem waiters_sleep : (c.sleep i).waiters = insert i c.waiters := by
  show insert i c.asleep ∪ c.notified.erase i = insert i (c.asleep ∪ c.notified)
  grind

theorem waiters_leave (hi : i ∉ c.asleep) : (c.leave i).waiters = c.waiters.erase i := by
  show c.asleep ∪ c.notified.erase i = (c.asleep ∪ c.notified).erase i
  grind

theorem waiters_wake : (c.wake i).waiters ⊆ c.waiters :=
  Finset.union_subset_union_left (Finset.erase_subset i _)

@[simp] theorem waiters_notifyAll : c.notifyAll.waiters = c.waiters := by
  show ∅ ∪ (c.notified ∪ c.asleep) = c.asleep ∪ c.notified
  rw [Finset.empty_union, Finset.union_comm]

theorem waiters_notifyOne {choice : Option ι} (h : c.notifyOne choice = some c') :
    c'.waiters = c.waiters := by
  rcases notifyOne_cases h with ⟨-, rfl⟩ | ⟨i, hi, rfl⟩
  · rfl
  · show c.asleep.erase i ∪ insert i c.notified = c.asleep ∪ c.notified
    grind

/-! ### Where the waiters are -/

section
variable {π : Type} {place : ι → π} {p : π → Prop}

theorem forall_waiters_sleep (h : ∀ j ∈ c.waiters, p (place j)) (hi : p (place i)) :
    ∀ j ∈ (c.sleep i).waiters, p (place j) := by
  rw [waiters_sleep, Finset.forall_mem_insert]
  exact ⟨hi, h⟩

theorem forall_waiters_leave (h : ∀ j ∈ c.waiters, p (place j)) (hawake : i ∉ c.asleep) (x : π) :
    ∀ j ∈ (c.leave i).waiters, p (Function.update place i x j) := by
  intro j hj
  rw [waiters_leave hawake, Finset.mem_erase] at hj
  rw [Function.update_of_ne hj.1]
  exact h j hj.2

theorem forall_waiters_update (h : ∀ j ∈ c.waiters, p (place j)) (hi : i ∉ c.waiters) (x : π) :
    ∀ j ∈ c.waiters, p (Function.update place i x j) := by
  intro j hj
  have hne : j ≠ i := fun heq => hi (heq ▸ hj)
  rw [Function.update_of_ne hne]
  exact h j hj

theorem notMem_waiters (h : ∀ j ∈ c.waiters, p (place j)) (hi : ¬ p (place i)) : i ∉ c.waiters :=
  fun hmem => hi (h i hmem)

theorem forall_waiters_notifyOne {choice : Option ι} (h : ∀ j ∈ c.waiters, p (place j))
    (hnotify : c.notifyOne choice = some c') : ∀ j ∈ c'.waiters, p (place j) := by
  rw [waiters_notifyOne hnotify]
  exact h

end

/-- A notification that was to come reaches a thread, or nobody needs it. -/
theorem Covered.notifyOne {choice : Option ι} (hc : c.Covered work (pending + 1))
    (h : c.notifyOne choice = some c') : c'.Covered work pending := by
  rcases notifyOne_cases h with ⟨hempty, rfl⟩ | ⟨i, hi, rfl⟩
  · exact covered_of_asleep_eq hempty
  · intro _
    have hfresh : i ∉ c.notified := Finset.disjoint_left.mp c.apart hi
    have hbefore : work ≤ c.notified.card + (pending + 1) := hc ⟨i, hi⟩
    show work ≤ (insert i c.notified).card + pending
    rw [Finset.card_insert_of_notMem hfresh]
    exact hbefore.trans (Nat.le_of_eq (Nat.add_right_comm c.notified.card 1 pending).symm)

theorem covered_notifyAll : c.notifyAll.Covered work pending := covered_of_asleep_eq rfl

theorem Covered.wake (hc : c.Covered work pending) : (c.wake i).Covered work pending :=
  fun hsleeper => hc (hsleeper.mono (Finset.erase_subset i _))

/-- Who leaves with work gives up at most its own notification. -/
theorem Covered.leave (hc : c.Covered (work + 1) pending) : (c.leave i).Covered work pending := by
  intro hsleeper
  have hbefore : work + 1 ≤ c.notified.card + pending := hc hsleeper
  have herase : c.notified.card ≤ (c.notified.erase i).card + 1 := Nat.sub_le_iff_le_add.mp Finset.pred_card_le_card_erase
  show work ≤ (c.notified.erase i).card + pending
  omega

end CondVar

end LearnCpp.Lib
