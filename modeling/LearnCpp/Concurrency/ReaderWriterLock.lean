/-
# `LearnCpp.Concurrency.ReaderWriterLock` — many readers or one writer

`topics/concurrency/reader_writer_lock.cpp`: any threads, each of which pairs
`lock_read` with `unlock_read` or `lock_write` with `unlock_write`, as the guards
do.  What a call does with the mutex held is one step.

Readers and writers sleep on one condition variable with different predicates,
and everybody is notified, but only when the last reader or the writer leaves.
That is enough, since nothing else can make a predicate true:

    i asleep in lock_read    →   writing_
    i asleep in lock_write   →   writing_  or  readers_ ≠ 0

`readers_` is an `int`; it counts threads, and is taken without its bound.
-/
import LearnCpp.Lib.CondVar
import LearnCpp.Lib.Schedule
import Mathlib.Data.Set.Card

namespace LearnCpp.Concurrency.ReaderWriterLock

open Lib

variable {ι : Type}

inductive Mode where
  | read
  | write
  deriving DecidableEq

/-- Where a thread is. -/
inductive Place where
  | outside
  /-- in `lock_read` or `lock_write`, before the mutex or in `cond_.wait` -/
  | locking (mode : Mode)
  /-- between the lock and the unlock -/
  | holding (mode : Mode)
  deriving DecidableEq

structure State (ι : Type) where
  readers : ℤ := 0
  writing : Bool := false
  cond : CondVar ι := .new
  place : ι → Place := fun _ => .outside

inductive Action (ι : Type) where
  /-- `i` calls `lock_read` or `lock_write`. -/
  | call (i : ι) (mode : Mode)
  /-- `i` takes the mutex in its lock function and looks at its predicate. -/
  | locked (i : ι)
  | unlock (i : ι)
  /-- A spurious wake-up. -/
  | wake (i : ι)
  deriving DecidableEq

/-- The predicates of the two waits. -/
def State.predicate (s : State ι) : Mode → Bool
  | .read => !s.writing
  | .write => !s.writing && s.readers == 0

section
variable {s : State ι} {mode : Mode}

theorem predicate_read : s.predicate .read = true ↔ s.writing = false := by
  show (!s.writing) = true ↔ _
  cases s.writing <;> decide

theorem predicate_write : s.predicate .write = true ↔ s.writing = false ∧ s.readers = 0 := by
  show (!s.writing && s.readers == 0) = true ↔ _
  rw [Bool.and_eq_true, beq_iff_eq, Bool.not_eq_true']

theorem predicate_of_writing (h : s.writing = true) : s.predicate mode = false := by
  cases mode with
  | read =>
      show (!s.writing) = false
      rw [h]
      rfl
  | write =>
      show (!s.writing && _) = false
      rw [h]
      rfl

end

variable [DecidableEq ι]

/-- `lock_read`, with the mutex held. -/
def lockRead (i : ι) (s : State ι) : State ι :=
  if s.predicate .read then
    { s with
      readers := s.readers + 1, cond := s.cond.leave i
      place := Function.update s.place i (.holding .read) }
  else { s with cond := s.cond.sleep i }

def unlockRead (i : ι) (s : State ι) : State ι :=
  { s with
    readers := s.readers - 1
    cond := if s.readers - 1 = 0 then s.cond.notifyAll else s.cond
    place := Function.update s.place i .outside }

/-- `lock_write`, with the mutex held. -/
def lockWrite (i : ι) (s : State ι) : State ι :=
  if s.predicate .write then
    { s with
      writing := true, cond := s.cond.leave i
      place := Function.update s.place i (.holding .write) }
  else { s with cond := s.cond.sleep i }

def unlockWrite (i : ι) (s : State ι) : State ι :=
  { s with
    writing := false, cond := s.cond.notifyAll
    place := Function.update s.place i .outside }

def step : Action ι → State ι → Option (State ι)
  | .call i mode, s =>
      match s.place i with
      | .outside => some { s with place := Function.update s.place i (.locking mode) }
      | _ => none
  | .locked i, s =>
      match s.place i with
      | .locking .read => if i ∈ s.cond.asleep then none else some (lockRead i s)
      | .locking .write => if i ∈ s.cond.asleep then none else some (lockWrite i s)
      | _ => none
  | .unlock i, s =>
      match s.place i with
      | .holding .read => some (unlockRead i s)
      | .holding .write => some (unlockWrite i s)
      | _ => none
  | .wake i, s => if i ∈ s.cond.asleep then some { s with cond := s.cond.wake i } else none

def init : State ι := {}

/-! ## Who holds the lock -/

/-- `H` are the threads that hold the lock in this mode. -/
def Holders (place : ι → Place) (mode : Mode) (H : Finset ι) : Prop :=
  ∀ i, i ∈ H ↔ place i = .holding mode

section
variable {place : ι → Place} {mode : Mode} {H : Finset ι} {i : ι}

theorem Holders.enter (h : Holders place mode H) :
    Holders (Function.update place i (.holding mode)) mode (insert i H) := by
  intro j
  rcases eq_or_ne j i with rfl | hne
  · rw [Function.update_self]
    exact iff_of_true (Finset.mem_insert_self j H) rfl
  · rw [Function.update_of_ne hne, Finset.mem_insert, or_iff_right hne]
    exact h j

theorem Holders.exit (h : Holders place mode H) {p : Place} (hp : p ≠ .holding mode) :
    Holders (Function.update place i p) mode (H.erase i) := by
  intro j
  rcases eq_or_ne j i with rfl | hne
  · rw [Function.update_self]
    exact iff_of_false (Finset.notMem_erase j H) hp
  · rw [Function.update_of_ne hne, Finset.mem_erase, and_iff_right hne]
    exact h j

theorem Holders.other (h : Holders place mode H) (hi : place i ≠ .holding mode) {p : Place}
    (hp : p ≠ .holding mode) : Holders (Function.update place i p) mode H := by
  have herase : H.erase i = H := Finset.erase_eq_of_notMem fun habs => hi ((h i).mp habs)
  rw [← herase]
  exact h.exit hp

end

/-! ## The invariant -/

/-- `R` hold the lock for reading, `W` for writing. -/
structure Inv (s : State ι) (R W : Finset ι) : Prop where
  readers : Holders s.place .read R
  writers : Holders s.place .write W
  count : s.readers = R.card
  flag : W.card = if s.writing then 1 else 0
  exclusive : s.writing = true → R = ∅
  waiting : ∀ i ∈ s.cond.waiters, ∃ mode, s.place i = .locking mode
  asleep : ∀ i ∈ s.cond.asleep, ∀ mode, s.place i = .locking mode → s.predicate mode = false

theorem init_inv : Inv (init : State ι) ∅ ∅ where
  readers := fun _ => iff_of_false (Finset.notMem_empty _) Place.noConfusion
  writers := fun _ => iff_of_false (Finset.notMem_empty _) Place.noConfusion
  count := rfl
  flag := rfl
  exclusive := fun _ => rfl
  waiting := fun _ hi => absurd hi (Finset.notMem_empty _)
  asleep := fun _ hi => absurd hi (Finset.notMem_empty _)

section
variable {s s' : State ι} {R W : Finset ι} {i : ι} {mode : Mode}

theorem Inv.not_writing (h : Inv s R W) (hi : s.place i = .holding .read) : s.writing = false := by
  cases hwriting : s.writing with
  | false => rfl
  | true =>
      have hmem : i ∈ R := (h.readers i).mpr hi
      rw [h.exclusive hwriting] at hmem
      exact absurd hmem (Finset.notMem_empty i)

/-- Where threads wait. -/
def IsLocking (p : Place) : Prop := ∃ mode, p = .locking mode

theorem Inv.not_waiting (h : Inv s R W) (hi : ∀ mode, s.place i ≠ .locking mode) :
    i ∉ s.cond.waiters :=
  CondVar.notMem_waiters (p := IsLocking) h.waiting fun ⟨mode, habs⟩ => hi mode habs

theorem Inv.call (h : Inv s R W) (hi : s.place i = .outside) :
    Inv { s with place := Function.update s.place i (.locking mode) } R W := by
  have hout : ∀ m, s.place i ≠ .holding m := by
    intro m habs
    cases hi.symm.trans habs
  have hfree : i ∉ s.cond.waiters := h.not_waiting fun m habs => by cases hi.symm.trans habs
  refine { h with
    readers := h.readers.other (hout .read) Place.noConfusion
    writers := h.writers.other (hout .write) Place.noConfusion
    waiting := CondVar.forall_waiters_update (p := IsLocking) h.waiting hfree _
    asleep := ?_ }
  intro j hj m hm
  have hne : j ≠ i := fun heq => hfree (heq ▸ Finset.mem_union_left _ hj)
  exact h.asleep j hj m ((Function.update_of_ne hne _ _).symm.trans hm)

theorem Inv.sleep (h : Inv s R W) (hi : s.place i = .locking mode) (hpred : ¬ s.predicate mode) :
    Inv { s with cond := s.cond.sleep i } R W where
  readers := h.readers
  writers := h.writers
  count := h.count
  flag := h.flag
  exclusive := h.exclusive
  waiting := by
    exact CondVar.forall_waiters_sleep (p := IsLocking) h.waiting ⟨mode, hi⟩
  asleep := by
    show ∀ j ∈ insert i s.cond.asleep, _
    rw [Finset.forall_mem_insert]
    refine ⟨?_, h.asleep⟩
    intro m hm
    obtain rfl : mode = m := Place.locking.inj (hi.symm.trans hm)
    exact Bool.eq_false_iff.mpr hpred

theorem Inv.lockRead (h : Inv s R W) (hi : s.place i = .locking .read)
    (hawake : i ∉ s.cond.asleep) : ∃ R', Inv (lockRead i s) R' W := by
  rw [ReaderWriterLock.lockRead]
  split
  next hpred =>
    have hwriting : s.writing = false := predicate_read.mp hpred
    have hnew : i ∉ R := by
      intro habs
      cases hi.symm.trans ((h.readers i).mp habs)
    have hcount : s.readers + 1 = (insert i R).card := by
      rw [h.count, Finset.card_insert_of_notMem hnew]
      exact (Nat.cast_succ R.card).symm
    refine ⟨insert i R, h.readers.enter, h.writers.other ?_ ?_, hcount, h.flag, ?_, ?_, ?_⟩
    · intro habs
      cases hi.symm.trans habs
    · intro habs
      cases habs
    · intro habs
      cases hwriting.symm.trans habs
    · exact CondVar.forall_waiters_leave (p := IsLocking) h.waiting hawake _
    · intro j hj m hm
      have hne : j ≠ i := fun heq => hawake (heq ▸ hj)
      have hbefore := h.asleep j hj m ((Function.update_of_ne hne _ _).symm.trans hm)
      cases m with
      | read => exact hbefore
      | write =>
          rw [Bool.eq_false_iff, Ne, predicate_write]
          rintro ⟨-, hzero⟩
          have hpos : 0 < (insert i R).card := Finset.card_pos.mpr (Finset.insert_nonempty i R)
          exact absurd (hcount.symm.trans hzero) (Nat.cast_ne_zero.mpr hpos.ne')
  next hpred => exact ⟨R, h.sleep hi hpred⟩

theorem Inv.lockWrite (h : Inv s R W) (hi : s.place i = .locking .write)
    (hawake : i ∉ s.cond.asleep) : ∃ W', Inv (lockWrite i s) R W' := by
  rw [ReaderWriterLock.lockWrite]
  split
  next hpred =>
    obtain ⟨hwriting, hzero⟩ := predicate_write.mp hpred
    have hR : R = ∅ := Finset.card_eq_zero.mp (Nat.cast_eq_zero.mp (h.count.symm.trans hzero))
    have hW : W = ∅ := by
      have hflag := h.flag
      rw [hwriting, if_neg Bool.false_ne_true] at hflag
      exact Finset.card_eq_zero.mp hflag
    refine ⟨insert i W, h.readers.other ?_ ?_, h.writers.enter, h.count, ?_, fun _ => hR, ?_, ?_⟩
    · intro habs
      cases hi.symm.trans habs
    · intro habs
      cases habs
    · rw [hW]
      rfl
    · exact CondVar.forall_waiters_leave (p := IsLocking) h.waiting hawake _
    · intro _ _ _ _
      exact predicate_of_writing rfl
  next hpred => exact ⟨W, h.sleep hi hpred⟩

/-- The last reader that leaves wakes everybody; before it leaves, a sleeping writer
has no reason to wake up. -/
theorem Inv.unlockRead (h : Inv s R W) (hi : s.place i = .holding .read) :
    ∃ R', Inv (unlockRead i s) R' W := by
  have hmem : i ∈ R := (h.readers i).mpr hi
  have hfree : i ∉ s.cond.waiters := h.not_waiting fun m habs => by cases hi.symm.trans habs
  have hwaiters : (ReaderWriterLock.unlockRead i s).cond.waiters = s.cond.waiters := by
    show CondVar.waiters (if _ then _ else _) = _
    split
    · exact CondVar.waiters_notifyAll
    · rfl
  have hcount : s.readers - 1 = (R.erase i).card := by
    rw [h.count, Finset.card_erase_of_mem hmem, Nat.cast_pred (Finset.card_pos.mpr ⟨i, hmem⟩)]
  refine ⟨R.erase i, h.readers.exit Place.noConfusion, h.writers.other ?_ Place.noConfusion,
    hcount, h.flag, ?_, ?_, ?_⟩
  · intro habs
    cases hi.symm.trans habs
  · intro habs
    cases (h.not_writing hi).symm.trans habs
  · rw [hwaiters]
    exact CondVar.forall_waiters_update (p := IsLocking) h.waiting hfree _
  · intro j hj m hm
    by_cases hlast : s.readers - 1 = 0
    · have hempty : (ReaderWriterLock.unlockRead i s).cond.asleep = ∅ := by
        show CondVar.asleep (if _ then _ else _) = ∅
        rw [if_pos hlast]
        rfl
      exact absurd (hempty ▸ hj) (Finset.notMem_empty j)
    · have hsame : (ReaderWriterLock.unlockRead i s).cond.asleep = s.cond.asleep := by
        show CondVar.asleep (if _ then _ else _) = _
        rw [if_neg hlast]
      rw [hsame] at hj
      have hne : j ≠ i := fun heq => hfree (heq ▸ Finset.mem_union_left _ hj)
      have hbefore := h.asleep j hj m ((Function.update_of_ne hne _ _).symm.trans hm)
      cases m with
      | read => exact hbefore
      | write =>
          rw [Bool.eq_false_iff, Ne, predicate_write]
          rintro ⟨-, hzero⟩
          exact hlast hzero

theorem Inv.unlockWrite (h : Inv s R W) (hi : s.place i = .holding .write) :
    ∃ W', Inv (unlockWrite i s) R W' := by
  have hmem : i ∈ W := (h.writers i).mpr hi
  have hfree : i ∉ s.cond.waiters := h.not_waiting fun m habs => by cases hi.symm.trans habs
  have hcard : W.card ≤ 1 := by
    rw [h.flag]
    split <;> decide
  refine ⟨W.erase i, h.readers.other ?_ Place.noConfusion, h.writers.exit Place.noConfusion,
    h.count, ?_, ?_, ?_, ?_⟩
  · intro habs
    cases hi.symm.trans habs
  · show (W.erase i).card = 0
    rw [Finset.card_erase_of_mem hmem]
    exact Nat.sub_eq_zero_of_le hcard
  · intro habs
    cases habs
  · show ∀ j ∈ s.cond.notifyAll.waiters, _
    rw [CondVar.waiters_notifyAll]
    exact CondVar.forall_waiters_update (p := IsLocking) h.waiting hfree _
  · intro j hj
    exact absurd hj (Finset.notMem_empty j)

/-- **Every step keeps the invariant.** -/
theorem Inv.step {a : Action ι} (h : Inv s R W) (hstep : step a s = some s') :
    ∃ R' W', Inv s' R' W' := by
  cases a with
  | call i mode =>
      simp only [ReaderWriterLock.step] at hstep
      split at hstep
      next hi =>
        cases hstep
        exact ⟨R, W, h.call hi⟩
      next => cases hstep
  | locked i =>
      simp only [ReaderWriterLock.step] at hstep
      split at hstep
      next hi =>
        obtain ⟨hawake, hs'⟩ := Option.ite_none_left_eq_some.mp hstep
        cases hs'
        obtain ⟨R', hR'⟩ := h.lockRead hi hawake
        exact ⟨R', W, hR'⟩
      next hi =>
        obtain ⟨hawake, hs'⟩ := Option.ite_none_left_eq_some.mp hstep
        cases hs'
        exact ⟨R, h.lockWrite hi hawake⟩
      next => cases hstep
  | unlock i =>
      simp only [ReaderWriterLock.step] at hstep
      split at hstep
      next hi =>
        cases hstep
        obtain ⟨R', hR'⟩ := h.unlockRead hi
        exact ⟨R', W, hR'⟩
      next hi =>
        cases hstep
        exact ⟨R, h.unlockWrite hi⟩
      next => cases hstep
  | wake i =>
      obtain ⟨-, hs'⟩ := Option.ite_none_right_eq_some.mp hstep
      cases hs'
      exact ⟨R, W, { h with
        waiting := fun j hj => h.waiting j (CondVar.waiters_wake hj)
        asleep := fun j hj => h.asleep j (Finset.mem_of_mem_erase hj) }⟩

theorem Inv.writing_iff (h : Inv s R W) : s.writing = true ↔ ∃ i, s.place i = .holding .write := by
  have hflag := h.flag
  cases hwriting : s.writing with
  | true =>
      rw [hwriting, if_pos rfl] at hflag
      obtain ⟨i, hi⟩ := Finset.card_pos.mp (Nat.lt_of_lt_of_eq Nat.zero_lt_one hflag.symm)
      exact iff_of_true rfl ⟨i, (h.writers i).mp hi⟩
  | false =>
      rw [hwriting, if_neg Bool.false_ne_true] at hflag
      refine iff_of_false Bool.false_ne_true ?_
      rintro ⟨i, hi⟩
      have hmem := (h.writers i).mpr hi
      rw [Finset.card_eq_zero.mp hflag] at hmem
      exact Finset.notMem_empty i hmem

end

/-- **Exclusion, honest counters, and no wake-up is lost**, for any threads and
along every interleaving. -/
theorem always_exclusive (as : List (Action ι)) :
    Always step init as fun s =>
      (∀ i j, s.place i = .holding .write → s.place j = .holding .write → i = j) ∧
      (∀ i j, s.place i = .holding .write → s.place j ≠ .holding .read) ∧
      Set.Finite {i | s.place i = .holding .read} ∧
      s.readers = Set.ncard {i | s.place i = .holding .read} ∧
      (s.writing = true ↔ ∃ i, s.place i = .holding .write) ∧
      (∀ i ∈ s.cond.asleep, ∃ mode, s.place i = .locking mode ∧ s.predicate mode = false) := by
  intro pre _
  obtain ⟨R, W, h⟩ : ∃ R W, Inv (schedule step pre (init : State ι)) R W := by
    refine schedule_rule (fun s => ∃ R W, Inv s R W) ⟨∅, ∅, init_inv⟩ ?_ pre
    rintro a s s' ⟨R, W, h⟩ hstep
    exact h.step hstep
  have hset : {i | (schedule step pre (init : State ι)).place i = .holding .read} = (R : Set ι) :=
    Set.ext fun i => (h.readers i).symm
  rw [hset, Set.ncard_coe_finset]
  refine ⟨?_, ?_, R.finite_toSet, h.count, h.writing_iff, ?_⟩
  · intro i j hi hj
    have hcard : W.card ≤ 1 := by
      rw [h.flag]
      split <;> decide
    exact Finset.card_le_one.mp hcard i ((h.writers i).mpr hi) j ((h.writers j).mpr hj)
  · intro i j hi hj
    cases (h.not_writing hj).symm.trans (h.writing_iff.mpr ⟨i, hi⟩)
  · intro i hi
    obtain ⟨mode, hmode⟩ := h.waiting i (Finset.mem_union_left _ hi)
    exact ⟨mode, hmode, h.asleep i hi mode hmode⟩

end LearnCpp.Concurrency.ReaderWriterLock
