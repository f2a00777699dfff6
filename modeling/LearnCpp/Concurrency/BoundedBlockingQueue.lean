/-
# `LearnCpp.Concurrency.BoundedBlockingQueue` — push blocks when full, pop when empty

`topics/concurrency/bounded_blocking_queue.cpp`: any threads call `push` and
`pop`.  Each call holds the mutex from the moment it has looked at its predicate
until it returns or goes to sleep, so what it does there is one step (`locked`).
A call that sleeps looks again when it was notified or woke up for no reason; in
between other threads may take the mutex first.

Pushes and pops wake one thread each, on two condition variables.  The places
that are free and the elements that are queued are the work of the two sides,

    some consumer asleep   →   elements queued ≤ consumers notified
    some producer asleep   →   places free ≤ producers notified

and every step keeps both, whoever gets the mutex.
-/
import LearnCpp.Lib.CondVar
import LearnCpp.Lib.Schedule
import Mathlib.Logic.Function.Basic

namespace LearnCpp.Concurrency.BoundedBlockingQueue

open Lib

variable {ι T : Type} [DecidableEq ι] {maxSize : ℕ}

/-- Where a thread is. -/
inductive Place (T : Type) where
  | idle
  /-- in `push(value)`, before the mutex or in `not_full_.wait` -/
  | pushing (value : T)
  /-- in `pop`, before the mutex or in `not_empty_.wait` -/
  | popping
  deriving DecidableEq

/-- `pushed` and `popped` record the values in the order in which the mutex was held. -/
structure State (ι T : Type) where
  queue : List T := []
  notFull : CondVar ι := .new
  notEmpty : CondVar ι := .new
  place : ι → Place T := fun _ => .idle
  pushed : List T := []
  popped : List T := []

inductive Action (ι T : Type) where
  | callPush (i : ι) (value : T)
  | callPop (i : ι)
  /-- `i` takes the mutex and looks at its predicate; a notification wakes `wakes`. -/
  | locked (i : ι) (wakes : Option ι)
  /-- A spurious wake-up. -/
  | wake (i : ι)
  deriving DecidableEq

/-- `push`, with the mutex held. -/
def push (maxSize : ℕ) (i : ι) (value : T) (wakes : Option ι) (s : State ι T) : Option (State ι T) :=
  if s.queue.length < maxSize then
    (s.notEmpty.notifyOne wakes).map fun notEmpty =>
      { s with
        queue := s.queue ++ [value], notFull := s.notFull.leave i, notEmpty := notEmpty
        place := Function.update s.place i .idle, pushed := s.pushed ++ [value] }
  else some { s with notFull := s.notFull.sleep i }

/-- `pop`, with the mutex held. -/
def pop (i : ι) (wakes : Option ι) (s : State ι T) : Option (State ι T) :=
  match s.queue with
  | value :: queue =>
      (s.notFull.notifyOne wakes).map fun notFull =>
        { s with
          queue := queue, notFull := notFull, notEmpty := s.notEmpty.leave i
          place := Function.update s.place i .idle, popped := s.popped ++ [value] }
  | [] => some { s with notEmpty := s.notEmpty.sleep i }

def step (maxSize : ℕ) : Action ι T → State ι T → Option (State ι T)
  | .callPush i value, s =>
      match s.place i with
      | .idle => some { s with place := Function.update s.place i (.pushing value) }
      | _ => none
  | .callPop i, s =>
      match s.place i with
      | .idle => some { s with place := Function.update s.place i .popping }
      | _ => none
  | .locked i wakes, s =>
      match s.place i with
      | .pushing value => if i ∈ s.notFull.asleep then none else push maxSize i value wakes s
      | .popping => if i ∈ s.notEmpty.asleep then none else pop i wakes s
      | .idle => none
  | .wake i, s =>
      if i ∈ s.notFull.asleep then some { s with notFull := s.notFull.wake i }
      else if i ∈ s.notEmpty.asleep then some { s with notEmpty := s.notEmpty.wake i }
      else none

def init : State ι T := {}

/-! ## The invariant -/

structure Inv (maxSize : ℕ) (s : State ι T) : Prop where
  fifo : s.pushed = s.popped ++ s.queue
  length : s.queue.length ≤ maxSize
  producers : ∀ i ∈ s.notFull.waiters, ∃ value, s.place i = .pushing value
  consumers : ∀ i ∈ s.notEmpty.waiters, s.place i = .popping
  free : s.notFull.Covered (maxSize - s.queue.length) 0
  queued : s.notEmpty.Covered s.queue.length 0

theorem init_inv : Inv maxSize (init : State ι T) where
  fifo := rfl
  length := Nat.zero_le _
  producers := fun _ hi => absurd hi (Finset.notMem_empty _)
  consumers := fun _ hi => absurd hi (Finset.notMem_empty _)
  free := CondVar.covered_of_asleep_eq rfl
  queued := CondVar.covered_zero

section
variable {s s' : State ι T} {i : ι} {value : T} {wakes : Option ι}

/-- Where producers wait. -/
def IsPushing (p : Place T) : Prop := ∃ value, p = .pushing value

theorem Inv.not_producer (h : Inv maxSize s) (hi : ∀ value, s.place i ≠ .pushing value) :
    i ∉ s.notFull.waiters :=
  CondVar.notMem_waiters (p := IsPushing) h.producers fun ⟨value, habs⟩ => hi value habs

theorem Inv.not_consumer (h : Inv maxSize s) (hi : s.place i ≠ .popping) : i ∉ s.notEmpty.waiters :=
  CondVar.notMem_waiters (p := (· = Place.popping)) h.consumers hi

theorem Inv.call (h : Inv maxSize s) (hi : s.place i = .idle) (place : Place T) :
    Inv maxSize { s with place := Function.update s.place i place } where
  fifo := h.fifo
  length := h.length
  producers := CondVar.forall_waiters_update (p := IsPushing) h.producers
    (h.not_producer fun _ habs => by cases hi.symm.trans habs) place
  consumers := CondVar.forall_waiters_update (p := (· = Place.popping)) h.consumers
    (h.not_consumer fun habs => by cases hi.symm.trans habs) place
  free := h.free
  queued := h.queued

theorem Inv.keep_call (h : Inv maxSize s) {place : Place T}
    (hstep : (match s.place i with
      | .idle => some { s with place := Function.update s.place i place }
      | _ => none) = some s') : Inv maxSize s' := by
  split at hstep
  next hi =>
    cases hstep
    exact h.call hi place
  next => cases hstep

theorem Inv.sleep_producer (h : Inv maxSize s) (hi : s.place i = .pushing value)
    (hfull : maxSize ≤ s.queue.length) : Inv maxSize { s with notFull := s.notFull.sleep i } where
  fifo := h.fifo
  length := h.length
  producers := by
    exact CondVar.forall_waiters_sleep (p := IsPushing) h.producers ⟨value, hi⟩
  consumers := h.consumers
  free := by
    rw [Nat.sub_eq_zero_of_le hfull]
    exact CondVar.covered_zero
  queued := h.queued

theorem Inv.sleep_consumer (h : Inv maxSize s) (hi : s.place i = .popping)
    (hempty : s.queue = []) : Inv maxSize { s with notEmpty := s.notEmpty.sleep i } where
  fifo := h.fifo
  length := h.length
  producers := h.producers
  consumers := by
    exact CondVar.forall_waiters_sleep (p := (· = Place.popping)) h.consumers hi
  free := h.free
  queued := by
    rw [hempty]
    exact CondVar.covered_zero

/-- What `push` adds is one element more for the consumers, and one place less for the producers. -/
theorem Inv.push (h : Inv maxSize s) (hi : s.place i = .pushing value) (hawake : i ∉ s.notFull.asleep)
    (hstep : push maxSize i value wakes s = some s') : Inv maxSize s' := by
  by_cases hroom : s.queue.length < maxSize
  · rw [BoundedBlockingQueue.push, if_pos hroom] at hstep
    obtain ⟨notEmpty, hnotify, rfl⟩ := Option.map_eq_some_iff.mp hstep
    have hfree : maxSize - s.queue.length = maxSize - (s.queue ++ [value]).length + 1 := by
      rw [List.length_append, List.length_singleton]
      omega
    have hfree' : i ∉ notEmpty.waiters := by
      rw [CondVar.waiters_notifyOne hnotify]
      refine h.not_consumer ?_
      intro habs
      cases hi.symm.trans habs
    refine ⟨?_, ?_, ?_, ?_, ?_, ?_⟩
    · show s.pushed ++ [value] = s.popped ++ (s.queue ++ [value])
      rw [h.fifo, List.append_assoc]
    · show (s.queue ++ [value]).length ≤ maxSize
      rw [List.length_append]
      exact hroom
    · exact CondVar.forall_waiters_leave (p := IsPushing) h.producers hawake .idle
    · have hconsumers := CondVar.forall_waiters_notifyOne (p := (· = Place.popping)) h.consumers hnotify
      exact CondVar.forall_waiters_update (p := (· = Place.popping)) hconsumers hfree' .idle
    · exact CondVar.Covered.leave (hfree ▸ h.free)
    · show notEmpty.Covered (s.queue ++ [value]).length 0
      rw [List.length_append]
      exact h.queued.post.notifyOne hnotify
  · rw [BoundedBlockingQueue.push, if_neg hroom] at hstep
    cases hstep
    exact h.sleep_producer hi (Nat.le_of_not_lt hroom)

theorem Inv.pop (h : Inv maxSize s) (hi : s.place i = .popping) (hawake : i ∉ s.notEmpty.asleep)
    (hstep : pop i wakes s = some s') : Inv maxSize s' := by
  rw [BoundedBlockingQueue.pop] at hstep
  split at hstep
  next value queue hqueue =>
      obtain ⟨notFull, hnotify, rfl⟩ := Option.map_eq_some_iff.mp hstep
      have hlength : queue.length + 1 ≤ maxSize := by
        have := h.length
        rwa [hqueue] at this
      have hfree : maxSize - queue.length = maxSize - s.queue.length + 1 := by
        rw [hqueue, List.length_cons]
        omega
      have hfree' : i ∉ notFull.waiters := by
        rw [CondVar.waiters_notifyOne hnotify]
        refine h.not_producer ?_
        intro v habs
        cases hi.symm.trans habs
      refine ⟨?_, Nat.le_of_succ_le hlength, ?_, ?_, ?_, ?_⟩
      · show s.pushed = s.popped ++ [value] ++ queue
        rw [h.fifo, hqueue, List.append_assoc]
        rfl
      · have hproducers := CondVar.forall_waiters_notifyOne (p := IsPushing) h.producers hnotify
        exact CondVar.forall_waiters_update (p := IsPushing) hproducers hfree' .idle
      · exact CondVar.forall_waiters_leave (p := (· = Place.popping)) h.consumers hawake .idle
      · show notFull.Covered (maxSize - queue.length) 0
        rw [hfree]
        exact h.free.post.notifyOne hnotify
      · have hqueued := h.queued
        rw [hqueue] at hqueued
        exact hqueued.leave
  next hqueue =>
      cases hstep
      exact h.sleep_consumer hi hqueue

/-- **Every step keeps the invariant**, whoever takes the mutex. -/
theorem Inv.step {a : Action ι T} (h : Inv maxSize s) (hstep : step maxSize a s = some s') :
    Inv maxSize s' := by
  cases a with
  | callPush i value => exact h.keep_call hstep
  | callPop i => exact h.keep_call hstep
  | locked i wakes =>
      cases hi : s.place i with
      | idle => simp only [BoundedBlockingQueue.step, hi, reduceCtorEq] at hstep
      | pushing value =>
          simp only [BoundedBlockingQueue.step, hi] at hstep
          obtain ⟨hawake, hpush⟩ := Option.ite_none_left_eq_some.mp hstep
          exact h.push hi hawake hpush
      | popping =>
          simp only [BoundedBlockingQueue.step, hi] at hstep
          obtain ⟨hawake, hpop⟩ := Option.ite_none_left_eq_some.mp hstep
          exact h.pop hi hawake hpop
  | wake i =>
      simp only [BoundedBlockingQueue.step] at hstep
      split at hstep
      · cases hstep
        exact { h with
          producers := fun j hj => h.producers j (CondVar.waiters_wake hj), free := h.free.wake }
      · obtain ⟨-, hstep⟩ := Option.ite_none_right_eq_some.mp hstep
        cases hstep
        exact { h with
          consumers := fun j hj => h.consumers j (CondVar.waiters_wake hj), queued := h.queued.wake }

end

end LearnCpp.Concurrency.BoundedBlockingQueue
