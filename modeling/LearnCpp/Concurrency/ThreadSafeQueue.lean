/-
# `LearnCpp.Concurrency.ThreadSafeQueue` — the queue that tells its consumers when it is done

`topics/concurrency/thread_safe_queue.cpp`: any threads call `push`, `try_pop`
and `set_done`, and consumers loop on `wait_and_pop` until it returns false.  All
that a call does with the mutex held is one step, its notification included.

A push wakes one consumer, `set_done` wakes all of them, and `try_pop` and other
consumers may take an element before the one that was woken for it.  Still

    some consumer asleep   →   done_ is false  and  elements queued ≤ consumers notified

so nobody sleeps through an element or through the end.  A consumer stops when it
finds the queue empty and done; as long as nothing is pushed after `set_done`,
everything has been delivered by then.
-/
import LearnCpp.Lib.CondVar
import LearnCpp.Lib.Schedule
import Mathlib.Logic.Function.Basic

namespace LearnCpp.Concurrency.ThreadSafeQueue

open Lib

variable {ι T : Type} [DecidableEq ι]

/-- Where a consumer is. -/
inductive Place where
  | idle
  /-- in `wait_and_pop`, before the mutex or in `cond_.wait` -/
  | waiting
  /-- `wait_and_pop` returned false, and the consumer left its loop -/
  | finished
  deriving DecidableEq

/-- `pushed` and `popped` record the values in the order in which the mutex was held. -/
structure State (ι T : Type) where
  queue : List T := []
  cond : CondVar ι := .new
  done : Bool := false
  place : ι → Place := fun _ => .idle
  pushed : List T := []
  popped : List T := []

inductive Action (ι T : Type) where
  /-- `push`; its notification wakes `wakes`. -/
  | push (value : T) (wakes : Option ι)
  | tryPop (i : ι)
  | callWaitAndPop (i : ι)
  /-- `i` takes the mutex in `wait_and_pop` and looks at its predicate. -/
  | locked (i : ι)
  /-- A spurious wake-up. -/
  | wake (i : ι)
  | setDone
  deriving DecidableEq

/-- `wait_and_pop`, with the mutex held. -/
def waitAndPop (i : ι) (s : State ι T) : State ι T :=
  match s.queue with
  | value :: queue =>
      { s with
        queue := queue, cond := s.cond.leave i, place := Function.update s.place i .idle
        popped := s.popped ++ [value] }
  | [] =>
      if s.done then
        { s with cond := s.cond.leave i, place := Function.update s.place i .finished }
      else { s with cond := s.cond.sleep i }

/-- `try_pop`, which returns false and does nothing when the queue is empty. -/
def tryPop (s : State ι T) : State ι T :=
  match s.queue with
  | value :: queue => { s with queue := queue, popped := s.popped ++ [value] }
  | [] => s

def step : Action ι T → State ι T → Option (State ι T)
  | .push value wakes, s =>
      (s.cond.notifyOne wakes).map fun cond =>
        { s with queue := s.queue ++ [value], cond := cond, pushed := s.pushed ++ [value] }
  | .tryPop i, s => if s.place i = .waiting then none else some (tryPop s)
  | .callWaitAndPop i, s =>
      if s.place i = .idle then some { s with place := Function.update s.place i .waiting } else none
  | .locked i, s =>
      if s.place i = .waiting ∧ i ∉ s.cond.asleep then some (waitAndPop i s) else none
  | .wake i, s => if i ∈ s.cond.asleep then some { s with cond := s.cond.wake i } else none
  | .setDone, s => some { s with done := true, cond := s.cond.notifyAll }

def init : State ι T := {}

/-- The producers stop before `set_done` is called. -/
def StopsPushing : Action ι T → State ι T → Prop
  | .push _ _, s => s.done = false
  | _, _ => True

instance : ∀ (a : Action ι T) (s : State ι T), Decidable (StopsPushing a s)
  | .push _ _, s => inferInstanceAs (Decidable (s.done = false))
  | .tryPop _, _ | .callWaitAndPop _, _ | .locked _, _ | .wake _, _ | .setDone, _ =>
      inferInstanceAs (Decidable True)

/-! ## The invariant -/

structure Inv (s : State ι T) : Prop where
  fifo : s.pushed = s.popped ++ s.queue
  consumers : ∀ i ∈ s.cond.waiters, s.place i = .waiting
  queued : s.cond.Covered s.queue.length 0
  awake : s.done = true → s.cond.asleep = ∅
  drained : ∀ i, s.place i = .finished → s.done = true ∧ s.queue = []

theorem init_inv : Inv (init : State ι T) where
  fifo := rfl
  consumers := fun _ hi => absurd hi (Finset.notMem_empty _)
  queued := CondVar.covered_zero
  awake := fun _ => rfl
  drained := fun i hi => absurd hi (show Place.idle ≠ Place.finished by decide)

section
variable {s s' : State ι T} {i : ι}

theorem Inv.push (h : Inv s) (hdone : s.done = false) {value : T} {wakes : Option ι}
    (hstep : step (.push value wakes) s = some s') : Inv s' := by
  obtain ⟨cond, hnotify, rfl⟩ := Option.map_eq_some_iff.mp hstep
  refine ⟨?_, ?_, ?_, ?_, ?_⟩
  · show s.pushed ++ [value] = s.popped ++ (s.queue ++ [value])
    rw [h.fifo, List.append_assoc]
  · exact CondVar.forall_waiters_notifyOne (p := (· = Place.waiting)) h.consumers hnotify
  · show cond.Covered (s.queue ++ [value]).length 0
    rw [List.length_append]
    exact h.queued.post.notifyOne hnotify
  · intro habs
    cases hdone.symm.trans habs
  · intro i hi
    cases hdone.symm.trans (h.drained i hi).1

theorem Inv.tryPop (h : Inv s) : Inv (tryPop s) := by
  rw [ThreadSafeQueue.tryPop]
  split
  next value queue hqueue =>
    refine ⟨?_, h.consumers, ?_, h.awake, ?_⟩
    · show s.pushed = s.popped ++ [value] ++ queue
      rw [h.fifo, hqueue, List.append_assoc]
      rfl
    · have hqueued := h.queued
      rw [hqueue] at hqueued
      exact hqueued.mono (Nat.le_succ _)
    · intro i hi
      cases hqueue.symm.trans (h.drained i hi).2
  next => exact h

theorem Inv.call (h : Inv s) : Inv { s with place := Function.update s.place i .waiting } where
  fifo := h.fifo
  consumers := by
    intro j hj
    show Function.update s.place i .waiting j = .waiting
    rw [Function.update_apply]
    split
    · rfl
    · exact h.consumers j hj
  queued := h.queued
  awake := h.awake
  drained := by
    intro j hj
    rcases eq_or_ne j i with rfl | hne
    · cases (Function.update_self j Place.waiting s.place).symm.trans hj
    · exact h.drained j ((Function.update_of_ne hne _ _).symm.trans hj)

theorem Inv.consumers_leave (h : Inv s) (hawake : i ∉ s.cond.asleep) (place : Place) :
    ∀ j ∈ (s.cond.leave i).waiters, Function.update s.place i place j = .waiting :=
  CondVar.forall_waiters_leave (p := (· = Place.waiting)) h.consumers hawake place

/-- **What a consumer does with the mutex keeps the invariant**: it takes an element,
stops at the end, or goes to sleep when there is neither. -/
theorem Inv.waitAndPop (h : Inv s) (hi : s.place i = .waiting) (hawake : i ∉ s.cond.asleep) :
    Inv (waitAndPop i s) := by
  rw [ThreadSafeQueue.waitAndPop]
  split
  next value queue hqueue =>
    refine ⟨?_, h.consumers_leave hawake .idle, ?_, h.awake, ?_⟩
    · show s.pushed = s.popped ++ [value] ++ queue
      rw [h.fifo, hqueue, List.append_assoc]
      rfl
    · have hqueued := h.queued
      rw [hqueue] at hqueued
      exact hqueued.leave
    · intro j hj
      rcases eq_or_ne j i with rfl | hne
      · cases (Function.update_self j Place.idle s.place).symm.trans hj
      · cases hqueue.symm.trans (h.drained j ((Function.update_of_ne hne _ _).symm.trans hj)).2
  next hempty =>
    cases hdone : s.done with
    | true =>
        rw [if_pos rfl]
        refine ⟨h.fifo, h.consumers_leave hawake .finished, ?_, fun _ => h.awake hdone, ?_⟩
        · exact CondVar.covered_of_asleep_eq (h.awake hdone)
        · intro j _
          exact ⟨rfl, hempty⟩
    | false =>
        rw [if_neg Bool.false_ne_true]
        refine ⟨h.fifo, ?_, ?_, ?_, ?_⟩
        · exact CondVar.forall_waiters_sleep (p := (· = Place.waiting)) h.consumers hi
        · show (s.cond.sleep i).Covered s.queue.length 0
          rw [hempty]
          exact CondVar.covered_zero
        · intro habs
          cases habs
        · intro j hj
          cases hdone.symm.trans (h.drained j hj).1

/-- **Every step keeps the invariant**, as long as the producers stop in time. -/
theorem Inv.step {a : Action ι T} (h : Inv s) (hstep : step a s = some s')
    (hstop : StopsPushing a s) : Inv s' := by
  cases a with
  | push value wakes => exact h.push hstop hstep
  | tryPop i =>
      obtain ⟨-, hs'⟩ := Option.ite_none_left_eq_some.mp hstep
      cases hs'
      exact h.tryPop
  | callWaitAndPop i =>
      obtain ⟨-, hs'⟩ := Option.ite_none_right_eq_some.mp hstep
      cases hs'
      exact h.call
  | locked i =>
      obtain ⟨⟨hi, hawake⟩, hs'⟩ := Option.ite_none_right_eq_some.mp hstep
      cases hs'
      exact h.waitAndPop hi hawake
  | wake i =>
      obtain ⟨-, hs'⟩ := Option.ite_none_right_eq_some.mp hstep
      cases hs'
      exact { h with
        consumers := fun j hj => h.consumers j (CondVar.waiters_wake hj)
        queued := h.queued.wake
        awake := fun hdone => Finset.subset_empty.mp
          ((Finset.erase_subset i _).trans (h.awake hdone).subset) }
  | setDone =>
      cases hstep
      refine ⟨h.fifo, ?_, CondVar.covered_notifyAll, fun _ => rfl, ?_⟩
      · show ∀ j ∈ s.cond.notifyAll.waiters, _
        rw [CondVar.waiters_notifyAll]
        exact h.consumers
      · intro j hj
        exact ⟨rfl, (h.drained j hj).2⟩

theorem done_of_finished (hstep : step (.locked i) s = some s') (hfinished : s'.place i = .finished) :
    s.done = true ∧ s.queue = [] := by
  obtain ⟨⟨hi, -⟩, hs'⟩ := Option.ite_none_right_eq_some.mp hstep
  cases hs'
  rw [ThreadSafeQueue.waitAndPop] at hfinished
  split at hfinished
  next => cases (Function.update_self i Place.idle s.place).symm.trans hfinished
  next hempty =>
    cases hdone : s.done with
    | true => exact ⟨rfl, hempty⟩
    | false =>
        rw [hdone, if_neg Bool.false_ne_true] at hfinished
        cases hi.symm.trans hfinished

end

/-! ## What the calls have done -/

def pushedBy : Action ι T → State ι T → List T
  | .push value _, _ => [value]
  | _, _ => []

/-- The value that a call takes, the first of the queue if there is one. -/
def poppedBy : Action ι T → State ι T → List T
  | .tryPop _, s | .locked _, s => s.queue.head?.toList
  | _, _ => []

section
variable {s s' : State ι T} {i : ι}

omit [DecidableEq ι] in
theorem tryPop_records :
    (tryPop s).pushed = s.pushed ∧ (tryPop s).popped = s.popped ++ s.queue.head?.toList := by
  rw [tryPop]
  split
  next value queue hqueue =>
    rw [hqueue]
    exact ⟨rfl, rfl⟩
  next hempty =>
    rw [hempty]
    exact ⟨rfl, (List.append_nil _).symm⟩

theorem waitAndPop_records :
    (waitAndPop i s).pushed = s.pushed ∧
      (waitAndPop i s).popped = s.popped ++ s.queue.head?.toList := by
  rw [waitAndPop]
  split
  next value queue hqueue =>
    rw [hqueue]
    exact ⟨rfl, rfl⟩
  next hempty =>
    rw [hempty]
    split <;> exact ⟨rfl, (List.append_nil _).symm⟩

/-- What each step adds to the records. -/
theorem step_records {a : Action ι T} (hstep : step a s = some s') :
    s'.pushed = s.pushed ++ pushedBy a s ∧ s'.popped = s.popped ++ poppedBy a s := by
  cases a with
  | push value wakes =>
      obtain ⟨cond, -, rfl⟩ := Option.map_eq_some_iff.mp hstep
      exact ⟨rfl, (List.append_nil _).symm⟩
  | tryPop i =>
      obtain ⟨-, hs'⟩ := Option.ite_none_left_eq_some.mp hstep
      cases hs'
      obtain ⟨hpushed, hpopped⟩ := @tryPop_records ι T s
      exact ⟨hpushed.trans (List.append_nil _).symm, hpopped⟩
  | callWaitAndPop i | wake i =>
      obtain ⟨-, hs'⟩ := Option.ite_none_right_eq_some.mp hstep
      cases hs'
      exact ⟨(List.append_nil _).symm, (List.append_nil _).symm⟩
  | locked i =>
      obtain ⟨-, hs'⟩ := Option.ite_none_right_eq_some.mp hstep
      cases hs'
      obtain ⟨hpushed, hpopped⟩ := @waitAndPop_records ι T _ s i
      exact ⟨hpushed.trans (List.append_nil _).symm, hpopped⟩
  | setDone =>
      cases hstep
      exact ⟨(List.append_nil _).symm, (List.append_nil _).symm⟩

theorem push_isSome (value : T) : ∃ wakes, (step (.push value wakes) s).isSome := by
  obtain ⟨wakes, cond, hcond⟩ := s.cond.exists_notifyOne
  refine ⟨wakes, ?_⟩
  simp only [step, hcond]
  rfl

theorem locked_takes (hi : s.place i = .waiting) (hawake : i ∉ s.cond.asleep) :
    ∃ s', step (.locked i) s = some s' ∧ s'.popped = s.popped ++ s.queue.head?.toList ∧
      (s.queue = [] → s.done = true → s'.place i = .finished) := by
  refine ⟨waitAndPop i s, if_pos ⟨hi, hawake⟩, waitAndPop_records.2, ?_⟩
  intro hempty hdone
  rw [waitAndPop, hempty]
  simp only [if_pos hdone]
  exact Function.update_self ..

end

/-- **In order, to the end, and no wake-up is lost**: for any threads and along every
interleaving in which the producers stop before `set_done`.  The values pushed and popped are
those of the calls. -/
theorem always_delivered {as : List (Action ι T)} (hstop : EachStep step init as StopsPushing) :
    (Always step init as fun s =>
      s.popped <+: s.pushed ∧
      (∀ i s', step (.locked i) s = some s' → s'.place i = .finished →
        s.done = true ∧ s.queue = []) ∧
      (∀ i, s.place i = .finished → s.done = true ∧ s.queue = [] ∧ s.popped = s.pushed) ∧
      (∀ i ∈ s.cond.asleep, s.place i = .waiting ∧ s.done = false ∧
        s.queue.length ≤ s.cond.notified.card) ∧
      (∀ value, ∃ wakes, (step (.push value wakes) s).isSome) ∧
      ∀ i, s.place i = .waiting → i ∉ s.cond.asleep →
        ∃ s', step (.locked i) s = some s' ∧ s'.popped = s.popped ++ s.queue.head?.toList ∧
          (s.queue = [] → s.done = true → s'.place i = .finished)) ∧
    (schedule step as init).pushed = trace step pushedBy as init ∧
    (schedule step as init).popped = trace step poppedBy as init := by
  refine ⟨?_, ?_, ?_⟩
  · intro pre hpre
    have h : Inv (schedule step pre init) :=
      always_of_eachStep Inv init_inv (fun _ _ _ => Inv.step) hstop pre hpre
    refine ⟨⟨_, h.fifo.symm⟩, fun i s' => done_of_finished, ?_, ?_, push_isSome,
      fun i => locked_takes⟩
    · intro i hi
      obtain ⟨hdone, hempty⟩ := h.drained i hi
      have hfifo := h.fifo
      rw [hempty, List.append_nil] at hfifo
      exact ⟨hdone, hempty, hfifo.symm⟩
    · intro i hi
      refine ⟨h.consumers i (Finset.mem_union_left _ hi), ?_, h.queued ⟨i, hi⟩⟩
      cases hdone : (schedule step pre init : State ι T).done with
      | false => rfl
      | true => exact absurd (h.awake hdone ▸ hi) (Finset.notMem_empty i)
  · exact record_eq_trace (fun s : State ι T => s.pushed) pushedBy init rfl
      (fun _ _ _ hstep => (step_records hstep).1) as
  · exact record_eq_trace (fun s : State ι T => s.popped) poppedBy init rfl
      (fun _ _ _ hstep => (step_records hstep).2) as

/-- A consumer sleeps, is woken for an element that another one takes, sleeps again and stops. -/
def race : List (Action (Fin 2) ℕ) :=
  [.callWaitAndPop 0, .locked 0, .push 7 (some 0), .tryPop 1, .locked 0, .setDone, .locked 0]

theorem always_delivered_race :
    let s := schedule step race init
    s.place 0 = .finished ∧ s.popped = [7] ∧ s.popped = s.pushed ∧
      s.pushed = trace step pushedBy race init := by
  obtain ⟨halways, hpushed, -⟩ := @always_delivered (Fin 2) ℕ _ race (by decide)
  have hfinished : (schedule step race init).place 0 = .finished := by decide
  exact ⟨hfinished, by decide, ((halways race List.prefix_rfl).2.2.1 0 hfinished).2.2, hpushed⟩

end LearnCpp.Concurrency.ThreadSafeQueue
