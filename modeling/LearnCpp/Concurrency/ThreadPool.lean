/-
# `LearnCpp.Concurrency.ThreadPool` — workers, tasks, and a destructor that drains

`topics/concurrency/thread_pool.cpp`: any threads call `submit`, the workers take
tasks and run them outside of the mutex, and the destructor stops the workers and
joins them.  What a call or a worker does with the mutex held is one step.  Both
`submit` and the destructor notify after they have released the mutex, in a step
of its own; until then the notification is still to come.

A `submit` wakes one worker, or none when none is asleep.  No task is stranded,
since

    some worker asleep   →   tasks queued ≤ workers notified + submits yet to notify

and a worker exits only with the queue empty and the pool stopped, when no task
can come any more.

A task is known by its number in the order of the queue.
-/
import LearnCpp.Lib.CondVar
import LearnCpp.Lib.Schedule
import Mathlib.Data.List.Range

namespace LearnCpp.Concurrency.ThreadPool

open Lib

variable {workers : ℕ}

/-- Where a worker is. -/
inductive Worker where
  /-- at the top of its loop, before the mutex or in `cond_.wait` -/
  | waiting
  /-- `task()` -/
  | running (task : ℕ)
  | exited
  deriving DecidableEq

inductive Destructor where
  | notCalled
  /-- `stop_` is set, and `cond_.notify_all()` is to come -/
  | notifying
  /-- so many workers are joined -/
  | joining (joined : ℕ)
  deriving DecidableEq

/-- `notifying` are the tasks of the `submit` calls that have not yet executed
their `notify_one`, `returned` of those that have.  `submitted`, `taken` and
`executed` record how far the tasks have come. -/
structure State (workers : ℕ) where
  tasks : List ℕ := []
  cond : CondVar (Fin workers) := .new
  stop : Bool := false
  worker : Fin workers → Worker := fun _ => .waiting
  destructor : Destructor := .notCalled
  notifying : List ℕ := []
  returned : List ℕ := []
  submitted : ℕ := 0
  taken : List ℕ := []
  executed : List ℕ := []

inductive Action (workers : ℕ) where
  /-- `submit`, with the mutex held. -/
  | submit
  /-- `cond_.notify_one()` at the end of `submit`; it wakes `wakes`. -/
  | notify (task : ℕ) (wakes : Option (Fin workers))
  /-- A worker takes the mutex and looks at its predicate. -/
  | locked (i : Fin workers)
  /-- `task()` -/
  | execute (i : Fin workers)
  /-- A spurious wake-up. -/
  | wake (i : Fin workers)
  /-- `stop_ = true` in the destructor -/
  | stop
  /-- `cond_.notify_all()` in the destructor -/
  | notifyAll
  /-- `w.join()` for the next worker -/
  | join
  deriving DecidableEq

/-- `submit`, which throws and does nothing when the pool is stopped. -/
def submit (s : State workers) : State workers :=
  if s.stop then s
  else
    { s with
      tasks := s.tasks ++ [s.submitted], notifying := s.submitted :: s.notifying
      submitted := s.submitted + 1 }

/-- The worker's loop, with the mutex held. -/
def work (i : Fin workers) (s : State workers) : State workers :=
  match s.tasks with
  | task :: tasks =>
      { s with
        tasks := tasks, cond := s.cond.leave i
        worker := Function.update s.worker i (.running task), taken := s.taken ++ [task] }
  | [] =>
      if s.stop then
        { s with cond := s.cond.leave i, worker := Function.update s.worker i .exited }
      else { s with cond := s.cond.sleep i }

def step : Action workers → State workers → Option (State workers)
  | .submit, s => some (submit s)
  | .notify task wakes, s =>
      if task ∈ s.notifying then
        (s.cond.notifyOne wakes).map fun cond =>
          { s with
            cond := cond, notifying := s.notifying.erase task, returned := task :: s.returned }
      else none
  | .locked i, s =>
      if s.worker i = .waiting ∧ i ∉ s.cond.asleep then some (work i s) else none
  | .execute i, s =>
      match s.worker i with
      | .running task =>
          some { s with
            worker := Function.update s.worker i .waiting, executed := s.executed ++ [task] }
      | _ => none
  | .wake i, s => if i ∈ s.cond.asleep then some { s with cond := s.cond.wake i } else none
  | .stop, s =>
      match s.destructor with
      | .notCalled => some { s with stop := true, destructor := .notifying }
      | _ => none
  | .notifyAll, s =>
      match s.destructor with
      | .notifying => some { s with cond := s.cond.notifyAll, destructor := .joining 0 }
      | _ => none
  | .join, s =>
      match s.destructor with
      | .joining joined =>
          if h : joined < workers then
            if s.worker ⟨joined, h⟩ = .exited then some { s with destructor := .joining (joined + 1) }
            else none
          else none
      | _ => none

def init : State workers := {}

/-! ## The tasks that were taken -/

/-- Every task that was taken is running at one worker, or was executed once. -/
structure Ledger (taken executed : List ℕ) (worker : Fin workers → Worker) : Prop where
  taken_iff : ∀ task, task ∈ taken ↔ task ∈ executed ∨ ∃ i, worker i = .running task
  fresh : ∀ i task, worker i = .running task → task ∉ executed
  apart : ∀ i j task, worker i = .running task → worker j = .running task → i = j
  nodup : executed.Nodup

section
variable {taken executed : List ℕ} {worker : Fin workers → Worker} {i : Fin workers} {task : ℕ}

theorem running_update {p : Worker} {j : Fin workers} :
    Function.update worker i p j = .running task ↔
      (j = i ∧ p = .running task) ∨ (j ≠ i ∧ worker j = .running task) := by
  rcases eq_or_ne j i with rfl | hne
  · rw [Function.update_self, and_iff_right rfl, or_iff_left fun h => h.1 rfl]
  · rw [Function.update_of_ne hne, and_iff_right hne, or_iff_right fun h => hne h.1]

theorem Ledger.move (h : Ledger taken executed worker) (hi : ∀ task, worker i ≠ .running task)
    {p : Worker} (hp : ∀ task, p ≠ .running task) :
    Ledger taken executed (Function.update worker i p) := by
  have hsame : ∀ j t, Function.update worker i p j = .running t ↔ worker j = .running t := by
    intro j t
    rw [running_update, or_iff_right fun h => hp t h.2, and_iff_right_iff_imp]
    rintro hj rfl
    exact hi t hj
  refine ⟨?_, ?_, ?_, h.nodup⟩
  · intro t
    rw [h.taken_iff t]
    exact or_congr_right (exists_congr fun j => (hsame j t).symm)
  · intro j t hj
    exact h.fresh j t ((hsame j t).mp hj)
  · intro j k t hj hk
    exact h.apart j k t ((hsame j t).mp hj) ((hsame k t).mp hk)

theorem Ledger.take (h : Ledger taken executed worker) (hi : worker i = .waiting)
    (hnew : task ∉ taken) :
    Ledger (taken ++ [task]) executed (Function.update worker i (.running task)) := by
  have hidle : ∀ t, worker i ≠ .running t := by
    intro t habs
    cases hi.symm.trans habs
  refine ⟨?_, ?_, ?_, h.nodup⟩
  · intro t
    rw [List.mem_append, List.mem_singleton, h.taken_iff t]
    constructor
    · rintro ((hdone | ⟨j, hj⟩) | rfl)
      · exact .inl hdone
      · exact .inr ⟨j, running_update.mpr (.inr ⟨fun heq => hidle t (heq ▸ hj), hj⟩)⟩
      · exact .inr ⟨i, Function.update_self ..⟩
    · rintro (hdone | ⟨j, hj⟩)
      · exact .inl (.inl hdone)
      · rcases running_update.mp hj with ⟨-, hp⟩ | ⟨-, hj⟩
        · exact .inr (Worker.running.inj hp).symm
        · exact .inl (.inr ⟨j, hj⟩)
  · intro j t hj
    rcases running_update.mp hj with ⟨-, hp⟩ | ⟨-, hj⟩
    · obtain rfl := Worker.running.inj hp
      exact fun habs => hnew ((h.taken_iff _).mpr (.inl habs))
    · exact h.fresh j t hj
  · intro j k t hj hk
    rcases running_update.mp hj with ⟨rfl, hp⟩ | ⟨-, hj'⟩ <;>
      rcases running_update.mp hk with ⟨rfl, hq⟩ | ⟨-, hk'⟩
    · rfl
    · obtain rfl := Worker.running.inj hp
      exact absurd ((h.taken_iff _).mpr (.inr ⟨k, hk'⟩)) hnew
    · obtain rfl := Worker.running.inj hq
      exact absurd ((h.taken_iff _).mpr (.inr ⟨j, hj'⟩)) hnew
    · exact h.apart j k t hj' hk'

theorem Ledger.finish (h : Ledger taken executed worker) (hi : worker i = .running task) :
    Ledger taken (executed ++ [task]) (Function.update worker i .waiting) := by
  have hrunning : ∀ j t, Function.update worker i .waiting j = .running t →
      j ≠ i ∧ worker j = .running t := by
    intro j t hj
    rcases running_update.mp hj with ⟨-, habs⟩ | hother
    · cases habs
    · exact hother
  refine ⟨?_, ?_, ?_, ?_⟩
  · intro t
    rw [List.mem_append, List.mem_singleton, h.taken_iff t]
    constructor
    · rintro (hdone | ⟨j, hj⟩)
      · exact .inl (.inl hdone)
      · rcases eq_or_ne j i with rfl | hne
        · exact .inl (.inr (Worker.running.inj (hj.symm.trans hi)))
        · exact .inr ⟨j, running_update.mpr (.inr ⟨hne, hj⟩)⟩
    · rintro ((hdone | rfl) | ⟨j, hj⟩)
      · exact .inl hdone
      · exact .inr ⟨i, hi⟩
      · exact .inr ⟨j, (hrunning j t hj).2⟩
  · intro j t hj
    obtain ⟨hne, hj⟩ := hrunning j t hj
    rw [List.mem_append, List.mem_singleton]
    rintro (hdone | rfl)
    · exact h.fresh j t hj hdone
    · exact hne (h.apart j i t hj hi)
  · intro j k t hj hk
    exact h.apart j k t (hrunning j t hj).2 (hrunning k t hk).2
  · exact List.Nodup.append h.nodup (List.nodup_singleton task)
      (List.disjoint_singleton.mpr (h.fresh i task hi))

end

/-! ## The invariant -/

structure Inv (s : State workers) : Prop where
  order : s.taken ++ s.tasks = List.range s.submitted
  ledger : Ledger s.taken s.executed s.worker
  returned : ∀ task ∈ s.returned, task < s.submitted
  notifying : ∀ task ∈ s.notifying, task < s.submitted
  waiting : ∀ i ∈ s.cond.waiters, s.worker i = .waiting
  queued : s.cond.Covered s.tasks.length s.notifying.length
  running : s.destructor = .notCalled ↔ s.stop = false
  awake : ∀ joined, s.destructor = .joining joined → s.cond.asleep = ∅
  exited : ∀ i, s.worker i = .exited → s.stop = true ∧ s.tasks = []
  joined : ∀ joined, s.destructor = .joining joined →
    ∀ i : Fin workers, i.val < joined → s.worker i = .exited

theorem init_inv : Inv (init : State workers) where
  order := rfl
  ledger := {
    taken_iff := fun _ => iff_of_false List.not_mem_nil (by
      rintro (habs | ⟨_, habs⟩)
      · exact List.not_mem_nil habs
      · cases habs)
    fresh := fun _ _ _ => List.not_mem_nil
    apart := fun _ _ _ habs => by cases habs
    nodup := List.nodup_nil }
  returned := fun _ habs => absurd habs List.not_mem_nil
  notifying := fun _ habs => absurd habs List.not_mem_nil
  waiting := fun _ _ => rfl
  queued := CondVar.covered_zero
  running := iff_of_true rfl rfl
  awake := fun _ _ => rfl
  exited := fun _ habs => by cases habs
  joined := fun _ habs => by cases habs

section
variable {s s' : State workers} {i : Fin workers}

theorem Inv.submit (h : Inv s) : Inv (submit s) := by
  rw [ThreadPool.submit]
  split
  next => exact h
  next hstop =>
    refine { h with
      order := ?_, returned := ?_, notifying := ?_, queued := ?_, exited := ?_ }
    · show s.taken ++ (s.tasks ++ [s.submitted]) = List.range (s.submitted + 1)
      rw [List.range_succ, ← h.order, List.append_assoc]
    · exact fun task ht => Nat.lt_succ_of_lt (h.returned task ht)
    · show ∀ task ∈ s.submitted :: s.notifying, task < s.submitted + 1
      rw [List.forall_mem_cons]
      exact ⟨Nat.lt_succ_self _, fun task ht => Nat.lt_succ_of_lt (h.notifying task ht)⟩
    · show s.cond.Covered (s.tasks ++ [s.submitted]).length (s.notifying.length + 1)
      rw [List.length_append]
      exact h.queued.post
    · intro i hi
      exact absurd (h.exited i hi).1 hstop

theorem Inv.notify (h : Inv s) {task : ℕ} {wakes : Option (Fin workers)}
    (hstep : step (.notify task wakes) s = some s') : Inv s' := by
  obtain ⟨hmem, hmap⟩ := Option.ite_none_right_eq_some.mp hstep
  obtain ⟨cond, hnotify, rfl⟩ := Option.map_eq_some_iff.mp hmap
  have hlength : s.notifying.length = (s.notifying.erase task).length + 1 := by
    rw [List.length_erase_of_mem hmem]
    exact (Nat.succ_pred (List.length_pos_of_mem hmem).ne').symm
  refine { h with
    returned := ?_, notifying := ?_, waiting := ?_, queued := ?_, awake := ?_ }
  · show ∀ t ∈ task :: s.returned, t < s.submitted
    rw [List.forall_mem_cons]
    exact ⟨h.notifying task hmem, h.returned⟩
  · exact fun t ht => h.notifying t (List.mem_of_mem_erase ht)
  · exact CondVar.forall_waiters_notifyOne (p := (· = Worker.waiting)) h.waiting hnotify
  · have hqueued := h.queued
    rw [hlength] at hqueued
    exact hqueued.notifyOne hnotify
  · intro joined hjoined
    exact Finset.subset_empty.mp ((CondVar.asleep_notifyOne hnotify).trans
      (h.awake joined hjoined).subset)

theorem Inv.waiting_leave (h : Inv s) (hawake : i ∉ s.cond.asleep) (p : Worker) :
    ∀ j ∈ (s.cond.leave i).waiters, Function.update s.worker i p j = .waiting :=
  CondVar.forall_waiters_leave (p := (· = Worker.waiting)) h.waiting hawake p

theorem Inv.joined_update (h : Inv s) (hi : s.worker i ≠ .exited) (p : Worker) :
    ∀ joined, s.destructor = .joining joined →
      ∀ j : Fin workers, j.val < joined → Function.update s.worker i p j = .exited := by
  intro joined hjoining j hj
  have hexited := h.joined joined hjoining j hj
  have hne : j ≠ i := fun heq => hi (heq ▸ hexited)
  exact (Function.update_of_ne hne _ _).trans hexited

/-- **What a worker does with the mutex keeps the invariant**: it takes a task, exits
from a stopped pool that is drained, or goes to sleep when there is nothing to do. -/
theorem Inv.work (h : Inv s) (hi : s.worker i = .waiting) (hawake : i ∉ s.cond.asleep) :
    Inv (work i s) := by
  have hidle : ∀ task, s.worker i ≠ .running task := by
    intro task habs
    cases hi.symm.trans habs
  have hstays : s.worker i ≠ .exited := by
    intro habs
    cases hi.symm.trans habs
  rw [ThreadPool.work]
  split
  next task tasks htasks =>
    have horder := h.order
    rw [htasks] at horder
    have hnew : task ∉ s.taken := by
      intro habs
      have hnodup : (s.taken ++ task :: tasks).Nodup := by
        rw [horder]
        exact List.nodup_range
      exact List.disjoint_of_nodup_append hnodup habs List.mem_cons_self
    have hqueued := h.queued
    rw [htasks] at hqueued
    refine { h with
      order := ?_, ledger := h.ledger.take hi hnew, waiting := h.waiting_leave hawake _
      queued := hqueued.leave, exited := ?_, joined := h.joined_update hstays _ }
    · show s.taken ++ [task] ++ tasks = _
      rw [List.append_assoc]
      exact horder
    · intro j hj
      rcases eq_or_ne j i with rfl | hne
      · cases (Function.update_self j (Worker.running task) s.worker).symm.trans hj
      · cases htasks.symm.trans (h.exited j ((Function.update_of_ne hne _ _).symm.trans hj)).2
  next hempty =>
    split
    next hstop =>
      refine { h with
        ledger := h.ledger.move hidle fun _ => Worker.noConfusion
        waiting := h.waiting_leave hawake _, queued := ?_, exited := fun _ _ => ⟨hstop, hempty⟩
        joined := h.joined_update hstays _ }
      show (s.cond.leave i).Covered s.tasks.length _
      rw [hempty]
      exact CondVar.covered_zero
    next hstop =>
      have hcalled : s.destructor = .notCalled := h.running.mpr (Bool.eq_false_iff.mpr hstop)
      refine { h with waiting := ?_, queued := ?_, awake := ?_ }
      · exact CondVar.forall_waiters_sleep (p := (· = Worker.waiting)) h.waiting hi
      · show (s.cond.sleep i).Covered s.tasks.length _
        rw [hempty]
        exact CondVar.covered_zero
      · intro joined habs
        cases hcalled.symm.trans habs

theorem Inv.execute (h : Inv s) {task : ℕ} (hi : s.worker i = .running task) :
    Inv { s with
      worker := Function.update s.worker i .waiting, executed := s.executed ++ [task] } := by
  have hstays : s.worker i ≠ .exited := by
    intro habs
    cases hi.symm.trans habs
  have hbusy : i ∉ s.cond.waiters := CondVar.notMem_waiters (p := (· = Worker.waiting)) h.waiting fun habs => by
    cases hi.symm.trans habs
  refine { h with
    ledger := h.ledger.finish hi, waiting := ?_, exited := ?_, joined := h.joined_update hstays _ }
  · exact CondVar.forall_waiters_update (p := (· = Worker.waiting)) h.waiting hbusy .waiting
  · intro j hj
    rcases eq_or_ne j i with rfl | hne
    · cases (Function.update_self j Worker.waiting s.worker).symm.trans hj
    · exact h.exited j ((Function.update_of_ne hne _ _).symm.trans hj)

theorem Inv.wake (h : Inv s) : Inv { s with cond := s.cond.wake i } :=
  { h with
    waiting := fun j hj => h.waiting j (CondVar.waiters_wake hj)
    queued := h.queued.wake
    awake := fun joined hjoined => Finset.subset_empty.mp
      ((Finset.erase_subset i _).trans (h.awake joined hjoined).subset) }

theorem Inv.stop (h : Inv s) : Inv { s with stop := true, destructor := .notifying } :=
  { h with
    running := iff_of_false Destructor.noConfusion Bool.noConfusion
    awake := fun _ habs => by cases habs
    exited := fun i hi => ⟨rfl, (h.exited i hi).2⟩
    joined := fun _ habs => by cases habs }

theorem Inv.notifyAll (h : Inv s) (hdestructor : s.destructor = .notifying) :
    Inv { s with cond := s.cond.notifyAll, destructor := .joining 0 } := by
  have hstop : s.stop ≠ false := by
    intro habs
    cases hdestructor.symm.trans (h.running.mpr habs)
  refine { h with
    waiting := ?_, queued := CondVar.covered_notifyAll
    running := iff_of_false Destructor.noConfusion hstop
    awake := fun _ _ => rfl, joined := ?_ }
  · show ∀ j ∈ s.cond.notifyAll.waiters, _
    rw [CondVar.waiters_notifyAll]
    exact h.waiting
  · intro joined hjoined j hj
    cases hjoined
    exact absurd hj (Nat.not_lt_zero _)

theorem Inv.join (h : Inv s) {joined : ℕ} (hdestructor : s.destructor = .joining joined)
    (hlt : joined < workers) (hexited : s.worker ⟨joined, hlt⟩ = .exited) :
    Inv { s with destructor := .joining (joined + 1) } := by
  have hstop : s.stop ≠ false := by
    intro habs
    cases hdestructor.symm.trans (h.running.mpr habs)
  refine { h with
    running := iff_of_false Destructor.noConfusion hstop
    awake := fun _ _ => h.awake joined hdestructor, joined := ?_ }
  intro joined' hjoined' j hj
  cases hjoined'
  rcases Nat.lt_succ_iff_lt_or_eq.mp hj with hlt' | heq
  · exact h.joined joined hdestructor j hlt'
  · obtain rfl : j = ⟨joined, hlt⟩ := Fin.ext heq
    exact hexited

/-- **Every step keeps the invariant.** -/
theorem Inv.step {a : Action workers} (h : Inv s) (hstep : step a s = some s') : Inv s' := by
  cases a with
  | submit =>
      cases hstep
      exact h.submit
  | notify task wakes => exact h.notify hstep
  | locked i =>
      obtain ⟨⟨hi, hawake⟩, hs'⟩ := Option.ite_none_right_eq_some.mp hstep
      cases hs'
      exact h.work hi hawake
  | execute i =>
      simp only [ThreadPool.step] at hstep
      split at hstep
      next task hi =>
        cases hstep
        exact h.execute hi
      next => cases hstep
  | wake i =>
      obtain ⟨-, hs'⟩ := Option.ite_none_right_eq_some.mp hstep
      cases hs'
      exact h.wake
  | stop =>
      simp only [ThreadPool.step] at hstep
      split at hstep
      next =>
        cases hstep
        exact h.stop
      next => cases hstep
  | notifyAll =>
      simp only [ThreadPool.step] at hstep
      split at hstep
      next hdestructor =>
        cases hstep
        exact h.notifyAll hdestructor
      next => cases hstep
  | join =>
      simp only [ThreadPool.step] at hstep
      split at hstep
      next joined hdestructor =>
        obtain ⟨hlt, hstep⟩ := Option.dite_none_right_eq_some.mp hstep
        obtain ⟨hexited, hstep⟩ := Option.ite_none_right_eq_some.mp hstep
        cases hstep
        exact h.join hdestructor hlt hexited
      next => cases hstep

theorem Inv.executed_of_joined (h : Inv s) (hworkers : 0 < workers)
    (hjoined : s.destructor = .joining workers) {task : ℕ} (htask : task < s.submitted) :
    task ∈ s.executed := by
  have hexited : ∀ i, s.worker i = .exited := fun i => h.joined workers hjoined i i.isLt
  have hdrained : s.tasks = [] := (h.exited ⟨0, hworkers⟩ (hexited _)).2
  have htaken : task ∈ s.taken := by
    have horder := h.order
    rw [hdrained, List.append_nil] at horder
    rw [horder]
    exact List.mem_range.mpr htask
  rcases (h.ledger.taken_iff task).mp htaken with hdone | ⟨i, hi⟩
  · exact hdone
  · cases (hexited i).symm.trans hi

end

/-! ## What the calls have done -/

/-- The task that a call of `submit` queues; it throws when the pool is stopped. -/
def queuedBy : Action workers → State workers → List ℕ
  | .submit, s => if s.stop then [] else [s.submitted]
  | _, _ => []

/-- The task with which a call of `submit` returns. -/
def returnedBy : Action workers → State workers → List ℕ
  | .notify task _, _ => [task]
  | _, _ => []

def executedBy : Action workers → State workers → List ℕ
  | .execute i, s =>
      match s.worker i with
      | .running task => [task]
      | _ => []
  | _, _ => []

section
variable {s s' : State workers} {a : Action workers}

theorem work_records (i : Fin workers) :
    (work i s).submitted = s.submitted ∧ (work i s).returned = s.returned ∧
      (work i s).notifying = s.notifying ∧ (work i s).executed = s.executed := by
  unfold work
  split
  · exact ⟨rfl, rfl, rfl, rfl⟩
  · split <;> exact ⟨rfl, rfl, rfl, rfl⟩

/-- What each step adds to the records. -/
theorem step_records (hstep : step a s = some s') :
    List.range s'.submitted = List.range s.submitted ++ queuedBy a s ∧
      s'.returned.reverse = s.returned.reverse ++ returnedBy a s ∧
      s'.executed = s.executed ++ executedBy a s ∧
      (s'.returned ++ s'.notifying).Perm (s.returned ++ s.notifying ++ queuedBy a s) := by
  -- most steps leave all the records as they are
  have hsame : List.range s.submitted = List.range s.submitted ++ [] ∧
      s.returned.reverse = s.returned.reverse ++ [] ∧ s.executed = s.executed ++ [] ∧
      (s.returned ++ s.notifying).Perm (s.returned ++ s.notifying ++ []) :=
    ⟨(List.append_nil _).symm, (List.append_nil _).symm, (List.append_nil _).symm,
      List.Perm.of_eq (List.append_nil _).symm⟩
  cases a with
  | submit =>
      cases hstep
      rw [submit, queuedBy]
      split
      · exact hsame
      · refine ⟨List.range_succ, hsame.2.1, hsame.2.2.1, ?_⟩
        show (s.returned ++ s.submitted :: s.notifying).Perm _
        exact List.perm_middle.trans (List.perm_append_singleton _ _).symm
  | notify task wakes =>
      obtain ⟨hmem, hmap⟩ := Option.ite_none_right_eq_some.mp hstep
      obtain ⟨cond, -, rfl⟩ := Option.map_eq_some_iff.mp hmap
      refine ⟨hsame.1, List.reverse_cons, hsame.2.2.1, ?_⟩
      have hmoved : (s.returned ++ s.notifying).Perm
          (task :: (s.returned ++ s.notifying.erase task)) :=
        ((List.perm_cons_erase hmem).append_left _).trans List.perm_middle
      exact hmoved.symm.trans hsame.2.2.2
  | locked i =>
      obtain ⟨-, hs'⟩ := Option.ite_none_right_eq_some.mp hstep
      cases hs'
      obtain ⟨hsubmitted, hreturned, hnotifying, hexecuted⟩ := @work_records workers s i
      rw [hsubmitted, hreturned, hnotifying, hexecuted]
      exact hsame
  | execute i =>
      simp only [step] at hstep
      split at hstep
      · next task hi =>
          cases hstep
          refine ⟨hsame.1, hsame.2.1, ?_, hsame.2.2.2⟩
          simp only [executedBy, hi]
      · cases hstep
  | wake i =>
      obtain ⟨-, hs'⟩ := Option.ite_none_right_eq_some.mp hstep
      cases hs'
      exact hsame
  | stop | notifyAll =>
      simp only [step] at hstep
      split at hstep
      · cases hstep
        exact hsame
      · cases hstep
  | join =>
      simp only [step] at hstep
      split at hstep
      · obtain ⟨hlt, hstep⟩ := Option.dite_none_right_eq_some.mp hstep
        obtain ⟨-, hstep⟩ := Option.ite_none_right_eq_some.mp hstep
        cases hstep
        exact hsame
      · cases hstep

end

/-- The records are those of the calls: every task queued by `submit` is that of a call that
returned or is yet to notify, and what was executed are the tasks that workers ran. -/
structure Records (as : List (Action workers)) (s : State workers) : Prop where
  submitted : List.range s.submitted = trace step queuedBy as init
  returned : s.returned.reverse = trace step returnedBy as init
  perm : (s.returned ++ s.notifying).Perm (List.range s.submitted)
  executed : s.executed = trace step executedBy as init

theorem reachable_records (as : List (Action workers)) : Records as (schedule step as init) where
  submitted := record_eq_trace (fun s : State workers => List.range s.submitted) queuedBy init rfl
    (fun _ _ _ hstep => (step_records hstep).1) as
  returned := record_eq_trace (fun s : State workers => s.returned.reverse) returnedBy init rfl
    (fun _ _ _ hstep => (step_records hstep).2.1) as
  perm := schedule_rule
    (fun s : State workers => (s.returned ++ s.notifying).Perm (List.range s.submitted))
    (List.Perm.refl _)
    (fun _ _ _ hperm hstep => by
      obtain ⟨hrange, -, -, hmoved⟩ := step_records hstep
      rw [hrange]
      exact hmoved.trans (hperm.append_right _)) as
  executed := record_eq_trace (fun s : State workers => s.executed) executedBy init rfl
    (fun _ _ _ hstep => (step_records hstep).2.2.1) as

theorem notify_isSome (s : State workers) {task : ℕ} (hmem : task ∈ s.notifying) :
    ∃ wakes, (step (.notify task wakes) s).isSome := by
  obtain ⟨wakes, cond, hcond⟩ := s.cond.exists_notifyOne
  refine ⟨wakes, ?_⟩
  simp only [step, if_pos hmem, hcond]
  rfl

/-- **Every task that was submitted is executed once, and no wake-up is lost**, with at
least one worker and along every interleaving.  `submit` can be called at any time, and the
tasks are those of its calls. -/
theorem always_executed (hworkers : 0 < workers) (as : List (Action workers)) :
    (Always step init as fun s =>
      (∀ task, s.executed.count task ≤ 1) ∧
      (∀ task ∈ s.returned, task < s.submitted) ∧
      (s.destructor = .joining workers → ∀ task < s.submitted, s.executed.count task = 1) ∧
      (∀ i ∈ s.cond.asleep, s.worker i = .waiting ∧
        s.tasks.length ≤ s.cond.notified.card + s.notifying.length ∧
        (s.stop = true → s.destructor = .notifying)) ∧
      (step .submit s).isSome ∧
      ∀ task ∈ s.notifying, ∃ wakes, (step (.notify task wakes) s).isSome) ∧
    Records as (schedule step as init) := by
  refine ⟨?_, reachable_records as⟩
  intro pre _
  have h : Inv (schedule step pre (init : State workers)) :=
    schedule_rule Inv init_inv (fun _ _ _ => Inv.step) pre
  refine ⟨List.nodup_iff_count_le_one.mp h.ledger.nodup, h.returned, ?_, ?_, rfl,
    fun _ => notify_isSome _⟩
  · intro hjoined task htask
    exact List.count_eq_one_of_mem h.ledger.nodup (h.executed_of_joined hworkers hjoined htask)
  · intro i hi
    refine ⟨h.waiting i (Finset.mem_union_left _ hi), h.queued ⟨i, hi⟩, ?_⟩
    intro hstop
    cases hdestructor : (schedule step pre (init : State workers)).destructor with
    | notifying => rfl
    | notCalled => cases hstop.symm.trans (h.running.mp hdestructor)
    | joining joined => exact absurd (h.awake joined hdestructor ▸ hi) (Finset.notMem_empty i)

/-- One worker, which sleeps when the task comes. -/
def once : List (Action 1) :=
  [.locked 0, .submit, .notify 0 (some 0), .locked 0, .execute 0, .stop, .notifyAll, .locked 0, .join]

theorem always_executed_once :
    let s : State 1 := schedule step once init
    s.destructor = .joining 1 ∧ s.submitted = 1 ∧ s.returned = [0] ∧ s.executed.count 0 = 1 ∧
      Records once s := by
  obtain ⟨halways, hrecords⟩ := always_executed Nat.zero_lt_one once
  have hjoined : (schedule step once (init : State 1)).destructor = .joining 1 := by decide
  have hsubmitted : (schedule step once (init : State 1)).submitted = 1 := by decide
  refine ⟨hjoined, hsubmitted, by decide, ?_, hrecords⟩
  refine (halways once List.prefix_rfl).2.2.1 hjoined 0 ?_
  rw [hsubmitted]
  exact Nat.one_pos

end LearnCpp.Concurrency.ThreadPool
