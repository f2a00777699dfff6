/-
# `LearnCpp.Concurrency.ThreadPoolFutures` — what `main` gets from its futures

`main` in `topics/concurrency/thread_pool.cpp`: it submits `n` tasks, asks the
futures for their values one after the other and prints them, and destroys the
pool.  The `i`th task returns `f i`; its value is in the future from when the task
has run, and until then `get` waits.

The pool is that of `ThreadPool`, and its invariant is kept since the steps here are
steps there.  Nobody gets stuck, as

    main waits for a task   →   the task is running at a worker, or queued
    a task is queued        →   some worker is awake

With a worker at least, `main` can always still return.
-/
import LearnCpp.Concurrency.ThreadPool
import LearnCpp.Lib.Effort
import LearnCpp.Lib.Progress

namespace LearnCpp.Concurrency.ThreadPoolFutures

open Lib

variable {workers : ℕ} {R : Type}

/-- The next thing `main` does. -/
inductive Main where
  /-- at the head of the first loop -/
  | submit (i : ℕ)
  /-- at the end of `submit` -/
  | notify (i : ℕ)
  /-- at the head of the second loop -/
  | get (i : ℕ)
  | stop
  | notifyAll
  | join
  | returned
  deriving DecidableEq, Repr

/-- `futures` are the values that the tasks have left, `printed` the lines of the second loop. -/
structure State (workers : ℕ) (R : Type) where
  pool : ThreadPool.State workers := {}
  main : Main := .submit 0
  futures : ℕ → Option R := fun _ => none
  printed : List (ℕ × R) := []

inductive Action (workers : ℕ) where
  /-- `wakes` is whom `notify_one` wakes, if that is what `main` does. -/
  | main (wakes : Option (Fin workers))
  | locked (i : Fin workers)
  | execute (i : Fin workers)
  | wake (i : Fin workers)
  deriving DecidableEq

/-- The steps of the program, without spurious wake-ups. -/
def NoWake : Action workers → Prop
  | .wake _ => False
  | _ => True

section
variable (n : ℕ) (f : ℕ → R)

def mainStep (wakes : Option (Fin workers)) (s : State workers R) : Option (State workers R) :=
  match s.main with
  | .submit i =>
      some (if i < n then { s with pool := ThreadPool.submit s.pool, main := .notify i }
        else { s with main := .get 0 })
  | .notify i =>
      (ThreadPool.step (.notify i wakes) s.pool).map fun pool =>
        { s with pool := pool, main := .submit (i + 1) }
  | .get i =>
      if i < n then
        (s.futures i).map fun value =>
          { s with main := .get (i + 1), printed := s.printed ++ [(i, value)] }
      else some { s with main := .stop }
  | .stop =>
      (ThreadPool.step .stop s.pool).map fun pool => { s with pool := pool, main := .notifyAll }
  | .notifyAll =>
      (ThreadPool.step .notifyAll s.pool).map fun pool => { s with pool := pool, main := .join }
  | .join =>
      if s.pool.destructor = .joining workers then some { s with main := .returned }
      else (ThreadPool.step .join s.pool).map fun pool => { s with pool := pool }
  | .returned => none

/-- `task()`, which leaves its value in the future. -/
def execute (i : Fin workers) (s : State workers R) : Option (State workers R) :=
  match s.pool.worker i with
  | .running task =>
      (ThreadPool.step (.execute i) s.pool).map fun pool =>
        { s with pool := pool, futures := Function.update s.futures task (some (f task)) }
  | _ => none

def next : Action workers → State workers R → Option (State workers R)
  | .main wakes, s => mainStep n wakes s
  | .locked i, s => (ThreadPool.step (.locked i) s.pool).map fun pool => { s with pool := pool }
  | .execute i, s => execute f i s
  | .wake i, s => (ThreadPool.step (.wake i) s.pool).map fun pool => { s with pool := pool }

end

def init : State workers R := {}

/-! ## How far `main` is -/

/-- The pool, as `main` has left it. -/
def Main.At (n : ℕ) (pool : ThreadPool.State workers) : Main → Prop
  | .submit i => i ≤ n ∧ pool.submitted = i ∧ pool.notifying = [] ∧ pool.destructor = .notCalled
  | .notify i => i < n ∧ pool.submitted = i + 1 ∧ pool.notifying = [i] ∧
      pool.destructor = .notCalled
  | .get i => i ≤ n ∧ pool.submitted = n ∧ pool.notifying = [] ∧ pool.destructor = .notCalled
  | .stop => pool.submitted = n ∧ pool.notifying = [] ∧ pool.destructor = .notCalled
  | .notifyAll => pool.submitted = n ∧ pool.notifying = [] ∧ pool.destructor = .notifying
  | .join => pool.submitted = n ∧ pool.notifying = [] ∧
      ∃ joined, joined ≤ workers ∧ pool.destructor = .joining joined
  | .returned => pool.submitted = n ∧ pool.notifying = [] ∧ pool.destructor = .joining workers

/-- How many values `main` has asked for. -/
def Main.asked (n : ℕ) : Main → ℕ
  | .submit _ | .notify _ => 0
  | .get i => i
  | .stop | .notifyAll | .join | .returned => n

/-- The lines for the first `k` tasks. -/
def results (f : ℕ → R) (k : ℕ) : List (ℕ × R) := (List.range k).map fun i => (i, f i)

structure Inv (n : ℕ) (f : ℕ → R) (s : State workers R) : Prop where
  pool : ThreadPool.Inv s.pool
  main_at : s.main.At n s.pool
  futures : ∀ task, s.futures task = if task ∈ s.pool.executed then some (f task) else none
  printed : s.printed = results f (s.main.asked n)

theorem init_inv (n : ℕ) (f : ℕ → R) : Inv n f (init : State workers R) where
  pool := ThreadPool.init_inv
  main_at := ⟨Nat.zero_le n, rfl, rfl, rfl⟩
  futures _ := (if_neg List.not_mem_nil).symm
  printed := rfl

theorem Main.At.congr {n : ℕ} {pool pool' : ThreadPool.State workers} {p : Main} (h : p.At n pool)
    (hsubmitted : pool'.submitted = pool.submitted) (hnotifying : pool'.notifying = pool.notifying)
    (hdestructor : pool'.destructor = pool.destructor) : p.At n pool' := by
  cases p <;> simp only [Main.At, hsubmitted, hnotifying, hdestructor] at h ⊢ <;> exact h

theorem work_frame (i : Fin workers) (pool : ThreadPool.State workers) :
    (ThreadPool.work i pool).submitted = pool.submitted ∧
      (ThreadPool.work i pool).notifying = pool.notifying ∧
      (ThreadPool.work i pool).destructor = pool.destructor ∧
      (ThreadPool.work i pool).executed = pool.executed := by
  unfold ThreadPool.work
  split
  · exact ⟨rfl, rfl, rfl, rfl⟩
  · split <;> exact ⟨rfl, rfl, rfl, rfl⟩

namespace Inv

variable {n : ℕ} {f : ℕ → R} {s s' : State workers R}

theorem main {wakes : Option (Fin workers)} (h : Inv n f s) (hstep : mainStep n wakes s = some s') :
    Inv n f s' := by
  obtain ⟨hpool, hat, hfutures, hprinted⟩ := h
  obtain ⟨pool, p, futures, printed⟩ := s
  simp only at hpool hat hfutures hprinted
  cases p with
  | submit i =>
      obtain ⟨hle, hsubmitted, hnotifying, hdestructor⟩ := hat
      have hstop : ¬ pool.stop = true := Bool.eq_false_iff.mp (hpool.running.mp hdestructor)
      cases hstep
      split
      · next hlt =>
          refine ⟨hpool.submit, ?_, ?_, hprinted⟩
          · simp only [Main.At, ThreadPool.submit, if_neg hstop, hsubmitted, hnotifying]
            exact ⟨hlt, trivial, trivial, hdestructor⟩
          · simp only [ThreadPool.submit, if_neg hstop]
            exact hfutures
      · next hge =>
          obtain rfl : i = n := Nat.le_antisymm hle (Nat.le_of_not_lt hge)
          exact ⟨hpool, ⟨Nat.zero_le _, hsubmitted, hnotifying, hdestructor⟩, hfutures, hprinted⟩
  | notify i =>
      obtain ⟨hlt, hsubmitted, hnotifying, hdestructor⟩ := hat
      obtain ⟨pool', hpool', rfl⟩ := Option.map_eq_some_iff.mp hstep
      have hinv := hpool.step hpool'
      obtain ⟨hmem, hmap⟩ := Option.ite_none_right_eq_some.mp hpool'
      obtain ⟨cond, -, rfl⟩ := Option.map_eq_some_iff.mp hmap
      refine ⟨hinv, ⟨hlt, hsubmitted, ?_, hdestructor⟩, hfutures, hprinted⟩
      simp [hnotifying]
  | get i =>
      obtain ⟨hle, hsubmitted, hnotifying, hdestructor⟩ := hat
      simp only [mainStep] at hstep
      split at hstep
      · next hlt =>
          obtain ⟨value, hvalue, rfl⟩ := Option.map_eq_some_iff.mp hstep
          -- the value is that of the task
          have hvalue' : value = f i := by
            rw [hfutures i] at hvalue
            split at hvalue
            · exact (Option.some_inj.mp hvalue).symm
            · cases hvalue
          refine ⟨hpool, ⟨hlt, hsubmitted, hnotifying, hdestructor⟩, hfutures, ?_⟩
          rw [hprinted, hvalue']
          simp [results, Main.asked, List.range_succ]
      · next hge =>
          obtain rfl : i = n := Nat.le_antisymm hle (Nat.le_of_not_lt hge)
          cases hstep
          exact ⟨hpool, ⟨hsubmitted, hnotifying, hdestructor⟩, hfutures, hprinted⟩
  | stop =>
      obtain ⟨hsubmitted, hnotifying, hdestructor⟩ := hat
      obtain ⟨pool', hpool', rfl⟩ := Option.map_eq_some_iff.mp hstep
      have hinv := hpool.step hpool'
      simp only [ThreadPool.step, hdestructor] at hpool'
      cases hpool'
      exact ⟨hinv, ⟨hsubmitted, hnotifying, rfl⟩, hfutures, hprinted⟩
  | notifyAll =>
      obtain ⟨hsubmitted, hnotifying, hdestructor⟩ := hat
      obtain ⟨pool', hpool', rfl⟩ := Option.map_eq_some_iff.mp hstep
      have hinv := hpool.step hpool'
      simp only [ThreadPool.step, hdestructor] at hpool'
      cases hpool'
      exact ⟨hinv, ⟨hsubmitted, hnotifying, 0, Nat.zero_le _, rfl⟩, hfutures, hprinted⟩
  | join =>
      obtain ⟨hsubmitted, hnotifying, joined, hle, hdestructor⟩ := hat
      simp only [mainStep] at hstep
      split at hstep
      · next hall =>
          cases hstep
          exact ⟨hpool, ⟨hsubmitted, hnotifying, hall⟩, hfutures, hprinted⟩
      · obtain ⟨pool', hpool', rfl⟩ := Option.map_eq_some_iff.mp hstep
        have hinv := hpool.step hpool'
        simp only [ThreadPool.step, hdestructor] at hpool'
        obtain ⟨hlt, hpool'⟩ := Option.dite_none_right_eq_some.mp hpool'
        obtain ⟨-, hpool'⟩ := Option.ite_none_right_eq_some.mp hpool'
        cases hpool'
        exact ⟨hinv, ⟨hsubmitted, hnotifying, joined + 1, hlt, rfl⟩, hfutures, hprinted⟩
  | returned => cases hstep

theorem execute {i : Fin workers} (h : Inv n f s) (hstep : execute f i s = some s') :
    Inv n f s' := by
  obtain ⟨hpool, hat, hfutures, hprinted⟩ := h
  unfold ThreadPoolFutures.execute at hstep
  split at hstep
  · next task hi =>
      obtain ⟨pool', hpool', rfl⟩ := Option.map_eq_some_iff.mp hstep
      have hinv := hpool.step hpool'
      simp only [ThreadPool.step, hi] at hpool'
      cases hpool'
      refine ⟨hinv, hat.congr rfl rfl rfl, ?_, hprinted⟩
      intro t
      simp only [List.mem_append, List.mem_singleton]
      by_cases heq : t = task
      · rw [heq, Function.update_self, if_pos (.inr rfl)]
      · rw [Function.update_of_ne heq, hfutures t]
        simp only [heq, or_false]
  · cases hstep

theorem step {a : Action workers} (h : Inv n f s) (hnext : next n f a s = some s') :
    Inv n f s' := by
  cases a with
  | main wakes => exact h.main hnext
  | locked i =>
      obtain ⟨pool', hpool', rfl⟩ := Option.map_eq_some_iff.mp hnext
      have hinv := h.pool.step hpool'
      obtain ⟨-, hpool'⟩ := Option.ite_none_right_eq_some.mp hpool'
      cases hpool'
      obtain ⟨hsubmitted, hnotifying, hdestructor, hexecuted⟩ := work_frame i s.pool
      exact ⟨hinv, h.main_at.congr hsubmitted hnotifying hdestructor,
        fun t => by rw [hexecuted]; exact h.futures t, h.printed⟩
  | execute i => exact h.execute hnext
  | wake i =>
      obtain ⟨pool', hpool', rfl⟩ := Option.map_eq_some_iff.mp hnext
      have hinv := h.pool.step hpool'
      obtain ⟨-, hpool'⟩ := Option.ite_none_right_eq_some.mp hpool'
      cases hpool'
      exact ⟨hinv, h.main_at.congr rfl rfl rfl, h.futures, h.printed⟩

end Inv

theorem reachable_inv (n : ℕ) (f : ℕ → R) (as : List (Action workers)) :
    Inv n f (schedule (next n f) as init) :=
  schedule_rule (Inv n f) (init_inv n f) (fun _ _ _ => Inv.step) as

theorem Main.At.asked_le {n : ℕ} {pool : ThreadPool.State workers} {p : Main} (h : p.At n pool) :
    p.asked n ≤ n := by
  cases p with
  | submit | notify => exact Nat.zero_le n
  | get => exact h.1
  | _ => exact Nat.le_refl n

theorem Inv.executed_perm {n : ℕ} {f : ℕ → R} {s : State workers R} (h : Inv n f s)
    (hreturned : s.main = .returned) (hworkers : 0 < workers) :
    s.pool.executed.Perm (List.range n) := by
  have hat := h.main_at
  rw [hreturned] at hat
  obtain ⟨hsubmitted, -, hjoined⟩ := hat
  refine (List.perm_ext_iff_of_nodup h.pool.ledger.nodup List.nodup_range).mpr fun task => ?_
  rw [List.mem_range, ← hsubmitted]
  constructor
  · intro hdone
    have htaken : task ∈ s.pool.taken ++ s.pool.tasks :=
      List.mem_append_left _ ((h.pool.ledger.taken_iff task).mpr (.inl hdone))
    rw [h.pool.order] at htaken
    exact List.mem_range.mp htaken
  · exact h.pool.executed_of_joined hworkers hjoined

theorem results_prefix (f : ℕ → R) {k n : ℕ} (hle : k ≤ n) : results f k <+: results f n := by
  obtain ⟨d, rfl⟩ := Nat.exists_eq_add_of_le hle
  rw [results, results, List.range_add, List.map_append]
  exact List.prefix_append ..

/-- **What is printed.**  The lines are those of the first tasks, in the order of their submission,
each with what its task returned.  When `main` returns they are all there, each task was executed
once, and no worker is left. -/
theorem prints_results (n : ℕ) (f : ℕ → R) (hworkers : 0 < workers) (as : List (Action workers)) :
    let s := schedule (next n f) as init
    s.printed <+: results f n ∧
      (s.main = .returned → s.printed = results f n ∧ s.pool.executed.Perm (List.range n) ∧
        ∀ i, s.pool.worker i = .exited) := by
  intro s
  have h : Inv n f s := reachable_inv n f as
  constructor
  · rw [h.printed]
    exact results_prefix f h.main_at.asked_le
  · intro hreturned
    have hat := h.main_at
    rw [hreturned] at hat
    refine ⟨?_, h.executed_perm hreturned hworkers, fun i => ?_⟩
    · rw [h.printed, hreturned]
      rfl
    · exact h.pool.joined workers hat.2.2 i i.isLt

/-- One worker and one task, which returns 7. -/
theorem prints_results_one :
    (schedule (next 1 fun _ => 7) [.main none, .main none, .main none, .locked 0, .execute 0,
      .main none, .main none, .main none, .main none, .locked 0, .main none, .main none]
      (init : State 1 ℕ)).printed = [(0, 7)] := by
  have hreturned : (schedule (next 1 fun _ => 7) [.main none, .main none, .main none, .locked 0,
      .execute 0, .main none, .main none, .main none, .main none, .locked 0, .main none, .main none]
      (init : State 1 ℕ)).main = .returned := by decide
  exact ((prints_results 1 (fun _ => 7) Nat.one_pos _).2 hreturned).1

/-! ## Nobody gets stuck -/

/-- What a worker still does where it is, without another task. -/
def cost : ThreadPool.Worker → ℕ
  | .running _ => 2
  | .waiting => 1
  | .exited => 0

def poolLeft (pool : ThreadPool.State workers) : ℕ :=
  2 * pool.tasks.length + effort cost pool.worker + pool.cond.awake

/-- Steps that are left to `main`, and what they may add for the workers. -/
def mainLeft (n : ℕ) (s : State workers R) : ℕ :=
  match s.main with
  | .submit i => 5 * (n - i) + n + 2 * workers + 6
  | .notify i => 5 * (n - (i + 1)) + n + 2 * workers + 8
  | .get i => n - i + 2 * workers + 5
  | .stop => 2 * workers + 4
  | .notifyAll => 2 * workers + 3
  | .join =>
      match s.pool.destructor with
      | .joining joined => workers - joined + 1
      | _ => 0
  | .returned => 0

def left (n : ℕ) (s : State workers R) : ℕ := mainLeft n s + poolLeft s.pool

section
variable {pool pool' : ThreadPool.State workers} {i : Fin workers}

theorem locked_left (hi : pool.worker i = .waiting) (hawake : i ∉ pool.cond.asleep) :
    poolLeft (ThreadPool.work i pool) < poolLeft pool := by
  have hmove := effort_update cost pool.worker i
  rw [hi] at hmove
  unfold ThreadPool.work
  split
  · next task tasks htasks =>
      have hlength : pool.tasks.length = tasks.length + 1 := congrArg List.length htasks
      have htake := hmove (.running task)
      simp only [poolLeft, CondVar.awake_leave, cost] at htake ⊢
      omega
  · split
    · have hexit := hmove .exited
      simp only [poolLeft, CondVar.awake_leave, cost] at hexit ⊢
      omega
    · have hsleep := CondVar.awake_sleep hawake
      simp only [poolLeft]
      omega

theorem execute_left {task : ℕ} (hi : pool.worker i = .running task)
    (hstep : ThreadPool.step (.execute i) pool = some pool') : poolLeft pool' < poolLeft pool := by
  have hmove := effort_update cost pool.worker i .waiting
  simp only [ThreadPool.step, hi] at hstep
  cases hstep
  simp only [hi, cost] at hmove
  simp only [poolLeft]
  omega

/-- Waking up costs a worker one more step. -/
theorem notify_left {task : ℕ} {wakes : Option (Fin workers)}
    (hstep : ThreadPool.step (.notify task wakes) pool = some pool') :
    poolLeft pool' ≤ poolLeft pool + 1 := by
  obtain ⟨-, hmap⟩ := Option.ite_none_right_eq_some.mp hstep
  obtain ⟨cond, hnotify, rfl⟩ := Option.map_eq_some_iff.mp hmap
  exact Nat.add_le_add_left (CondVar.awake_notifyOne hnotify) _

theorem notifyAll_left (hstep : ThreadPool.step .notifyAll pool = some pool') :
    poolLeft pool' ≤ poolLeft pool + workers := by
  simp only [ThreadPool.step] at hstep
  split at hstep <;> cases hstep
  have hawake := pool.cond.awake_notifyAll
  rw [Fintype.card_fin] at hawake
  simp only [poolLeft]
  omega

theorem submit_left (hstop : ¬ pool.stop = true) :
    poolLeft (ThreadPool.submit pool) = poolLeft pool + 2 := by
  rw [ThreadPool.submit, if_neg hstop]
  simp only [poolLeft, List.length_append, List.length_singleton]
  omega

end

namespace Inv

variable {n : ℕ} {f : ℕ → R} {s s' : State workers R} {i : Fin workers}

/-- Each step of `main` pays for what it makes the workers do. -/
theorem main_left {wakes : Option (Fin workers)} (h : Inv n f s)
    (hstep : mainStep n wakes s = some s') : left n s' < left n s := by
  obtain ⟨hpool, hat, -, -⟩ := h
  obtain ⟨pool, p, futures, printed⟩ := s
  simp only at hpool hat
  cases p with
  | submit i =>
      obtain ⟨hle, -, -, hdestructor⟩ := hat
      have hstop : ¬ pool.stop = true := Bool.eq_false_iff.mp (hpool.running.mp hdestructor)
      have hleft := submit_left hstop
      cases hstep
      split
      · simp only [left, mainLeft]
        omega
      · simp only [left, mainLeft]
        omega
  | notify i =>
      obtain ⟨pool', hpool', rfl⟩ := Option.map_eq_some_iff.mp hstep
      have hleft : poolLeft pool' ≤ poolLeft pool + 1 := notify_left hpool'
      simp only [left, mainLeft]
      omega
  | get i =>
      simp only [mainStep] at hstep
      split at hstep
      · obtain ⟨value, -, rfl⟩ := Option.map_eq_some_iff.mp hstep
        simp only [left, mainLeft]
        omega
      · cases hstep
        simp only [left, mainLeft]
        omega
  | stop =>
      obtain ⟨pool', hpool', rfl⟩ := Option.map_eq_some_iff.mp hstep
      simp only [ThreadPool.step, hat.2.2] at hpool'
      cases hpool'
      exact Nat.add_lt_add_right (Nat.lt_succ_self _) _
  | notifyAll =>
      obtain ⟨pool', hpool', rfl⟩ := Option.map_eq_some_iff.mp hstep
      have hleft : poolLeft pool' ≤ poolLeft pool + workers := notifyAll_left hpool'
      simp only [ThreadPool.step, hat.2.2] at hpool'
      cases hpool'
      simp only [left, mainLeft]
      omega
  | join =>
      obtain ⟨-, -, joined, -, hdestructor⟩ := hat
      simp only [mainStep] at hstep
      split at hstep
      · cases hstep
        simp only [left, mainLeft, hdestructor]
        omega
      · obtain ⟨pool', hpool', rfl⟩ := Option.map_eq_some_iff.mp hstep
        simp only [ThreadPool.step, hdestructor] at hpool'
        obtain ⟨hlt, hpool'⟩ := Option.dite_none_right_eq_some.mp hpool'
        obtain ⟨-, hpool'⟩ := Option.ite_none_right_eq_some.mp hpool'
        cases hpool'
        refine Nat.add_lt_add_right ?_ _
        simp only [mainLeft, hdestructor]
        omega
  | returned => cases hstep

theorem worker_nearer (h : Inv n f s) (hi : s.pool.worker i ≠ .exited)
    (hawake : i ∉ s.pool.cond.asleep) :
    ∃ a s', NoWake a ∧ next n f a s = some s' ∧ Inv n f s' ∧ left n s' < left n s := by
  cases hworker : s.pool.worker i with
  | exited => exact absurd hworker hi
  | waiting =>
      have hnext : next n f (.locked i) s = some { s with pool := ThreadPool.work i s.pool } := by
        simp only [next, ThreadPool.step, if_pos (And.intro hworker hawake)]
        rfl
      refine ⟨.locked i, _, trivial, hnext, h.step hnext, ?_⟩
      have hmain : mainLeft n { s with pool := ThreadPool.work i s.pool } = mainLeft n s := by
        obtain ⟨-, -, hdestructor, -⟩ := work_frame i s.pool
        simp only [mainLeft, hdestructor]
      rw [left, hmain, left]
      exact Nat.add_lt_add_left (locked_left hworker hawake) _
  | running task =>
      let pool' : ThreadPool.State workers := { s.pool with
        worker := Function.update s.pool.worker i .waiting
        executed := s.pool.executed ++ [task] }
      have hstep : ThreadPool.step (.execute i) s.pool = some pool' := by
        simp only [ThreadPool.step, hworker, pool']
      have hnext : next n f (.execute i) s = some { s with
          pool := pool', futures := Function.update s.futures task (some (f task)) } := by
        simp only [next, ThreadPoolFutures.execute, hworker, hstep, Option.map_some]
      refine ⟨.execute i, _, trivial, hnext, h.step hnext, ?_⟩
      exact Nat.add_lt_add_left (execute_left hworker hstep) _

theorem awake_of_queued (h : Inv n f s) (hworkers : 0 < workers)
    (hnotifying : s.pool.notifying = []) (hqueued : s.pool.tasks ≠ []) :
    ∃ i, i ∉ s.pool.cond.asleep := by
  have hcovered := h.pool.queued
  rw [hnotifying] at hcovered
  rcases s.pool.cond.notified.eq_empty_or_nonempty with hnone | ⟨i, hi⟩
  · refine ⟨⟨0, hworkers⟩, fun habs => hqueued ?_⟩
    exact List.length_eq_zero_iff.mp (hcovered.eq_zero hnone habs)
  · exact ⟨i, Finset.disjoint_right.mp s.pool.cond.apart hi⟩

theorem get_nearer (h : Inv n f s) (hworkers : 0 < workers) {k : ℕ} (hmain : s.main = .get k)
    (hlt : k < n) (hvalue : s.futures k = none) :
    ∃ a s', NoWake a ∧ next n f a s = some s' ∧ Inv n f s' ∧ left n s' < left n s := by
  have hat := h.main_at
  rw [hmain] at hat
  obtain ⟨-, hsubmitted, hnotifying, -⟩ := hat
  have hexecuted : k ∉ s.pool.executed := by
    intro habs
    rw [h.futures k, if_pos habs] at hvalue
    cases hvalue
  have hmem : k ∈ s.pool.taken ++ s.pool.tasks := by
    rw [h.pool.order, hsubmitted]
    exact List.mem_range.mpr hlt
  rcases List.mem_append.mp hmem with htaken | htasks
  · obtain ⟨i, hi⟩ := ((h.pool.ledger.taken_iff k).mp htaken).resolve_left hexecuted
    refine h.worker_nearer (i := i) (fun habs => by cases hi.symm.trans habs) fun hasleep => ?_
    cases hi.symm.trans (h.pool.waiting i (Finset.mem_union_left _ hasleep))
  · have hqueued : s.pool.tasks ≠ [] := List.ne_nil_of_mem htasks
    obtain ⟨i, hawake⟩ := h.awake_of_queued hworkers hnotifying hqueued
    exact h.worker_nearer (fun hexited => hqueued (h.pool.exited i hexited).2) hawake

theorem main_nearer (h : Inv n f s) (wakes : Option (Fin workers))
    (hstep : (mainStep n wakes s).isSome) :
    ∃ a s', NoWake a ∧ next n f a s = some s' ∧ Inv n f s' ∧ left n s' < left n s := by
  obtain ⟨s', hs'⟩ := Option.isSome_iff_exists.mp hstep
  exact ⟨.main wakes, s', trivial, hs', h.main hs', h.main_left hs'⟩

end Inv

theorem progress (n : ℕ) (f : ℕ → R) (hworkers : 0 < workers ∨ n = 0) :
    Progress NoWake (next n f) (Inv n f) (fun s : State workers R => s.main = .returned)
      (left n) := by
  intro s h hgoing
  have hat := h.main_at
  cases hmain : s.main with
  | submit k =>
      refine h.main_nearer none ?_
      simp only [mainStep, hmain]
      rfl
  | notify k =>
      rw [hmain] at hat
      obtain ⟨-, -, hnotifying, -⟩ := hat
      obtain ⟨wakes, cond, hcond⟩ := s.pool.cond.exists_notifyOne
      refine h.main_nearer wakes ?_
      simp only [mainStep, hmain, ThreadPool.step, hnotifying, List.mem_singleton, if_true, hcond]
      rfl
  | get k =>
      by_cases hlt : k < n
      · cases hvalue : s.futures k with
        | none =>
            have hpos : 0 < workers := hworkers.resolve_right (Nat.ne_zero_of_lt hlt)
            exact h.get_nearer hpos hmain hlt hvalue
        | some value =>
            refine h.main_nearer none ?_
            simp only [mainStep, hmain, if_pos hlt, hvalue]
            rfl
      · refine h.main_nearer none ?_
        simp only [mainStep, hmain, if_neg hlt]
        rfl
  | stop | notifyAll =>
      rw [hmain] at hat
      refine h.main_nearer none ?_
      simp only [mainStep, hmain, ThreadPool.step, hat.2.2]
      rfl
  | join =>
      rw [hmain] at hat
      obtain ⟨-, -, joined, hle, hdestructor⟩ := hat
      rcases hle.eq_or_lt with rfl | hlt
      · refine h.main_nearer none ?_
        simp only [mainStep, hmain, if_pos hdestructor]
        rfl
      · -- the worker that is to be joined has left, or is awake
        by_cases hexited : s.pool.worker ⟨joined, hlt⟩ = .exited
        · have hnot : ThreadPool.Destructor.joining joined ≠ .joining workers := fun habs =>
            hlt.ne (ThreadPool.Destructor.joining.inj habs)
          refine h.main_nearer none ?_
          simp only [mainStep, hmain, if_neg hnot, ThreadPool.step, hdestructor, dif_pos hlt,
            if_pos hexited]
          rfl
        · refine h.worker_nearer hexited ?_
          rw [h.pool.awake joined hdestructor]
          exact Finset.notMem_empty _
  | returned => exact absurd hmain hgoing

/-- Without workers the first `get` waits for ever. -/
def Stranded (n : ℕ) (s : State 0 R) : Prop := s.main.asked n = 0 ∧ ∀ task, s.futures task = none

theorem Stranded.step {n : ℕ} {f : ℕ → R} {a : Action 0} {s s' : State 0 R} (hn : n ≠ 0)
    (h : Stranded n s) (hnext : next n f a s = some s') : Stranded n s' := by
  obtain ⟨pool, p, futures, printed⟩ := s
  obtain ⟨hasked, hfutures⟩ := h
  simp only at hasked hfutures
  cases a with
  | locked i | execute i | wake i => exact i.elim0
  | main wakes =>
      cases p with
      | submit i =>
          cases hnext
          split <;> exact ⟨rfl, hfutures⟩
      | notify i =>
          obtain ⟨pool', -, rfl⟩ := Option.map_eq_some_iff.mp hnext
          exact ⟨rfl, hfutures⟩
      | get i =>
          obtain rfl : i = 0 := hasked
          simp only [next, mainStep, if_pos (Nat.pos_of_ne_zero hn), hfutures 0] at hnext
          cases hnext
      | stop | notifyAll | join | returned => exact absurd hasked hn

/-- **Nobody gets stuck, and no wake-up is lost.**  After any schedule `main` can still get all its
values and join all workers without another spurious wake-up, just when there is a worker to run
the tasks or no task to run. -/
theorem canReturn_iff_workers (n : ℕ) (f : ℕ → R) (as : List (Action workers)) :
    CanFinishBy NoWake (next n f) (fun s => s.main = .returned) (schedule (next n f) as init) ↔
      0 < workers ∨ n = 0 := by
  constructor
  · intro hfinish
    rcases Nat.eq_zero_or_pos workers with rfl | hpos
    · refine .inr (by_contra fun hn => ?_)
      have hclosed : ∀ a s s', Stranded n s → next n f a s = some s' → Stranded n s' :=
        fun _ _ _ => Stranded.step hn
      have hinit : Stranded n (init : State 0 R) := ⟨rfl, fun _ => rfl⟩
      have hstranded := schedule_rule (Stranded n) hinit hclosed as
      refine not_canFinish hclosed ?_ hstranded hfinish.canFinish
      intro s hs hreturned
      have hasked := hs.1
      rw [hreturned] at hasked
      exact hn hasked
    · exact .inl hpos
  · intro hworkers
    exact (progress n f hworkers).canFinishBy (reachable_inv n f as)

end LearnCpp.Concurrency.ThreadPoolFutures
