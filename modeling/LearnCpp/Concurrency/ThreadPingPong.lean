/-
# `LearnCpp.Concurrency.ThreadPingPong` — two threads that take turns

`thread_ping_pong` in `topics/concurrency/context_switch_threads_vs_processes.cpp`:
the main thread and a worker hand `turn` back and forth, each waiting on the one
condition variable until it is its own.  Each takes `n` rounds at most (`ITERS`).

All that the two know of each other follows from the number of times that `turn`
was handed over so far:

    turn                 ⟺   that number is odd
    main's rounds         =   half of it, rounded up
    the worker's rounds   =   half of it, rounded down

Main keeps the mutex from its last hand-over to `done = true`.  So the worker never
gets to its last round: it leaves by `break`, and there is one switch less than the
program divides by.
-/
import LearnCpp.Lib.Progress
import Mathlib.Tactic.Common

namespace LearnCpp.Concurrency.ThreadPingPong

open Lib

inductive Thread where
  | main
  | worker
  deriving DecidableEq, Repr

/-- The next thing the main thread does. -/
inductive Main where
  | lockInit
  | setTurn
  | unlockInit
  | lock
  /-- before `i < ITERS` -/
  | head
  | test
  /-- in `cv.wait`, asleep or on its way to the mutex again -/
  | waiting (asleep : Bool)
  | handOver
  | notify
  | setDone
  | notifyDone
  | unlock
  | join
  | returned
  deriving DecidableEq, Repr

/-- The next thing the worker does. -/
inductive Worker where
  | lock
  | head
  | test
  | waiting (asleep : Bool)
  | checkDone
  | handOver
  | notify
  | unlock
  | returned
  deriving DecidableEq, Repr

namespace Main

/-- Main has the mutex. -/
def holds : Main → Bool
  | .lockInit | .lock | .waiting _ | .join | .returned => false
  | _ => true

/-- Main has set `done`. -/
def past : Main → Bool
  | .notifyDone | .unlock | .join | .returned => true
  | _ => false

/-- What `notify_one` does to main. -/
def notified : Main → Main
  | .waiting true => .waiting false
  | p => p

end Main

namespace Worker

/-- The worker has the mutex. -/
def holds : Worker → Bool
  | .lock | .waiting _ | .returned => false
  | _ => true

/-- What `notify_one` does to the worker. -/
def notified : Worker → Worker
  | .waiting true => .waiting false
  | p => p

end Worker

/-- `i` and `j` are the counters of the two loops, `log` is who has handed over so far. -/
structure State where
  main : Main := .lockInit
  worker : Worker := .lock
  turn : Bool := false
  done : Bool := false
  i : ℕ := 0
  j : ℕ := 0
  log : List Thread := []
  deriving DecidableEq, Repr

inductive Action where
  | main
  | worker
  /-- a spurious wake-up -/
  | wake (thread : Thread)
  deriving DecidableEq, Repr

/-- Main's next step; `lock` waits while the worker has the mutex. -/
def mainStep (n : ℕ) (s : State) : Option State :=
  match s.main with
  | .lockInit => if s.worker.holds then none else some { s with main := .setTurn }
  | .setTurn => some { s with main := .unlockInit, turn := false }
  | .unlockInit => some { s with main := .lock }
  | .lock => if s.worker.holds then none else some { s with main := .head }
  | .head => some { s with main := if s.i < n then .test else .setDone }
  | .test => some { s with main := if s.turn = false then .handOver else .waiting true }
  | .waiting true => none
  | .waiting false => if s.worker.holds then none else some { s with main := .test }
  | .handOver => some { s with main := .notify, turn := true, log := s.log ++ [.main] }
  | .notify => some { s with main := .head, i := s.i + 1, worker := s.worker.notified }
  | .setDone => some { s with main := .notifyDone, done := true }
  | .notifyDone => some { s with main := .unlock, worker := s.worker.notified }
  | .unlock => some { s with main := .join }
  | .join => if s.worker = .returned then some { s with main := .returned } else none
  | .returned => none

/-- The worker's next step; its `my_turn` is true. -/
def workerStep (n : ℕ) (s : State) : Option State :=
  match s.worker with
  | .lock => if s.main.holds then none else some { s with worker := .head }
  | .head => some { s with worker := if s.j < n then .test else .unlock }
  | .test =>
      some { s with worker := if s.turn = true ∨ s.done = true then .checkDone else .waiting true }
  | .waiting true => none
  | .waiting false => if s.main.holds then none else some { s with worker := .test }
  | .checkDone => some { s with worker := if s.done then .unlock else .handOver }
  | .handOver => some { s with worker := .notify, turn := !s.turn, log := s.log ++ [.worker] }
  | .notify => some { s with worker := .head, j := s.j + 1, main := s.main.notified }
  | .unlock => some { s with worker := .returned }
  | .returned => none

def next (n : ℕ) : Action → State → Option State
  | .main, s => mainStep n s
  | .worker, s => workerStep n s
  | .wake .main, s =>
      if s.main = .waiting true then some { s with main := .waiting false } else none
  | .wake .worker, s =>
      if s.worker = .waiting true then some { s with worker := .waiting false } else none

def init : State := {}

/-- Main and the worker, `k` hand-overs in turn. -/
def alternate : ℕ → List Thread
  | 0 => []
  | k + 1 => alternate k ++ [if k % 2 = 0 then .main else .worker]

/-! ## Where the two can be after `k` hand-overs -/

/-- Main is there in round `i`. -/
def Main.At (n i k : ℕ) : Main → Prop
  | .lockInit | .setTurn | .unlockInit | .lock => i = 0 ∧ k = 0
  | .head => i ≤ n ∧ k = 2 * i - 1
  | .test | .waiting _ => i < n ∧ (k + 1) / 2 = i
  | .handOver => i < n ∧ k = 2 * i
  | .notify => i < n ∧ k = 2 * i + 1
  | .setDone | .notifyDone | .unlock | .join | .returned => i = n ∧ k = 2 * n - 1

/-- The worker is there in round `j`. -/
def Worker.At (n j k : ℕ) (done : Bool) : Worker → Prop
  | .lock | .head => j ≤ n ∧ k / 2 = j
  | .test | .waiting _ => j < n ∧ k / 2 = j
  | .checkDone => j < n ∧ k / 2 = j ∧ (k % 2 = 1 ∨ done = true)
  | .handOver => j < n ∧ k = 2 * j + 1 ∧ done = false
  | .notify => j < n ∧ k = 2 * j + 2
  | .unlock | .returned => j = n - 1 ∧ (n = 0 ∨ done = true)

structure Inv (n : ℕ) (s : State) : Prop where
  main_at : s.main.At n s.i s.log.length
  worker_at : s.worker.At n s.j s.log.length s.done
  apart : s.main.holds = true → s.worker.holds = false
  turn : s.turn = true ↔ s.log.length % 2 = 1
  done : s.done = s.main.past
  log : s.log = alternate s.log.length
  /-- whoever sleeps although it is its turn is about to be notified -/
  main_asleep : s.main = .waiting true → s.turn = true ∨ s.worker = .notify
  worker_asleep : s.worker = .waiting true → s.turn = false ∨ s.main = .notify
  joined : s.main = .returned → s.worker = .returned

theorem init_inv (n : ℕ) : Inv n init where
  main_at := ⟨rfl, rfl⟩
  worker_at := ⟨Nat.zero_le n, rfl⟩
  apart := nofun
  turn := by simp [init]
  done := rfl
  log := rfl
  main_asleep := nofun
  worker_asleep := nofun
  joined := nofun

theorem Main.At.le {n i k : ℕ} {p : Main} (h : p.At n i k) : k ≤ 2 * n - 1 := by
  cases p <;> simp only [Main.At] at h <;> omega

theorem Main.At.last {n i k : ℕ} {p : Main} (h : p.At n i k) (hpast : p.past = true) :
    k = 2 * n - 1 := by
  cases p with
  | notifyDone | unlock | join | returned => exact h.2
  | _ => cases hpast

theorem Worker.At.set_done {n j k : ℕ} {done : Bool} {p : Worker} (h : p.At n j k done)
    (hfree : p.holds = false) : p.At n j k true := by
  cases p with
  | lock | waiting => exact h
  | returned => exact ⟨h.1, .inr rfl⟩
  | _ => cases hfree

/-! ## A notification moves nobody -/

section
variable {n i k : ℕ} {done : Bool}

theorem Main.notified_ne (p : Main) : p.notified ≠ .waiting true := by
  unfold notified
  split
  · exact nofun
  · next h => exact h

theorem Main.notified_holds (p : Main) : p.notified.holds = p.holds := by
  unfold notified
  split <;> rfl

theorem Main.notified_past (p : Main) : p.notified.past = p.past := by
  unfold notified
  split <;> rfl

theorem Main.At.notified {p : Main} (h : p.At n i k) : p.notified.At n i k := by
  unfold Main.notified
  split <;> exact h

theorem Worker.notified_ne (p : Worker) : p.notified ≠ .waiting true := by
  unfold notified
  split
  · exact nofun
  · next h => exact h

theorem Worker.notified_holds (p : Worker) : p.notified.holds = p.holds := by
  unfold notified
  split <;> rfl

theorem Worker.At.notified {p : Worker} (h : p.At n i k done) : p.notified.At n i k done := by
  unfold Worker.notified
  split <;> exact h

end

/-! ## Every step keeps to it -/

namespace Inv

variable {n : ℕ} {s s' : State}

/-- While main has the mutex the worker is where it does not read or write anything. -/
theorem worker_idle (h : Inv n s) (hholds : s.main.holds = true) :
    s.worker = .lock ∨ (∃ asleep, s.worker = .waiting asleep) ∨ s.worker = .returned := by
  have hfree := h.apart hholds
  cases hw : s.worker <;> simp_all [Worker.holds]

theorem main_idle (h : Inv n s) (hholds : s.worker.holds = true) :
    s.main = .lockInit ∨ s.main = .lock ∨ (∃ asleep, s.main = .waiting asleep) ∨
      s.main = .join ∨ s.main = .returned := by
  have hfree : s.main.holds = false :=
    Bool.eq_false_iff.mpr fun hmain => Bool.false_ne_true ((h.apart hmain).symm.trans hholds)
  cases hm : s.main <;> simp_all [Main.holds]

theorem main_goes (h : Inv n s) {p : Main} (hat : p.At n s.i s.log.length)
    (hapart : p.holds = true → s.worker.holds = false) (hpast : s.main.past = p.past)
    (hasleep : p = .waiting true → s.turn = true) (hnotify : s.main ≠ .notify)
    (hjoined : p = .returned → s.worker = .returned) : Inv n { s with main := p } where
  main_at := hat
  worker_at := h.worker_at
  apart := hapart
  turn := h.turn
  done := h.done.trans hpast
  log := h.log
  main_asleep hp := .inl (hasleep hp)
  worker_asleep hw := .inl ((h.worker_asleep hw).resolve_right hnotify)
  joined := hjoined

theorem worker_goes (h : Inv n s) {p : Worker} (hat : p.At n s.j s.log.length s.done)
    (hapart : p.holds = true → s.main.holds = false)
    (hasleep : p = .waiting true → s.turn = false) (hnotify : s.worker ≠ .notify)
    (hrunning : s.worker ≠ .returned) : Inv n { s with worker := p } where
  main_at := h.main_at
  worker_at := hat
  apart hmain := Bool.eq_false_iff.mpr fun hp => Bool.false_ne_true ((hapart hp).symm.trans hmain)
  turn := h.turn
  done := h.done
  log := h.log
  main_asleep hm := .inl ((h.main_asleep hm).resolve_right hnotify)
  worker_asleep hp := .inl (hasleep hp)
  joined hm := absurd (h.joined hm) hrunning

theorem main_notifies (h : Inv n s) {p : Main} {i : ℕ} (hat : p.At n i s.log.length)
    (hholds : s.main.holds = true) (hpast : s.main.past = p.past) (hp : p.holds = true) :
    Inv n { s with main := p, i := i, worker := s.worker.notified } where
  main_at := hat
  worker_at := h.worker_at.notified
  apart _ := (Worker.notified_holds _).trans (h.apart hholds)
  turn := h.turn
  done := h.done.trans hpast
  log := h.log
  main_asleep hasleep := absurd ((congrArg Main.holds hasleep).symm.trans hp) Bool.false_ne_true
  worker_asleep hw := absurd hw (Worker.notified_ne _)
  joined hreturned := absurd ((congrArg Main.holds hreturned).symm.trans hp) Bool.false_ne_true

theorem worker_notifies (h : Inv n s) {p : Worker} {j : ℕ} (hat : p.At n j s.log.length s.done)
    (hholds : s.worker.holds = true) (hp : p.holds = true) :
    Inv n { s with worker := p, j := j, main := s.main.notified } where
  main_at := h.main_at.notified
  worker_at := hat
  apart hmain := absurd ((h.apart ((Main.notified_holds _).symm.trans hmain)).symm.trans hholds)
    Bool.false_ne_true
  turn := h.turn
  done := h.done.trans (Main.notified_past _).symm
  log := h.log
  main_asleep hm := absurd hm (Main.notified_ne _)
  worker_asleep hasleep := absurd ((congrArg Worker.holds hasleep).symm.trans hp) Bool.false_ne_true
  joined hm := by
    have hreturned : s.main = .returned := by
      unfold Main.notified at hm
      split at hm
      · cases hm
      · exact hm
    rw [h.joined hreturned] at hholds
    cases hholds

theorem main_handOver (h : Inv n s) (hplace : s.main = .handOver) :
    Inv n { s with main := .notify, turn := true, log := s.log ++ [.main] } := by
  have hat := h.main_at
  rw [hplace] at hat
  obtain ⟨hi, hk⟩ := hat
  have hfree : s.worker.holds = false := h.apart (by rw [hplace]; rfl)
  have hdone : s.done = false := by rw [h.done, hplace]; rfl
  have hworker := h.worker_at
  constructor
  case main_at => simp [Main.At, hi, hk]
  case worker_at =>
      rcases h.worker_idle (by rw [hplace]; rfl) with hw | ⟨asleep, hw⟩ | hw <;>
        simp only [hw, Worker.At, hdone, List.length_append, List.length_singleton] at hworker ⊢ <;>
        omega
  case apart => exact fun _ => hfree
  case turn =>
      simp only [List.length_append, List.length_singleton, true_iff]
      omega
  case done => exact hdone
  case log =>
      rw [List.length_append, List.length_singleton, alternate, ← h.log, if_pos (by omega)]
  case main_asleep => exact nofun
  case worker_asleep => exact fun _ => .inr rfl
  case joined => exact nofun

theorem worker_handOver (h : Inv n s) (hplace : s.worker = .handOver) :
    Inv n { s with worker := .notify, turn := !s.turn, log := s.log ++ [.worker] } := by
  have hat := h.worker_at
  rw [hplace] at hat
  obtain ⟨hj, hk, hdone⟩ := hat
  have hturn : s.turn = true := h.turn.mpr (by omega)
  have hmain := h.main_at
  have hpast : s.main.past = false := h.done.symm.trans hdone
  have hidle := h.main_idle (by rw [hplace]; rfl)
  constructor
  case main_at =>
      rcases hidle with hm | hm | ⟨asleep, hm⟩ | hm | hm <;>
        simp only [hm, Main.At, Main.past, reduceCtorEq, List.length_append, List.length_singleton]
          at hmain hpast ⊢ <;>
        omega
  case worker_at => simp [Worker.At, hj, hk]
  case apart =>
      intro hm
      exact absurd (h.apart hm) (by rw [hplace]; exact nofun)
  case turn =>
      rw [hturn]
      simp only [List.length_append, List.length_singleton, Bool.not_true, false_iff,
        Bool.false_eq_true]
      omega
  case done => exact h.done
  case log =>
      rw [List.length_append, List.length_singleton, alternate, ← h.log, if_neg (by omega)]
  case main_asleep => exact fun _ => .inr rfl
  case worker_asleep => exact nofun
  case joined => exact fun hm => absurd (hplace.symm.trans (h.joined hm)) nofun

theorem mainStep (h : Inv n s) (hstep : mainStep n s = some s') : Inv n s' := by
  obtain ⟨p, w, turn, done, i, j, log⟩ := s
  have hat := h.main_at
  simp only at hat
  cases p with
  | lockInit =>
      simp only [ThreadPingPong.mainStep] at hstep
      split at hstep
      · cases hstep
      · next hfree =>
          cases hstep
          exact h.main_goes hat (fun _ => Bool.eq_false_iff.mpr hfree) rfl nofun nofun nofun
  | setTurn =>
      -- `turn` is still false
      obtain rfl : turn = false := Bool.eq_false_iff.mpr fun hturn => by
        have hodd := h.turn.mp hturn
        rw [hat.2] at hodd
        cases hodd
      cases hstep
      exact h.main_goes hat (fun _ => h.apart rfl) rfl nofun nofun nofun
  | unlockInit =>
      cases hstep
      exact h.main_goes hat nofun rfl nofun nofun nofun
  | lock =>
      simp only [ThreadPingPong.mainStep] at hstep
      split at hstep
      · cases hstep
      · next hfree =>
          cases hstep
          obtain ⟨hi, hk⟩ := hat
          refine h.main_goes ⟨?_, ?_⟩ (fun _ => Bool.eq_false_iff.mpr hfree) rfl nofun nofun nofun
          · exact hi ▸ Nat.zero_le n
          · exact hk.trans (congrArg (2 * · - 1) hi).symm
  | head =>
      obtain ⟨hle, hk⟩ := hat
      cases hstep
      split
      · next hlt =>
          have hround : (log.length + 1) / 2 = i := by omega
          exact h.main_goes ⟨hlt, hround⟩ (fun _ => h.apart rfl) rfl nofun nofun nofun
      · next hge =>
          obtain rfl : i = n := Nat.le_antisymm hle (Nat.le_of_not_lt hge)
          exact h.main_goes ⟨rfl, hk⟩ (fun _ => h.apart rfl) rfl nofun nofun nofun
  | test =>
      obtain ⟨hlt, hk⟩ := hat
      cases hstep
      split
      · next hturn =>
          have heven : ¬ log.length % 2 = 1 := fun hodd =>
            Bool.false_ne_true (hturn.symm.trans (h.turn.mpr hodd))
          have hround : log.length = 2 * i := by omega
          exact h.main_goes ⟨hlt, hround⟩ (fun _ => h.apart rfl) rfl nofun nofun nofun
      · next hturn =>
          exact h.main_goes ⟨hlt, hk⟩ nofun rfl (fun _ => eq_true_of_ne_false hturn) nofun nofun
  | waiting asleep =>
      cases asleep with
      | true => cases hstep
      | false =>
          simp only [ThreadPingPong.mainStep] at hstep
          split at hstep
          · cases hstep
          · next hfree =>
              cases hstep
              exact h.main_goes hat (fun _ => Bool.eq_false_iff.mpr hfree) rfl nofun nofun nofun
  | handOver =>
      cases hstep
      exact h.main_handOver rfl
  | notify =>
      obtain ⟨hlt, hk⟩ := hat
      cases hstep
      exact h.main_notifies ⟨hlt, hk⟩ rfl rfl rfl
  | setDone =>
      have hfree : w.holds = false := h.apart rfl
      cases hstep
      exact ⟨hat, h.worker_at.set_done hfree, fun _ => hfree, h.turn, rfl, h.log, nofun,
        fun hw => .inl ((h.worker_asleep hw).resolve_right nofun), nofun⟩
  | notifyDone =>
      cases hstep
      exact h.main_notifies hat rfl rfl rfl
  | unlock =>
      cases hstep
      exact h.main_goes hat nofun rfl nofun nofun nofun
  | join =>
      simp only [ThreadPingPong.mainStep] at hstep
      split at hstep
      · next hreturned =>
          cases hstep
          exact h.main_goes hat nofun rfl nofun nofun fun _ => hreturned
      · cases hstep
  | returned => cases hstep

theorem workerStep (h : Inv n s) (hstep : workerStep n s = some s') : Inv n s' := by
  obtain ⟨p, w, turn, done, i, j, log⟩ := s
  have hat := h.worker_at
  simp only at hat
  -- while the worker has the mutex, main has not
  have hfree : w.holds = true → p.holds = false := fun hw =>
    Bool.eq_false_iff.mpr fun hp => Bool.false_ne_true ((h.apart hp).symm.trans hw)
  cases w with
  | lock =>
      simp only [ThreadPingPong.workerStep] at hstep
      split at hstep
      · cases hstep
      · next hmain =>
          cases hstep
          exact h.worker_goes hat (fun _ => Bool.eq_false_iff.mpr hmain) nofun nofun nofun
  | head =>
      obtain ⟨hle, hk⟩ := hat
      cases hstep
      split
      · next hlt => exact h.worker_goes ⟨hlt, hk⟩ (fun _ => hfree rfl) nofun nofun nofun
      · next hge =>
          -- there is no room for `n` rounds, unless there are none
          have hlen := h.main_at.le
          simp only at hlen
          have hge : n ≤ j := Nat.le_of_not_lt hge
          have hnone : n = 0 := by omega
          have hround : j = n - 1 := by omega
          exact h.worker_goes ⟨hround, .inl hnone⟩ (fun _ => hfree rfl) nofun nofun nofun
  | test =>
      obtain ⟨hlt, hk⟩ := hat
      cases hstep
      split
      · next hwake =>
          exact h.worker_goes ⟨hlt, hk, hwake.imp_left h.turn.mp⟩ (fun _ => hfree rfl) nofun nofun
            nofun
      · next hwait =>
          obtain ⟨hturn, -⟩ := not_or.mp hwait
          exact h.worker_goes ⟨hlt, hk⟩ nofun (fun _ => Bool.eq_false_iff.mpr hturn) nofun nofun
  | waiting asleep =>
      cases asleep with
      | true => cases hstep
      | false =>
          simp only [ThreadPingPong.workerStep] at hstep
          split at hstep
          · cases hstep
          · next hmain =>
              cases hstep
              exact h.worker_goes hat (fun _ => Bool.eq_false_iff.mpr hmain) nofun nofun nofun
  | checkDone =>
      obtain ⟨hlt, hk, hwake⟩ := hat
      cases hstep
      split
      · next hdone =>
          -- main has handed over for the last time
          have hlast := h.main_at.last (h.done.symm.trans hdone)
          simp only at hlast
          have hround : j = n - 1 := by omega
          exact h.worker_goes ⟨hround, .inr hdone⟩ (fun _ => hfree rfl) nofun nofun nofun
      · next hdone =>
          have hodd := hwake.resolve_right hdone
          have hround : log.length = 2 * j + 1 := by omega
          exact h.worker_goes ⟨hlt, hround, Bool.eq_false_iff.mpr hdone⟩ (fun _ => hfree rfl)
            nofun nofun nofun
  | handOver =>
      cases hstep
      exact h.worker_handOver rfl
  | notify =>
      obtain ⟨hlt, hk⟩ := hat
      cases hstep
      have hround : log.length / 2 = j + 1 := by omega
      exact h.worker_notifies ⟨hlt, hround⟩ rfl rfl
  | unlock =>
      cases hstep
      exact h.worker_goes hat nofun nofun nofun nofun
  | returned => cases hstep

theorem step {a : Action} (h : Inv n s) (hnext : next n a s = some s') : Inv n s' := by
  cases a with
  | main => exact h.mainStep hnext
  | worker => exact h.workerStep hnext
  | wake thread =>
      have hmain := h.main_at
      have hworker := h.worker_at
      cases thread with
      | main =>
          simp only [next] at hnext
          split at hnext
          · next hasleep =>
              cases hnext
              rw [hasleep] at hmain
              exact ⟨hmain, hworker, nofun, h.turn, h.done.trans (by rw [hasleep]; rfl), h.log,
                nofun, fun hw => .inl ((h.worker_asleep hw).resolve_right (by rw [hasleep]; nofun)),
                nofun⟩
          · cases hnext
      | worker =>
          simp only [next] at hnext
          split at hnext
          · next hasleep =>
              cases hnext
              rw [hasleep] at hworker
              exact ⟨hmain, hworker, fun _ => rfl, h.turn, h.done, h.log,
                fun hm => .inl ((h.main_asleep hm).resolve_right (by rw [hasleep]; nofun)), nofun,
                fun hm => absurd (hasleep.symm.trans (h.joined hm)) nofun⟩
          · cases hnext

/-- A worker that sleeps will have its turn: main has not handed over for the last time. -/
theorem not_done (h : Inv n s) (hasleep : s.worker = .waiting true) : s.done = false := by
  refine Bool.eq_false_iff.mpr fun hdone => ?_
  have hpast := h.done.symm.trans hdone
  have hlast := h.main_at.last hpast
  have hworker := h.worker_at
  rw [hasleep] at hworker
  obtain ⟨hlt, hk⟩ := hworker
  have hturn : s.turn = true := h.turn.mpr (by omega)
  rcases h.worker_asleep hasleep with hnot | hmain
  · exact Bool.false_ne_true (hnot.symm.trans hturn)
  · rw [hmain] at hpast
    cases hpast

end Inv

theorem reachable_inv (n : ℕ) (as : List Action) : Inv n (schedule (next n) as init) :=
  schedule_rule (Inv n) (init_inv n) (fun _ _ _ => Inv.step) as

/-- **Taking turns.**  The two never have the mutex both, and hand over in turn, main first.  When
`done` is set the worker does not sleep.  At the end main has handed over `n` times and the worker,
which left in its round before the last, once less. -/
theorem hands_over_in_turn (n : ℕ) (as : List Action) :
    let s := schedule (next n) as init
    ¬ (s.main.holds ∧ s.worker.holds) ∧ s.log = alternate s.log.length ∧
      s.log.length ≤ 2 * n - 1 ∧ (s.done = true → s.worker ≠ .waiting true) ∧
      (s.main = .returned →
        s.worker = .returned ∧ s.i = n ∧ s.j = n - 1 ∧ s.log.length = 2 * n - 1) := by
  intro s
  have h := reachable_inv n as
  refine ⟨?_, h.log, h.main_at.le, ?_, ?_⟩
  · rintro ⟨hmain, hworker⟩
    exact Bool.false_ne_true ((h.apart hmain).symm.trans hworker)
  · intro hdone hasleep
    exact Bool.false_ne_true ((h.not_done hasleep).symm.trans hdone)
  · intro hmain
    have hworker := h.joined hmain
    have hat := h.main_at
    have hleft := h.worker_at
    rw [hmain] at hat
    rw [hworker] at hleft
    exact ⟨hworker, hat.1, hleft.1, hat.2⟩

/-! ## Both can always still finish -/

/-- Steps that are left to main in its round, with one more to wake up at its notifications. -/
def Main.left : Main → ℕ
  | .lockInit => 13
  | .setTurn => 12
  | .unlockInit => 11
  | .lock => 10
  | .head => 9
  | .test => 8
  | .waiting asleep => if asleep then 7 else 9
  | .handOver => 7
  | .notify => 12
  | .setDone => 8
  | .notifyDone => 7
  | .unlock => 2
  | .join => 1
  | .returned => 0

def Worker.left : Worker → ℕ
  | .lock => 6
  | .head => 5
  | .test => 4
  | .waiting asleep => if asleep then 3 else 5
  | .checkDone => 3
  | .handOver => 2
  | .notify => 8
  | .unlock => 1
  | .returned => 0

/-- A hand-over outweighs the round that it begins. -/
def left (n : ℕ) (s : State) : ℕ := 7 * (2 * n - s.log.length) + s.main.left + s.worker.left

def Finished (s : State) : Prop := s.main = .returned ∧ s.worker = .returned

theorem Main.left_notified (p : Main) : p.notified.left ≤ p.left + 2 := by
  unfold notified
  split <;> simp [left]

theorem Worker.left_notified (p : Worker) : p.notified.left ≤ p.left + 2 := by
  unfold notified
  split <;> simp [left]

namespace Inv

variable {n : ℕ} {s : State}

theorem main_nearer (h : Inv n s) (hholds : s.main.holds = true) :
    ∃ s', ThreadPingPong.mainStep n s = some s' ∧ left n s' < left n s := by
  obtain ⟨p, w, turn, done, i, j, log⟩ := s
  have hat := h.main_at
  have hwoken := w.left_notified
  simp only at hat hholds
  cases p with
  | setTurn => exact ⟨_, rfl, by simp [left, Main.left]⟩
  | unlockInit => exact ⟨_, rfl, by simp [left, Main.left]⟩
  | head =>
      refine ⟨_, rfl, ?_⟩
      simp only [left]
      split <;> simp [Main.left]
  | test =>
      refine ⟨_, rfl, ?_⟩
      simp only [left]
      split <;> simp [Main.left]
  | handOver =>
      obtain ⟨hlt, hk⟩ := hat
      refine ⟨_, rfl, ?_⟩
      simp only [left, Main.left, List.length_append, List.length_singleton]
      omega
  | notify =>
      refine ⟨_, rfl, ?_⟩
      simp only [left, Main.left]
      omega
  | setDone => exact ⟨_, rfl, by simp [left, Main.left]⟩
  | notifyDone =>
      refine ⟨_, rfl, ?_⟩
      simp only [left, Main.left]
      omega
  | unlock => exact ⟨_, rfl, by simp [left, Main.left]⟩
  | _ => cases hholds

theorem worker_nearer (h : Inv n s) (hholds : s.worker.holds = true) :
    ∃ s', ThreadPingPong.workerStep n s = some s' ∧ left n s' < left n s := by
  obtain ⟨p, w, turn, done, i, j, log⟩ := s
  have hat := h.worker_at
  have hwoken := p.left_notified
  simp only at hat hholds
  cases w with
  | head =>
      refine ⟨_, rfl, ?_⟩
      simp only [left]
      split <;> simp [Worker.left]
  | test =>
      refine ⟨_, rfl, ?_⟩
      simp only [left]
      split <;> simp [Worker.left]
  | checkDone =>
      refine ⟨_, rfl, ?_⟩
      simp only [left]
      split <;> simp [Worker.left]
  | handOver =>
      obtain ⟨hlt, hk, -⟩ := hat
      refine ⟨_, rfl, ?_⟩
      simp only [left, Worker.left, List.length_append, List.length_singleton]
      omega
  | notify =>
      refine ⟨_, rfl, ?_⟩
      simp only [left, Worker.left]
      omega
  | unlock => exact ⟨_, rfl, by simp [left, Worker.left]⟩
  | _ => cases hholds

theorem worker_wakes (hfree : s.main.holds = false) (hidle : s.worker.holds = false)
    (hasleep : s.worker ≠ .waiting true) (hrunning : s.worker ≠ .returned) :
    ∃ s', ThreadPingPong.workerStep n s = some s' ∧ left n s' < left n s := by
  obtain ⟨p, w, turn, done, i, j, log⟩ := s
  simp only at hfree hidle hasleep hrunning
  cases w with
  | lock => exact ⟨_, by simp [ThreadPingPong.workerStep, hfree]; rfl, by simp [left, Worker.left]⟩
  | waiting asleep =>
      cases asleep with
      | true => exact absurd rfl hasleep
      | false =>
          exact ⟨_, by simp [ThreadPingPong.workerStep, hfree]; rfl, by simp [left, Worker.left]⟩
  | returned => exact absurd rfl hrunning
  | _ => cases hidle

/-- With the mutex free either main gets on, or it waits for a worker that does not sleep. -/
theorem main_wakes (h : Inv n s) (hfree : s.main.holds = false) (hidle : s.worker.holds = false)
    (hnot : ¬ Finished s) :
    (∃ s', ThreadPingPong.mainStep n s = some s' ∧ left n s' < left n s) ∨
      (s.worker ≠ .waiting true ∧ s.worker ≠ .returned) := by
  have hsleeper := h.not_done
  have hdone := h.done
  have hat := h.main_at
  have hleft := h.worker_at
  have hmain := h.main_asleep
  have hworker := h.worker_asleep
  have hjoined := h.joined
  obtain ⟨p, w, turn, done, i, j, log⟩ := s
  simp only at *
  cases p with
  | lockInit =>
      exact .inl ⟨_, by simp [ThreadPingPong.mainStep, hidle]; rfl, by simp [left, Main.left]⟩
  | lock => exact .inl ⟨_, by simp [ThreadPingPong.mainStep, hidle]; rfl, by simp [left, Main.left]⟩
  | waiting asleep =>
      cases asleep with
      | false =>
          exact .inl ⟨_, by simp [ThreadPingPong.mainStep, hidle]; rfl, by simp [left, Main.left]⟩
      | true =>
          refine .inr ⟨?_, ?_⟩
          · -- it is one of the two's turn
            rintro rfl
            have hturn := (hmain rfl).resolve_right nofun
            have hnot := (hworker rfl).resolve_right nofun
            exact Bool.false_ne_true (hnot.symm.trans hturn)
          · rintro rfl
            rcases hleft.2 with rfl | hset
            · exact absurd hat.1 (Nat.not_lt_zero i)
            · exact Bool.false_ne_true (hdone.symm.trans hset)
  | join =>
      by_cases hreturned : w = .returned
      · obtain rfl := hreturned
        exact .inl ⟨_, by simp [ThreadPingPong.mainStep]; rfl, by simp [left, Main.left]⟩
      · refine .inr ⟨fun hasleep => ?_, hreturned⟩
        exact Bool.false_ne_true ((hsleeper hasleep).symm.trans hdone)
  | returned => exact absurd ⟨rfl, hjoined rfl⟩ hnot
  | _ => cases hfree

end Inv

/-- The steps of the program, without spurious wake-ups. -/
def NoWake : Action → Prop
  | .wake _ => False
  | _ => True

theorem progress (n : ℕ) : Progress NoWake (next n) (Inv n) Finished (left n) := by
  intro s h hnot
  have hmove : ∀ a, NoWake a → (∃ s', next n a s = some s' ∧ left n s' < left n s) →
      ∃ a s', NoWake a ∧ next n a s = some s' ∧ Inv n s' ∧ left n s' < left n s := by
    rintro a hown ⟨s', hnext, hlt⟩
    exact ⟨a, s', hown, hnext, h.step hnext, hlt⟩
  cases hmain : s.main.holds with
  | true => exact hmove .main trivial (h.main_nearer hmain)
  | false =>
      cases hworker : s.worker.holds with
      | true => exact hmove .worker trivial (h.worker_nearer hworker)
      | false =>
          rcases h.main_wakes hmain hworker hnot with hnearer | ⟨hasleep, hrunning⟩
          · exact hmove .main trivial hnearer
          · exact hmove .worker trivial (Inv.worker_wakes hmain hworker hasleep hrunning)

/-- **No wake-up is lost.**  After any schedule, spurious wake-ups included, both can still finish
without another one. -/
theorem always_canFinish (n : ℕ) (as : List Action) :
    CanFinishBy NoWake (next n) Finished (schedule (next n) as init) :=
  (progress n).canFinishBy (reachable_inv n as)

end LearnCpp.Concurrency.ThreadPingPong
