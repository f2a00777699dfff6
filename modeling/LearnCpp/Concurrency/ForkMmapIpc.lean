/-
# `LearnCpp.Concurrency.ForkMmapIpc` — parent and child over shared memory

`topics/concurrency/fork_mmap_ipc_sync.cpp`: a parent and its forked child go
through five ways of waiting for each other, once each: a pipe, two atomic flags,
a mutex, a condition variable and a semaphore.  Every system call and every access
to the shared region is one step, and the steps interleave in any way.

What is shared is at all times a function of where the two are (`sharedAt`), and
the places they can be in together are those that the five waits allow (`Synced`):

    pipe         the child has read           only if  the parent has written
    flags        the parent stops spinning    only if  the child has set its flag
    condition    the child stops waiting      only if  the counter is 20
    semaphore    the child goes on            only if  the parent has posted
    waitpid      the parent reports           only if  the child has exited

The parent does not look at the result of its `write`.  If it fails, or the
child's `read` does, the child gives up and the parent waits for a flag that
nobody sets any more; otherwise both can always still finish.
-/
import LearnCpp.Lib.Progress
import Mathlib.Order.Basic

namespace LearnCpp.Concurrency.ForkMmapIpc

open Lib

/-- The next thing the parent does. -/
inductive Parent where
  | closeRead
  | lockData
  | storeTen
  | writeMessage
  | unlockData
  | writeByte
  | closeWrite
  | setReady
  | spin
  | lockSignal
  | storeTwenty
  | signal
  | unlockSignal
  | post
  | waitpid
  | report
  | destroy
  | returned
  /-- by SIGPIPE: it wrote to a pipe that nobody reads -/
  | killed
  deriving DecidableEq, Repr

/-- The next thing the child does. -/
inductive Child where
  | closeWrite
  | readByte
  | closeRead
  | setReady
  | lockRead
  | loadCounter
  | copyMessage
  | unlockRead
  | lockWait
  | test
  /-- in `pthread_cond_wait`, asleep or on its way to the mutex again -/
  | waiting (asleep : Bool)
  | reload
  | unlockWait
  | semWait
  | storeDone
  | exit
  | exited (success : Bool)
  deriving DecidableEq, Repr

inductive Side where
  | parent
  | child
  deriving DecidableEq, Repr

/-- The shared region; `mutex` is its holder. -/
structure Shared where
  parentReady : Int := 0
  childReady : Int := 0
  mutex : Option Side := none
  sem : ℕ := 0
  counter : Int := 0
  message : String := ""
  deriving DecidableEq, Repr

/-- The pipe: the bytes in it, and the ends that are open. -/
structure Pipe where
  bytes : ℕ := 0
  parentReads : Bool := true
  parentWrites : Bool := true
  childReads : Bool := true
  childWrites : Bool := true
  deriving DecidableEq, Repr

/-- `c` and `msg` are locals of the child; `got`, `awaited` and `reported` are what is printed. -/
structure State where
  parent : Parent := .closeRead
  child : Child := .closeWrite
  shared : Shared := {}
  pipe : Pipe := {}
  c : Int := 0
  msg : String := ""
  got : Option (Int × String) := none
  awaited : Option Int := none
  reported : Option Int := none
  deriving DecidableEq, Repr

inductive Action where
  | parent
  | child
  /-- `write` fails -/
  | failWrite
  /-- `read` fails -/
  | failRead
  /-- a spurious wake-up -/
  | wake
  deriving DecidableEq, Repr

/-- The parent's next step, with an unnamed semaphore if `semOk`. -/
def parentStep (semOk : Bool) (s : State) : Option State :=
  match s.parent with
  | .closeRead => some { s with parent := .lockData, pipe.parentReads := false }
  | .lockData =>
      if s.shared.mutex = none then
        some { s with parent := .storeTen, shared.mutex := some .parent }
      else none
  | .storeTen => some { s with parent := .writeMessage, shared.counter := 10 }
  | .writeMessage => some { s with parent := .unlockData, shared.message := "parent says hi" }
  | .unlockData => some { s with parent := .writeByte, shared.mutex := none }
  | .writeByte =>
      if s.pipe.parentReads || s.pipe.childReads then
        some { s with parent := .closeWrite, pipe.bytes := s.pipe.bytes + 1 }
      else some { s with parent := .killed, pipe.parentWrites := false }
  | .closeWrite => some { s with parent := .setReady, pipe.parentWrites := false }
  | .setReady => some { s with parent := .spin, shared.parentReady := 1 }
  | .spin => if s.shared.childReady = 0 then some s else some { s with parent := .lockSignal }
  | .lockSignal =>
      if s.shared.mutex = none then
        some { s with parent := .storeTwenty, shared.mutex := some .parent }
      else none
  | .storeTwenty => some { s with parent := .signal, shared.counter := 20 }
  | .signal =>
      some { s with
        parent := .unlockSignal
        child := if s.child = .waiting true then .waiting false else s.child }
  | .unlockSignal => some { s with parent := .post, shared.mutex := none }
  | .post =>
      some { s with
        parent := .waitpid
        shared.sem := if semOk then s.shared.sem + 1 else s.shared.sem }
  | .waitpid =>
      match s.child with
      | .exited _ => some { s with parent := .report }
      | _ => none
  | .report => some { s with parent := .destroy, reported := some s.shared.counter }
  | .destroy => some { s with parent := .returned }
  | .returned => none
  | .killed => none

/-- `_exit`, which closes the ends that are still open. -/
def exitChild (success : Bool) (s : State) : State :=
  { s with child := .exited success, pipe.childReads := false, pipe.childWrites := false }

/-- The child's next step. -/
def childStep (semOk : Bool) (s : State) : Option State :=
  match s.child with
  | .closeWrite => some { s with child := .readByte, pipe.childWrites := false }
  | .readByte =>
      if 0 < s.pipe.bytes then
        some { s with child := .closeRead, pipe.bytes := s.pipe.bytes - 1 }
      -- at the end of the file `read` returns 0
      else if s.pipe.parentWrites || s.pipe.childWrites then none
      else some (exitChild false s)
  | .closeRead => some { s with child := .setReady, pipe.childReads := false }
  | .setReady => some { s with child := .lockRead, shared.childReady := 1 }
  | .lockRead =>
      if s.shared.mutex = none then
        some { s with child := .loadCounter, shared.mutex := some .child }
      else none
  | .loadCounter => some { s with child := .copyMessage, c := s.shared.counter }
  | .copyMessage => some { s with child := .unlockRead, msg := s.shared.message }
  | .unlockRead =>
      some { s with child := .lockWait, shared.mutex := none, got := some (s.c, s.msg) }
  | .lockWait =>
      if s.shared.mutex = none then some { s with child := .test, shared.mutex := some .child }
      else none
  | .test =>
      if s.shared.counter < 20 then
        some { s with child := .waiting true, shared.mutex := none }
      else some { s with child := .reload }
  | .waiting true => none
  | .waiting false =>
      if s.shared.mutex = none then some { s with child := .test, shared.mutex := some .child }
      else none
  | .reload => some { s with child := .unlockWait, awaited := some s.shared.counter }
  | .unlockWait => some { s with child := .semWait, shared.mutex := none }
  | .semWait =>
      if semOk then
        if 0 < s.shared.sem then some { s with child := .storeDone, shared.sem := s.shared.sem - 1 }
        else none
      else some { s with child := .storeDone }
  | .storeDone => some { s with child := .exit, shared.counter := 99 }
  | .exit => some (exitChild true s)
  | .exited _ => none

def next (semOk : Bool) : Action → State → Option State
  | .parent, s => parentStep semOk s
  | .child, s => childStep semOk s
  | .failWrite, s => if s.parent = .writeByte then some { s with parent := .closeWrite } else none
  | .failRead, s => if s.child = .readByte then some (exitChild false s) else none
  | .wake, s => if s.child = .waiting true then some { s with child := .waiting false } else none

def init : State := {}

/-! ## Where the two can be together -/

namespace Parent

/-- How far the parent has come. -/
def rank : Parent → ℕ
  | .closeRead => 0
  | .lockData => 1
  | .storeTen => 2
  | .writeMessage => 3
  | .unlockData => 4
  | .writeByte => 5
  | .closeWrite => 6
  | .setReady => 7
  | .spin => 8
  | .lockSignal => 9
  | .storeTwenty => 10
  | .signal => 11
  | .unlockSignal => 12
  | .post => 13
  | .waitpid => 14
  | .report => 15
  | .destroy => 16
  | .returned => 17
  | .killed => 18

/-- The parent is between a lock and its unlock. -/
def holds (p : Parent) : Bool :=
  p = .storeTen ∨ p = .writeMessage ∨ p = .unlockData ∨
    p = .storeTwenty ∨ p = .signal ∨ p = .unlockSignal

theorem holds_of_rank {p : Parent} (hge : 10 ≤ p.rank) (hle : p.rank ≤ 12) : p.holds = true := by
  cases p <;> simp_all [rank, holds]

end Parent

namespace Child

/-- How far the child has come; the loop around `pthread_cond_wait` is one place. -/
def rank : Child → ℕ
  | .closeWrite => 0
  | .readByte => 1
  | .closeRead => 2
  | .setReady => 3
  | .lockRead => 4
  | .loadCounter => 5
  | .copyMessage => 6
  | .unlockRead => 7
  | .lockWait => 8
  | .test => 9
  | .waiting _ => 9
  | .reload => 10
  | .unlockWait => 11
  | .semWait => 12
  | .storeDone => 13
  | .exit => 14
  | .exited _ => 15

/-- The child is between a lock and its unlock, and not in `pthread_cond_wait`. -/
def holds (c : Child) : Bool :=
  c = .loadCounter ∨ c = .copyMessage ∨ c = .unlockRead ∨ c = .test ∨ c = .reload ∨ c = .unlockWait

end Child

/-- What the five waits leave possible. -/
structure Synced (semOk : Bool) (p : Parent) (c : Child) : Prop where
  apart : p.holds = true → c.holds = false
  read : 1 < c.rank → 5 < p.rank
  flag : 8 < p.rank → 3 < c.rank
  twenty : 9 < c.rank → 12 < p.rank
  asleep : c = .waiting true → p.rank ≤ 11
  posted : semOk = true → 12 < c.rank → 13 < p.rank
  exited : 14 < p.rank → c = .exited true
  alive : p ≠ .killed
  success : c ≠ .exited false

/-- The shared region, by where the two are. -/
def sharedAt (semOk : Bool) (p : Parent) (c : Child) : Shared where
  parentReady := if 7 < p.rank then 1 else 0
  childReady := if 3 < c.rank then 1 else 0
  mutex := if p.holds then some .parent else if c.holds then some .child else none
  sem := if semOk = true ∧ 13 < p.rank ∧ c.rank ≤ 12 then 1 else 0
  counter := if 13 < c.rank then 99 else if 10 < p.rank then 20 else if 2 < p.rank then 10 else 0
  message := if 3 < p.rank then "parent says hi" else ""

/-- The pipe, by where the two are. -/
def pipeAt (p : Parent) (c : Child) : Pipe where
  bytes := if 5 < p.rank ∧ c.rank ≤ 1 then 1 else 0
  parentReads := decide (p.rank ≤ 0)
  parentWrites := decide (p.rank ≤ 6)
  childReads := decide (c.rank ≤ 2)
  childWrites := decide (c.rank ≤ 0)

/-- The two are at places that the waits allow, and share what is there at that point. -/
structure Placed (semOk : Bool) (s : State) : Prop where
  synced : Synced semOk s.parent s.child
  shared : s.shared = sharedAt semOk s.parent s.child
  pipe : s.pipe = pipeAt s.parent s.child

namespace Synced

variable {semOk : Bool} {p p' : Parent} {c c' : Child}

theorem parent_advance (h : Synced semOk p c) (hrank : p'.rank = p.rank + 1)
    (hapart : p'.holds = true → c.holds = false) (hflag : p'.rank = 9 → 3 < c.rank)
    (hasleep : p'.rank = 12 → c ≠ .waiting true) (hexited : p'.rank = 15 → c = .exited true)
    (halive : p' ≠ .killed) : Synced semOk p' c where
  apart := hapart
  read hc := (h.read hc).trans (by omega)
  flag hp := by
    rcases Nat.lt_or_ge 8 p.rank with hlt | hge
    · exact h.flag hlt
    · exact hflag (by omega)
  twenty hc := (h.twenty hc).trans (by omega)
  asleep hc := by
    have hle := h.asleep hc
    exact Nat.le_of_not_lt fun hlt => hasleep (by omega) hc
  posted hsem hc := (h.posted hsem hc).trans (by omega)
  exited hp := by
    rcases Nat.lt_or_ge 14 p.rank with hlt | hge
    · exact h.exited hlt
    · exact hexited (by omega)
  alive := halive
  success := h.success

theorem child_advance (h : Synced semOk p c) (hrank : c'.rank ≤ c.rank + 1) (hge : c.rank ≤ c'.rank)
    (hapart : c'.holds = true → p.holds = false) (hread : c'.rank = 2 → 5 < p.rank)
    (htwenty : c'.rank = 10 → 12 < p.rank) (hasleep : c' = .waiting true → p.rank ≤ 11)
    (hposted : semOk = true → c'.rank = 13 → 13 < p.rank) (hrunning : c ≠ .exited true)
    (hsuccess : c' ≠ .exited false) : Synced semOk p c' where
  apart hp := Bool.eq_false_iff.mpr fun hc => Bool.false_ne_true ((hapart hc).symm.trans hp)
  read hc := by
    rcases Nat.lt_or_ge 1 c.rank with hlt | hle
    · exact h.read hlt
    · exact hread (by omega)
  flag hp := (h.flag hp).trans_le hge
  twenty hc := by
    rcases Nat.lt_or_ge 9 c.rank with hlt | hle
    · exact h.twenty hlt
    · exact htwenty (by omega)
  asleep := hasleep
  posted hsem hc := by
    rcases Nat.lt_or_ge 12 c.rank with hlt | hle
    · exact h.posted hsem hlt
    · exact hposted hsem (by omega)
  exited hp := absurd (h.exited hp) hrunning
  alive := h.alive
  success := hsuccess

theorem rank_le_one (h : Synced semOk p c) (hp : p.rank ≤ 5) : c.rank ≤ 1 :=
  Nat.le_of_not_lt fun hlt => (h.read hlt).not_ge hp

theorem rank_le_nine (h : Synced semOk p c) (hp : p.rank ≤ 12) : c.rank ≤ 9 :=
  Nat.le_of_not_lt fun hlt => (h.twenty hlt).not_ge hp

theorem rank_le_eight (h : Synced semOk p c) (hc : c.rank ≤ 3) : p.rank ≤ 8 :=
  Nat.le_of_not_lt fun hlt => (h.flag hlt).not_ge hc

end Synced

theorem sharedAt_mutex {semOk : Bool} {p : Parent} {c : Child} :
    (sharedAt semOk p c).mutex = none ↔ p.holds = false ∧ c.holds = false := by
  cases hp : p.holds <;> cases hc : c.holds <;> simp [sharedAt, hp, hc]

namespace Placed

variable {semOk : Bool} {s s' : State}

theorem parent (h : Placed semOk s) (hstep : parentStep semOk s = some s') : Placed semOk s' := by
  obtain ⟨hsync, hshared, hpipe⟩ := h
  obtain ⟨p, c, sh, pp, cc, mm, got, aw, rep⟩ := s
  simp only at hsync hshared hpipe
  subst hshared hpipe
  cases p with
  | closeRead =>
      cases hstep
      refine ⟨hsync.parent_advance rfl nofun nofun nofun nofun nofun, ?_, ?_⟩
      · simp [sharedAt, Parent.rank, Parent.holds]
      · simp [pipeAt, Parent.rank]
  | lockData =>
      simp only [parentStep, sharedAt_mutex] at hstep
      split at hstep
      · next hfree =>
          cases hstep
          refine ⟨hsync.parent_advance rfl (fun _ => hfree.2) nofun nofun nofun nofun, ?_, ?_⟩
          · simp [sharedAt, Parent.rank, Parent.holds]
          · simp [pipeAt, Parent.rank]
      · cases hstep
  | storeTen =>
      have hle := hsync.rank_le_nine (by simp [Parent.rank])
      cases hstep
      refine ⟨hsync.parent_advance rfl (fun _ => hsync.apart rfl) nofun nofun nofun nofun, ?_, ?_⟩
      · simp [sharedAt, Parent.rank, Parent.holds]
        omega
      · simp [pipeAt, Parent.rank]
  | writeMessage =>
      cases hstep
      refine ⟨hsync.parent_advance rfl (fun _ => hsync.apart rfl) nofun nofun nofun nofun, ?_, ?_⟩
      · simp [sharedAt, Parent.rank, Parent.holds]
      · simp [pipeAt, Parent.rank]
  | unlockData =>
      have hfree := hsync.apart rfl
      cases hstep
      refine ⟨hsync.parent_advance rfl nofun nofun nofun nofun nofun, ?_, ?_⟩
      · simp [sharedAt, Parent.rank, Parent.holds, hfree]
      · simp [pipeAt, Parent.rank]
  | writeByte =>
      have hle := hsync.rank_le_one (Nat.le_refl 5)
      have hopen : c.rank ≤ 2 := hle.trans (Nat.le_succ 1)
      simp only [parentStep, pipeAt, hopen, decide_true, Bool.or_true, if_true] at hstep
      cases hstep
      refine ⟨hsync.parent_advance rfl nofun nofun nofun nofun nofun, ?_, ?_⟩
      · simp [sharedAt, Parent.rank, Parent.holds]
      · simp [pipeAt, Parent.rank, hle, hopen]
  | closeWrite =>
      cases hstep
      refine ⟨hsync.parent_advance rfl nofun nofun nofun nofun nofun, ?_, ?_⟩
      · simp [sharedAt, Parent.rank, Parent.holds]
      · simp [pipeAt, Parent.rank]
  | setReady =>
      cases hstep
      refine ⟨hsync.parent_advance rfl nofun nofun nofun nofun nofun, ?_, ?_⟩
      · simp [sharedAt, Parent.rank, Parent.holds]
      · simp [pipeAt, Parent.rank]
  | spin =>
      simp only [parentStep] at hstep
      split at hstep
      · cases hstep
        exact ⟨hsync, rfl, rfl⟩
      · next hflag =>
          -- the flag is up
          have hlt : 3 < c.rank :=
            Nat.lt_of_not_le fun hle => hflag (by simp [sharedAt, hle.not_gt])
          cases hstep
          refine ⟨hsync.parent_advance rfl nofun (fun _ => hlt) nofun nofun nofun, ?_, ?_⟩
          · simp [sharedAt, Parent.rank, Parent.holds]
          · simp [pipeAt, Parent.rank]
  | lockSignal =>
      simp only [parentStep, sharedAt_mutex] at hstep
      split at hstep
      · next hfree =>
          cases hstep
          refine ⟨hsync.parent_advance rfl (fun _ => hfree.2) nofun nofun nofun nofun, ?_, ?_⟩
          · simp [sharedAt, Parent.rank, Parent.holds]
          · simp [pipeAt, Parent.rank]
      · cases hstep
  | storeTwenty =>
      have hle := hsync.rank_le_nine (by simp [Parent.rank])
      cases hstep
      refine ⟨hsync.parent_advance rfl (fun _ => hsync.apart rfl) nofun nofun nofun nofun, ?_, ?_⟩
      · simp [sharedAt, Parent.rank, Parent.holds]
        omega
      · simp [pipeAt, Parent.rank]
  | signal =>
      cases hstep
      -- a child that is asleep is woken up
      by_cases hasleep : c = .waiting true
      · subst hasleep
        refine ⟨?_, ?_, ?_⟩
        · simp only [if_true]
          exact ⟨fun _ => rfl, fun _ => by simp [Parent.rank], fun _ => by simp [Child.rank],
            nofun, nofun, nofun, nofun, nofun, nofun⟩
        · simp [sharedAt, Parent.rank, Parent.holds, Child.rank]
        · simp [pipeAt, Parent.rank, Child.rank]
      · simp only [hasleep, if_false]
        refine ⟨hsync.parent_advance rfl (fun _ => hsync.apart rfl) nofun (fun _ => hasleep)
          nofun nofun, ?_, ?_⟩
        · simp [sharedAt, Parent.rank, Parent.holds]
        · simp [pipeAt, Parent.rank]
  | unlockSignal =>
      have hfree := hsync.apart rfl
      cases hstep
      refine ⟨hsync.parent_advance rfl nofun nofun nofun nofun nofun, ?_, ?_⟩
      · simp [sharedAt, Parent.rank, Parent.holds, hfree]
      · simp [pipeAt, Parent.rank]
  | post =>
      have hle : semOk = true → c.rank ≤ 12 := fun hsem =>
        Nat.le_of_not_lt fun hlt => absurd (hsync.posted hsem hlt) (Nat.lt_irrefl 13)
      cases hstep
      refine ⟨hsync.parent_advance rfl nofun nofun nofun nofun nofun, ?_, ?_⟩
      · simp [sharedAt, Parent.rank, Parent.holds]
        cases semOk <;> simp [hle]
      · simp [pipeAt, Parent.rank]
  | waitpid =>
      simp only [parentStep] at hstep
      split at hstep
      · next success =>
          have hsuccess := hsync.success
          cases success
          case false => exact absurd rfl hsuccess
          cases hstep
          refine ⟨hsync.parent_advance rfl nofun nofun nofun (fun _ => rfl) nofun, ?_, ?_⟩
          · simp [sharedAt, Parent.rank, Parent.holds]
          · simp [pipeAt, Parent.rank]
      · cases hstep
  | report =>
      cases hstep
      refine ⟨hsync.parent_advance rfl nofun nofun nofun nofun nofun, ?_, ?_⟩
      · simp [sharedAt, Parent.rank, Parent.holds]
      · simp [pipeAt, Parent.rank]
  | destroy =>
      cases hstep
      refine ⟨hsync.parent_advance rfl nofun nofun nofun nofun nofun, ?_, ?_⟩
      · simp [sharedAt, Parent.rank, Parent.holds]
      · simp [pipeAt, Parent.rank]
  | returned => cases hstep
  | killed => cases hstep

theorem child (h : Placed semOk s) (hstep : childStep semOk s = some s') : Placed semOk s' := by
  obtain ⟨hsync, hshared, hpipe⟩ := h
  obtain ⟨p, c, sh, pp, cc, mm, got, aw, rep⟩ := s
  simp only at hsync hshared hpipe
  subst hshared hpipe
  -- while the child has the mutex, the parent has not
  have hfree : c.holds = true → p.holds = false := fun hc =>
    Bool.eq_false_iff.mpr fun hp => Bool.false_ne_true ((hsync.apart hp).symm.trans hc)
  cases c with
  | closeWrite =>
      cases hstep
      refine ⟨hsync.child_advance (Nat.le_refl 1) (Nat.zero_le 1) nofun nofun nofun nofun nofun
        nofun nofun, ?_, ?_⟩
      · simp [sharedAt, Child.rank, Child.holds]
      · simp [pipeAt, Child.rank]
  | readByte =>
      have hle : p.rank ≤ 8 := hsync.rank_le_eight (by simp [Child.rank])
      simp only [childStep] at hstep
      split at hstep
      · next hbyte =>
          -- there is a byte
          have hlt : 5 < p.rank :=
            Nat.lt_of_not_le fun hle => by simp [pipeAt, hle.not_gt] at hbyte
          cases hstep
          refine ⟨hsync.child_advance (Nat.le_refl 2) (Nat.le_succ 1) nofun (fun _ => hlt) nofun
            nofun nofun nofun nofun, ?_, ?_⟩
          · simp [sharedAt, Child.rank, Child.holds]
          · simp [pipeAt, Child.rank, hlt]
      · next hbyte =>
          -- and there will be one as long as the parent has not closed its end
          have hopen : p.rank ≤ 6 := by
            by_contra hgt
            have hlt : 5 < p.rank := by omega
            exact hbyte (by simp [pipeAt, Child.rank, hlt])
          simp only [pipeAt, hopen, decide_true, Bool.true_or, if_true] at hstep
          cases hstep
  | closeRead =>
      cases hstep
      refine ⟨hsync.child_advance (Nat.le_refl 3) (Nat.le_succ 2) nofun nofun nofun nofun nofun
        nofun nofun, ?_, ?_⟩
      · simp [sharedAt, Child.rank, Child.holds]
      · simp [pipeAt, Child.rank]
  | setReady =>
      cases hstep
      refine ⟨hsync.child_advance (Nat.le_refl 4) (Nat.le_succ 3) nofun nofun nofun nofun nofun
        nofun nofun, ?_, ?_⟩
      · simp [sharedAt, Child.rank, Child.holds]
      · simp [pipeAt, Child.rank]
  | lockRead =>
      simp only [childStep, sharedAt_mutex] at hstep
      split at hstep
      · next hmutex =>
          cases hstep
          refine ⟨hsync.child_advance (Nat.le_refl 5) (Nat.le_succ 4) (fun _ => hmutex.1) nofun
            nofun nofun nofun nofun nofun, ?_, ?_⟩
          · simp [sharedAt, Child.rank, Child.holds, hmutex.1]
          · simp [pipeAt, Child.rank]
      · cases hstep
  | loadCounter =>
      cases hstep
      refine ⟨hsync.child_advance (Nat.le_refl 6) (Nat.le_succ 5) hfree nofun nofun nofun nofun
        nofun nofun, ?_, ?_⟩
      · simp [sharedAt, Child.rank, Child.holds]
      · simp [pipeAt, Child.rank]
  | copyMessage =>
      cases hstep
      refine ⟨hsync.child_advance (Nat.le_refl 7) (Nat.le_succ 6) hfree nofun nofun nofun nofun
        nofun nofun, ?_, ?_⟩
      · simp [sharedAt, Child.rank, Child.holds]
      · simp [pipeAt, Child.rank]
  | unlockRead =>
      cases hstep
      refine ⟨hsync.child_advance (Nat.le_refl 8) (Nat.le_succ 7) nofun nofun nofun nofun nofun
        nofun nofun, ?_, ?_⟩
      · simp [sharedAt, Child.rank, Child.holds, hfree rfl]
      · simp [pipeAt, Child.rank]
  | lockWait =>
      simp only [childStep, sharedAt_mutex] at hstep
      split at hstep
      · next hmutex =>
          cases hstep
          refine ⟨hsync.child_advance (Nat.le_refl 9) (Nat.le_succ 8) (fun _ => hmutex.1) nofun
            nofun nofun nofun nofun nofun, ?_, ?_⟩
          · simp [sharedAt, Child.rank, Child.holds, hmutex.1]
          · simp [pipeAt, Child.rank]
      · cases hstep
  | test =>
      have hfree := hfree rfl
      simp only [childStep] at hstep
      split at hstep
      · next hlt =>
          have hle : p.rank ≤ 11 := Nat.le_of_not_lt fun hgt => by
            simp [sharedAt, Child.rank, (Nat.lt_of_succ_lt hgt)] at hlt
          cases hstep
          refine ⟨hsync.child_advance (Nat.le_succ 9) (Nat.le_refl 9) nofun nofun nofun
            (fun _ => hle) nofun nofun nofun, ?_, ?_⟩
          · simp [sharedAt, Child.rank, Child.holds, hfree]
          · simp [pipeAt, Child.rank]
      · next hge =>
          -- the counter is read under the mutex, so not between the store of 20 and the unlock
          have hlt : 12 < p.rank := by
            by_contra hle
            by_cases hten : 10 < p.rank
            · have hheld := Parent.holds_of_rank hten.le (Nat.le_of_not_lt hle)
              exact Bool.false_ne_true (hfree.symm.trans hheld)
            · refine hge ?_
              simp [sharedAt, Child.rank, hten]
              split <;> simp
          cases hstep
          refine ⟨hsync.child_advance (Nat.le_refl 10) (Nat.le_succ 9) (fun _ => hfree) nofun
            (fun _ => hlt) nofun nofun nofun nofun, ?_, ?_⟩
          · simp [sharedAt, Child.rank, Child.holds, hfree]
          · simp [pipeAt, Child.rank]
  | waiting asleep =>
      cases asleep
      case true => cases hstep
      simp only [childStep, sharedAt_mutex] at hstep
      split at hstep
      · next hmutex =>
          cases hstep
          refine ⟨hsync.child_advance (Nat.le_succ 9) (Nat.le_refl 9) (fun _ => hmutex.1) nofun
            nofun nofun nofun nofun nofun, ?_, ?_⟩
          · simp [sharedAt, Child.rank, Child.holds, hmutex.1]
          · simp [pipeAt, Child.rank]
      · cases hstep
  | reload =>
      cases hstep
      refine ⟨hsync.child_advance (Nat.le_refl 11) (Nat.le_succ 10) hfree nofun nofun nofun nofun
        nofun nofun, ?_, ?_⟩
      · simp [sharedAt, Child.rank, Child.holds]
      · simp [pipeAt, Child.rank]
  | unlockWait =>
      cases hstep
      refine ⟨hsync.child_advance (Nat.le_refl 12) (Nat.le_succ 11) nofun nofun nofun nofun nofun
        nofun nofun, ?_, ?_⟩
      · simp [sharedAt, Child.rank, Child.holds, hfree rfl]
      · simp [pipeAt, Child.rank]
  | semWait =>
      cases semOk with
      | true =>
          simp only [childStep, if_true] at hstep
          split at hstep
          · next hsem =>
              have hlt : 13 < p.rank := Nat.lt_of_not_le fun hle => by
                simp [sharedAt, hle.not_gt] at hsem
              cases hstep
              refine ⟨hsync.child_advance (Nat.le_refl 13) (Nat.le_succ 12) nofun nofun nofun
                nofun (fun _ _ => hlt) nofun nofun, ?_, ?_⟩
              · simp [sharedAt, Child.rank, Child.holds, hlt]
              · simp [pipeAt, Child.rank]
          · cases hstep
      | false =>
          cases hstep
          refine ⟨hsync.child_advance (Nat.le_refl 13) (Nat.le_succ 12) nofun nofun nofun nofun
            nofun nofun nofun, ?_, ?_⟩
          · simp [sharedAt, Child.rank, Child.holds]
          · simp [pipeAt, Child.rank]
  | storeDone =>
      cases hstep
      refine ⟨hsync.child_advance (Nat.le_refl 14) (Nat.le_succ 13) nofun nofun nofun nofun nofun
        nofun nofun, ?_, ?_⟩
      · simp [sharedAt, Child.rank, Child.holds]
      · simp [pipeAt, Child.rank]
  | exit =>
      cases hstep
      refine ⟨hsync.child_advance (Nat.le_refl 15) (Nat.le_succ 14) nofun nofun nofun nofun nofun
        nofun nofun, ?_, ?_⟩
      · simp [exitChild, sharedAt, Child.rank, Child.holds]
      · simp [exitChild, pipeAt, Child.rank]
  | exited success => cases hstep

theorem wake (h : Placed semOk s) (hc : s.child = .waiting true) :
    Placed semOk { s with child := .waiting false } := by
  obtain ⟨hsync, hshared, hpipe⟩ := h
  rw [hc] at hsync hshared hpipe
  have hwoken : Synced semOk s.parent (.waiting false) :=
    hsync.child_advance (Nat.le_succ 9) (Nat.le_refl 9) nofun nofun nofun nofun nofun nofun nofun
  refine ⟨hwoken, ?_, ?_⟩
  · rw [hshared]
    simp [sharedAt, Child.rank, Child.holds]
  · rw [hpipe]
    simp [pipeAt, Child.rank]

end Placed

/-! ## What they print -/

/-- What the two read where they are. -/
structure Readable (s : State) : Prop where
  load : s.child = .loadCounter → s.shared.counter = 10 ∨ s.shared.counter = 20
  copy : s.child = .copyMessage → s.shared.message = "parent says hi"
  reload : s.child = .reload → s.shared.counter = 20
  report : s.parent = .report → s.shared.counter = 99

theorem Placed.readable {semOk : Bool} {s : State} (h : Placed semOk s) : Readable s := by
  obtain ⟨hsync, hshared, -⟩ := h
  constructor
  case load =>
    -- the child has read, so the parent has stored 10
    intro hat
    have hwritten : 5 < s.parent.rank := hsync.read (by simp [hat, Child.rank])
    have hten : 2 < s.parent.rank := by omega
    rw [hshared, hat]
    by_cases htwenty : 10 < s.parent.rank
    · exact .inr (by simp [sharedAt, Child.rank, htwenty])
    · exact .inl (by simp [sharedAt, Child.rank, htwenty, hten])
  case copy =>
    intro hat
    have hwritten : 5 < s.parent.rank := hsync.read (by simp [hat, Child.rank])
    rw [hshared]
    exact if_pos (by omega)
  case reload =>
    intro hat
    have hsignalled : 12 < s.parent.rank := hsync.twenty (by simp [hat, Child.rank])
    have htwenty : 10 < s.parent.rank := by omega
    rw [hshared, hat]
    simp [sharedAt, Child.rank, htwenty]
  case report =>
    -- the last thing that the child did was to store 99
    intro hat
    have hexited : s.child = .exited true := hsync.exited (by simp [hat, Parent.rank])
    rw [hshared, hexited]
    simp [sharedAt, Child.rank]

/-- What the two have read so far. -/
structure Printed (s : State) : Prop where
  c : 5 < s.child.rank → s.child ≠ .exited false → s.c = 10 ∨ s.c = 20
  msg : 6 < s.child.rank → s.child ≠ .exited false → s.msg = "parent says hi"
  got : ∀ x ∈ s.got, (x.1 = 10 ∨ x.1 = 20) ∧ x.2 = "parent says hi"
  awaited : ∀ x ∈ s.awaited, x = 20
  reported : ∀ x ∈ s.reported, x = 99

theorem parentStep_frame {semOk : Bool} {s s' : State} (hstep : parentStep semOk s = some s') :
    (s'.child = s.child ∨ s.child = .waiting true ∧ s'.child = .waiting false) ∧
      s'.c = s.c ∧ s'.msg = s.msg ∧ s'.got = s.got ∧ s'.awaited = s.awaited ∧
      (s'.reported = s.reported ∨ s.parent = .report ∧ s'.reported = some s.shared.counter) := by
  unfold parentStep at hstep
  split at hstep
  case h_12 =>
    -- the signal
    cases hstep
    by_cases hwaits : s.child = .waiting true
    · exact ⟨.inr ⟨hwaits, if_pos hwaits⟩, rfl, rfl, rfl, rfl, .inl rfl⟩
    · exact ⟨.inl (if_neg hwaits), rfl, rfl, rfl, rfl, .inl rfl⟩
  case h_16 hat =>
    cases hstep
    exact ⟨.inl rfl, rfl, rfl, rfl, rfl, .inr ⟨hat, rfl⟩⟩
  all_goals try split at hstep
  all_goals cases hstep
  all_goals exact ⟨.inl rfl, rfl, rfl, rfl, rfl, .inl rfl⟩

theorem childStep_frame {semOk : Bool} {s s' : State} (hstep : childStep semOk s = some s') :
    s.child ≠ .exited false ∧ (s'.child ≠ .exited false → s'.child.rank ≤ s.child.rank + 1) ∧
      s'.reported = s.reported ∧
      (s'.c = s.c ∧ s.child ≠ .loadCounter ∨ s.child = .loadCounter ∧ s'.c = s.shared.counter) ∧
      (s'.msg = s.msg ∧ s.child ≠ .copyMessage ∨
        s.child = .copyMessage ∧ s'.msg = s.shared.message) ∧
      (s'.got = s.got ∨ s.child = .unlockRead ∧ s'.got = some (s.c, s.msg)) ∧
      (s'.awaited = s.awaited ∨ s.child = .reload ∧ s'.awaited = some s.shared.counter) := by
  obtain ⟨p, place, sh, pi, c, msg, got, awaited, reported⟩ := s
  cases place with
  | loadCounter =>
    cases hstep
    exact ⟨nofun, fun _ => le_rfl, rfl, .inr ⟨rfl, rfl⟩, .inl ⟨rfl, nofun⟩, .inl rfl, .inl rfl⟩
  | copyMessage =>
    cases hstep
    exact ⟨nofun, fun _ => le_rfl, rfl, .inl ⟨rfl, nofun⟩, .inr ⟨rfl, rfl⟩, .inl rfl, .inl rfl⟩
  | unlockRead =>
    cases hstep
    exact ⟨nofun, fun _ => le_rfl, rfl, .inl ⟨rfl, nofun⟩, .inl ⟨rfl, nofun⟩, .inr ⟨rfl, rfl⟩,
      .inl rfl⟩
  | reload =>
    cases hstep
    exact ⟨nofun, fun _ => le_rfl, rfl, .inl ⟨rfl, nofun⟩, .inl ⟨rfl, nofun⟩, .inl rfl,
      .inr ⟨rfl, rfl⟩⟩
  | exited success => cases hstep
  | waiting asleep =>
    cases asleep with
    | true => cases hstep
    | false =>
      simp only [childStep] at hstep
      split at hstep
      case isFalse => cases hstep
      case isTrue =>
        cases hstep
        exact ⟨nofun, fun _ => by simp [Child.rank], rfl, .inl ⟨rfl, nofun⟩, .inl ⟨rfl, nofun⟩,
          .inl rfl, .inl rfl⟩
  | closeWrite | closeRead | setReady | unlockWait | storeDone | exit =>
    cases hstep
    exact ⟨nofun, fun _ => le_rfl, rfl, .inl ⟨rfl, nofun⟩, .inl ⟨rfl, nofun⟩, .inl rfl, .inl rfl⟩
  | readByte =>
    simp only [childStep] at hstep
    split at hstep
    · cases hstep
      exact ⟨nofun, fun _ => le_rfl, rfl, .inl ⟨rfl, nofun⟩, .inl ⟨rfl, nofun⟩, .inl rfl, .inl rfl⟩
    · split at hstep
      · cases hstep
      · -- the end of the file
        cases hstep
        exact ⟨nofun, fun hne => absurd rfl hne, rfl, .inl ⟨rfl, nofun⟩, .inl ⟨rfl, nofun⟩,
          .inl rfl, .inl rfl⟩
  | lockRead | lockWait | test | semWait =>
    simp only [childStep] at hstep
    split at hstep
    all_goals try split at hstep
    all_goals cases hstep
    all_goals
      exact ⟨nofun, fun _ => by simp [Child.rank], rfl, .inl ⟨rfl, nofun⟩, .inl ⟨rfl, nofun⟩,
        .inl rfl, .inl rfl⟩

namespace Child

theorem eq_loadCounter {c : Child} (h : c.rank = 5) : c = .loadCounter := by
  cases c <;> simp_all [rank]

theorem eq_copyMessage {c : Child} (h : c.rank = 6) : c = .copyMessage := by
  cases c <;> simp_all [rank]

end Child

namespace Printed

variable {semOk : Bool} {s s' : State}

theorem parent (h : Printed s) (hread : Readable s) (hstep : parentStep semOk s = some s') :
    Printed s' := by
  obtain ⟨hchild, hc, hmsg, hgot, hawaited, hreported⟩ := parentStep_frame hstep
  -- a child that is woken up has read the two long ago
  have hrank : ∀ n, n < s'.child.rank → s'.child ≠ .exited false →
      n < s.child.rank ∧ s.child ≠ .exited false := by
    intro n hn hne
    rcases hchild with heq | ⟨heq, heq'⟩
    · rw [heq] at hn hne
      exact ⟨hn, hne⟩
    · rw [heq'] at hn
      rw [heq]
      exact ⟨hn, nofun⟩
  constructor
  case c => exact fun hn hne => hc ▸ h.c (hrank 5 hn hne).1 (hrank 5 hn hne).2
  case msg => exact fun hn hne => hmsg ▸ h.msg (hrank 6 hn hne).1 (hrank 6 hn hne).2
  case got => exact hgot ▸ h.got
  case awaited => exact hawaited ▸ h.awaited
  case reported =>
    rcases hreported with heq | ⟨hat, heq⟩
    · exact heq ▸ h.reported
    · rw [heq]
      rintro x ⟨⟩
      exact hread.report hat

theorem child (h : Printed s) (hread : Readable s) (hstep : childStep semOk s = some s') :
    Printed s' := by
  obtain ⟨hne, hrank, hreported, hc, hmsg, hgot, hawaited⟩ := childStep_frame hstep
  constructor
  case c =>
    intro hn hne'
    rcases hc with ⟨heq, hat⟩ | ⟨hat, heq⟩
    · have hle := hrank hne'
      refine heq ▸ h.c (Nat.lt_of_le_of_ne (by omega) fun h5 => hat ?_) hne
      exact Child.eq_loadCounter h5.symm
    · exact heq ▸ hread.load hat
  case msg =>
    intro hn hne'
    rcases hmsg with ⟨heq, hat⟩ | ⟨hat, heq⟩
    · have hle := hrank hne'
      refine heq ▸ h.msg (Nat.lt_of_le_of_ne (by omega) fun h6 => hat ?_) hne
      exact Child.eq_copyMessage h6.symm
    · exact heq ▸ hread.copy hat
  case got =>
    rcases hgot with heq | ⟨hat, heq⟩
    · exact heq ▸ h.got
    · rw [heq]
      rintro x ⟨⟩
      have h7 : s.child.rank = 7 := by rw [hat]; rfl
      exact ⟨h.c (by omega) hne, h.msg (by omega) hne⟩
  case awaited =>
    rcases hawaited with heq | ⟨hat, heq⟩
    · exact heq ▸ h.awaited
    · rw [heq]
      rintro x ⟨⟩
      exact hread.reload hat
  case reported => exact hreported ▸ h.reported

end Printed

/-! ## When a call fails -/

/-- The flag that the parent waits for will not be set. -/
structure Lost (s : State) : Prop where
  flag : s.shared.childReady = 0
  parent : s.parent.rank ≤ 8 ∨ s.parent = .killed
  child : s.child = .exited false ∨ s.child.rank ≤ 1 ∧ s.pipe.bytes = 0 ∧ 5 < s.parent.rank

namespace Lost

variable {semOk : Bool} {s s' : State}

theorem child_ne (h : Lost s) {c : Child} (hne : c ≠ .exited false) (hlt : 1 < c.rank) :
    s.child ≠ c := by
  rintro rfl
  rcases h.child with heq | ⟨hle, -⟩
  · exact hne heq
  · exact absurd hle hlt.not_ge

theorem parent_ne (h : Lost s) {p : Parent} (hne : p ≠ .killed) (hlt : 8 < p.rank) :
    s.parent ≠ p := by
  rintro rfl
  rcases h.parent with hle | heq
  · exact absurd hle hlt.not_ge
  · exact hne heq

theorem readable (h : Lost s) : Readable s := by
  constructor
  case load => exact fun hat => absurd hat (h.child_ne nofun (by simp [Child.rank]))
  case copy => exact fun hat => absurd hat (h.child_ne nofun (by simp [Child.rank]))
  case reload => exact fun hat => absurd hat (h.child_ne nofun (by simp [Child.rank]))
  case report => exact fun hat => absurd hat (h.parent_ne nofun (by simp [Parent.rank]))

theorem child_holds (h : Lost s) : s.child.holds = false := by
  rcases h.child with heq | ⟨hle, -⟩
  · rw [heq]
    rfl
  · cases hc : s.child <;> simp_all [Child.rank, Child.holds]

/-- The parent can come as far as its loop on the flag, or die in `write`. -/
theorem parentStep (h : Lost s) (hstep : ForkMmapIpc.parentStep semOk s = some s') : Lost s' := by
  obtain ⟨hflag, hparent, hchild⟩ := h
  obtain ⟨p, c, sh, pp, cc, mm, got, aw, rep⟩ := s
  simp only at hflag hparent hchild
  -- before the parent writes, the child can only have exited
  have hexited : p.rank ≤ 5 → c = .exited false := by
    intro hle
    rcases hchild with heq | ⟨-, -, hlt⟩
    · exact heq
    · exact absurd hlt hle.not_gt
  cases p with
  | closeRead | storeTen | writeMessage | unlockData =>
      have hgone := hexited (by simp [Parent.rank])
      cases hstep
      exact ⟨hflag, .inl (by simp [Parent.rank]), .inl hgone⟩
  | lockData =>
      have hgone := hexited (by simp [Parent.rank])
      obtain ⟨-, hs'⟩ := Option.ite_none_right_eq_some.mp hstep
      cases hs'
      exact ⟨hflag, .inl (by simp [Parent.rank]), .inl hgone⟩
  | writeByte =>
      have hgone := hexited (Nat.le_refl 5)
      simp only [ForkMmapIpc.parentStep] at hstep
      split at hstep
      · cases hstep
        exact ⟨hflag, .inl (by simp [Parent.rank]), .inl hgone⟩
      · cases hstep
        exact ⟨hflag, .inr rfl, .inl hgone⟩
  | closeWrite | setReady =>
      cases hstep
      refine ⟨hflag, .inl (by simp [Parent.rank]), hchild.imp_right ?_⟩
      rintro ⟨hle, hbytes, -⟩
      exact ⟨hle, hbytes, by simp [Parent.rank]⟩
  | spin =>
      simp only [ForkMmapIpc.parentStep, if_pos hflag] at hstep
      cases hstep
      exact ⟨hflag, hparent, hchild⟩
  | lockSignal | storeTwenty | signal | unlockSignal | post | waitpid | report | destroy =>
      -- the parent is not past its loop
      have hle := hparent.resolve_right nofun
      simp [Parent.rank] at hle
  | returned | killed => cases hstep

/-- The child can come as far as its `read`, where no byte is to come. -/
theorem childStep (h : Lost s) (hstep : ForkMmapIpc.childStep semOk s = some s') : Lost s' := by
  obtain ⟨hflag, hparent, hchild⟩ := h
  obtain ⟨p, c, sh, pp, cc, mm, got, aw, rep⟩ := s
  simp only at hflag hparent hchild
  rcases hchild with rfl | ⟨hle, hbytes, hwritten⟩
  · cases hstep
  · cases c with
    | closeWrite =>
        cases hstep
        exact ⟨hflag, hparent, .inr ⟨by simp [Child.rank], hbytes, hwritten⟩⟩
    | readByte =>
        have hnone : ¬ 0 < pp.bytes := hbytes ▸ Nat.lt_irrefl 0
        simp only [ForkMmapIpc.childStep, if_neg hnone] at hstep
        split at hstep
        · cases hstep
        · cases hstep
          exact ⟨hflag, hparent, .inl rfl⟩
    | closeRead | setReady | lockRead | loadCounter | copyMessage | unlockRead | lockWait | test |
        waiting | reload | unlockWait | semWait | storeDone | exit | exited =>
        simp [Child.rank] at hle

theorem step (h : Lost s) {a : Action} (hstep : next semOk a s = some s') : Lost s' := by
  cases a with
  | parent => exact h.parentStep hstep
  | child => exact h.childStep hstep
  | failWrite =>
      obtain ⟨hat, hs'⟩ := Option.ite_none_right_eq_some.mp hstep
      cases hs'
      refine ⟨h.flag, .inl (by simp [Parent.rank]), .inl ?_⟩
      rcases h.child with heq | ⟨-, -, hlt⟩
      · exact heq
      · simp [hat, Parent.rank] at hlt
  | failRead =>
      obtain ⟨-, hs'⟩ := Option.ite_none_right_eq_some.mp hstep
      cases hs'
      exact ⟨h.flag, h.parent, .inl rfl⟩
  | wake =>
      obtain ⟨hat, -⟩ := Option.ite_none_right_eq_some.mp hstep
      exact absurd hat (h.child_ne nofun (by simp [Child.rank]))

end Lost

/-- The steps that a failed call takes. -/
def Failed (a : Action) : Prop := a = .failWrite ∨ a = .failRead

theorem Placed.step {semOk : Bool} {s s' : State} (h : Placed semOk s) {a : Action}
    (hstep : next semOk a s = some s') (hok : ¬ Failed a) : Placed semOk s' := by
  cases a
  case parent => exact h.parent hstep
  case child => exact h.child hstep
  case wake =>
    simp only [next] at hstep
    split at hstep
    case isTrue hc => exact Option.some.inj hstep ▸ h.wake hc
    case isFalse => cases hstep
  case failWrite => exact absurd (.inl rfl) hok
  case failRead => exact absurd (.inr rfl) hok

/-- The byte is on its way only once the parent has written, and the flag is set only
once the child has read. -/
theorem Placed.lost {semOk : Bool} {s s' : State} (h : Placed semOk s) {a : Action}
    (hstep : next semOk a s = some s') (hfail : Failed a) : Lost s' := by
  obtain ⟨hsync, hshared, hpipe⟩ := h
  rcases hfail with rfl | rfl
  · obtain ⟨hat, hs'⟩ := Option.ite_none_right_eq_some.mp hstep
    cases hs'
    have hchild : s.child.rank ≤ 1 := hsync.rank_le_one (by simp [hat, Parent.rank])
    refine ⟨?_, .inl (by simp [Parent.rank]), .inr ⟨hchild, ?_, by simp [Parent.rank]⟩⟩
    · show s.shared.childReady = 0
      rw [hshared]
      exact if_neg (by omega)
    · show s.pipe.bytes = 0
      rw [hpipe, hat]
      simp [pipeAt, Parent.rank]
  · obtain ⟨hat, hs'⟩ := Option.ite_none_right_eq_some.mp hstep
    cases hs'
    have hparent : s.parent.rank ≤ 8 := hsync.rank_le_eight (by simp [hat, Child.rank])
    refine ⟨?_, .inl hparent, .inl rfl⟩
    show s.shared.childReady = 0
    rw [hshared, hat]
    simp [sharedAt, Child.rank]

/-! ## From every state -/

namespace Child

/-- The steps that are left to the child, if it is woken up in time. -/
def left : Child → ℕ
  | .closeWrite => 17
  | .readByte => 16
  | .closeRead => 15
  | .setReady => 14
  | .lockRead => 13
  | .loadCounter => 12
  | .copyMessage => 11
  | .unlockRead => 10
  | .lockWait => 9
  | .waiting false => 8
  | .test => 7
  | .waiting true => 6
  | .reload => 5
  | .unlockWait => 4
  | .semWait => 3
  | .storeDone => 2
  | .exit => 1
  | .exited _ => 0

theorem left_le (c : Child) : c.left ≤ 17 := by
  rcases c with _ | _ | _ | _ | _ | _ | _ | _ | _ | _ | ⟨_ | _⟩ | _ | _ | _ | _ | _ | _ <;>
    simp [left]

end Child

/-- The parent's `pthread_cond_signal` may put the child back by two steps. -/
def distance (s : State) : ℕ := 24 * (18 - s.parent.rank) + s.child.left

def Finished (s : State) : Prop := s.parent = .returned ∧ s.child = .exited true

theorem Placed.child_moves {semOk : Bool} {s : State} (h : Placed semOk s)
    (hread : s.child = .readByte → 5 < s.parent.rank)
    (hfree : s.child.holds = false → s.parent.holds = false)
    (hasleep : s.child ≠ .waiting true)
    (hsem : semOk = true → s.child = .semWait → 13 < s.parent.rank)
    (hexit : s.child ≠ .exited true) :
    ∃ s', next semOk .child s = some s' ∧ distance s' < distance s := by
  obtain ⟨hsync, hshared, hpipe⟩ := h
  have hsuccess := hsync.success
  have hmove : ∀ s', childStep semOk s = some s' → s'.parent = s.parent →
      s'.child.left < s.child.left →
        ∃ s', next semOk .child s = some s' ∧ distance s' < distance s := by
    intro s' hstep hparent hleft
    refine ⟨s', hstep, ?_⟩
    rw [distance, distance, hparent]
    exact Nat.add_lt_add_left hleft _
  obtain ⟨p, c, sh, pp, cc, mm, got, aw, rep⟩ := s
  simp only at *
  subst hshared hpipe
  cases c with
  | closeWrite | closeRead | setReady | loadCounter | copyMessage | unlockRead | reload |
      unlockWait | storeDone | exit =>
      exact hmove _ rfl rfl (Nat.lt_succ_self _)
  | readByte =>
      have hbyte : 0 < (pipeAt p .readByte).bytes := by simp [pipeAt, Child.rank, hread rfl]
      exact hmove _ (if_pos hbyte) rfl (Nat.lt_succ_self _)
  | lockRead =>
      have hmutex : (sharedAt semOk p .lockRead).mutex = none := sharedAt_mutex.mpr ⟨hfree rfl, rfl⟩
      exact hmove _ (if_pos hmutex) rfl (Nat.lt_succ_self _)
  | lockWait =>
      have hmutex : (sharedAt semOk p .lockWait).mutex = none := sharedAt_mutex.mpr ⟨hfree rfl, rfl⟩
      exact hmove _ (if_pos hmutex) rfl (by simp [Child.left])
  | test =>
      by_cases hlt : (sharedAt semOk p .test).counter < 20
      · exact hmove _ (if_pos hlt) rfl (by simp [Child.left])
      · exact hmove _ (if_neg hlt) rfl (by simp [Child.left])
  | waiting asleep =>
      cases asleep with
      | true => exact absurd rfl hasleep
      | false =>
          have hmutex : (sharedAt semOk p (.waiting false)).mutex = none :=
            sharedAt_mutex.mpr ⟨hfree rfl, rfl⟩
          exact hmove _ (if_pos hmutex) rfl (by simp [Child.left])
  | semWait =>
      cases semOk with
      | true =>
          have hposted : 0 < (sharedAt true p .semWait).sem := by
            simp [sharedAt, Child.rank, hsem rfl rfl]
          exact hmove _ (@if_pos _ _ hposted _ _ _) rfl (Nat.lt_succ_self _)
      | false => exact hmove _ rfl rfl (Nat.lt_succ_self _)
  | exited success =>
      cases success with
      | true => exact absurd rfl hexit
      | false => exact absurd rfl hsuccess

theorem Placed.parent_moves {semOk : Bool} {s : State} (h : Placed semOk s)
    (hspin : s.parent = .spin → 3 < s.child.rank)
    (hlock : s.parent = .lockData ∨ s.parent = .lockSignal → s.child.holds = false)
    (hwait : s.parent = .waitpid → s.child = .exited true)
    (hend : s.parent ≠ .returned) :
    ∃ s', next semOk .parent s = some s' ∧ distance s' < distance s := by
  obtain ⟨hsync, hshared, hpipe⟩ := h
  have halive := hsync.alive
  have hmove : ∀ s', parentStep semOk s = some s' → s'.parent.rank = s.parent.rank + 1 →
      s.parent.rank ≤ 16 → ∃ s', next semOk .parent s = some s' ∧ distance s' < distance s := by
    intro s' hstep hrank hle
    have hleft := s'.child.left_le
    refine ⟨s', hstep, ?_⟩
    rw [distance, distance, hrank]
    omega
  obtain ⟨p, c, sh, pp, cc, mm, got, aw, rep⟩ := s
  simp only at *
  subst hshared hpipe
  cases p with
  | closeRead | storeTen | writeMessage | unlockData | closeWrite | setReady | storeTwenty |
      signal | unlockSignal | post | report | destroy =>
      exact hmove _ rfl rfl (by simp [Parent.rank])
  | lockData =>
      have hmutex : (sharedAt semOk .lockData c).mutex = none :=
        sharedAt_mutex.mpr ⟨rfl, hlock (.inl rfl)⟩
      exact hmove _ (if_pos hmutex) rfl (by simp [Parent.rank])
  | lockSignal =>
      have hmutex : (sharedAt semOk .lockSignal c).mutex = none :=
        sharedAt_mutex.mpr ⟨rfl, hlock (.inr rfl)⟩
      exact hmove _ (if_pos hmutex) rfl (by simp [Parent.rank])
  | writeByte =>
      have hread : c.rank ≤ 1 := hsync.rank_le_one (Nat.le_refl 5)
      have hopen : (pipeAt .writeByte c).parentReads || (pipeAt .writeByte c).childReads := by
        simp [pipeAt, hread.trans (Nat.le_succ 1)]
      exact hmove _ (if_pos hopen) rfl (by simp [Parent.rank])
  | spin =>
      have hflag : (sharedAt semOk .spin c).childReady ≠ 0 := by simp [sharedAt, hspin rfl]
      exact hmove _ (if_neg hflag) rfl (by simp [Parent.rank])
  | waitpid =>
      obtain rfl := hwait rfl
      exact hmove _ rfl rfl (by simp [Parent.rank])
  | returned => exact absurd rfl hend
  | killed => exact absurd rfl halive

/-- The steps of the program, where no call fails and nobody wakes up by accident. -/
def Own (a : Action) : Prop := a = .parent ∨ a = .child

/-- One of the two can always go on. -/
theorem progress (semOk : Bool) : Progress Own (next semOk) (Placed semOk) Finished distance := by
  intro s h hdone
  have hparent : (∃ s', next semOk .parent s = some s' ∧ distance s' < distance s) →
      ∃ a s', Own a ∧ next semOk a s = some s' ∧ Placed semOk s' ∧ distance s' < distance s := by
    rintro ⟨s', hstep, hlt⟩
    exact ⟨.parent, s', .inl rfl, hstep, h.parent hstep, hlt⟩
  have hchild : (∃ s', next semOk .child s = some s' ∧ distance s' < distance s) →
      ∃ a s', Own a ∧ next semOk a s = some s' ∧ Placed semOk s' ∧ distance s' < distance s := by
    rintro ⟨s', hstep, hlt⟩
    exact ⟨.child, s', .inr rfl, hstep, h.child hstep, hlt⟩
  by_cases hspin : s.parent = .spin ∧ s.child.rank ≤ 3
  · -- the byte is in the pipe, so the child comes to set the flag
    obtain ⟨hat, hle⟩ := hspin
    refine hchild (h.child_moves ?_ ?_ ?_ ?_ ?_)
    · simp [hat, Parent.rank]
    · simp [hat, Parent.holds]
    · exact fun hc => by simp [hc, Child.rank] at hle
    · exact fun _ hc => by simp [hc, Child.rank] at hle
    · exact fun hc => by simp [hc, Child.rank] at hle
  by_cases hlock : (s.parent = .lockData ∨ s.parent = .lockSignal) ∧ s.child.holds = true
  · -- the child has the mutex, and does not keep it
    obtain ⟨-, hholds⟩ := hlock
    have hat : ∀ c : Child, c.holds = false → s.child ≠ c := fun c hfree heq => by
      simp [heq, hfree] at hholds
    refine hchild (h.child_moves ?_ ?_ ?_ ?_ ?_)
    · exact fun hc => absurd hc (hat _ rfl)
    · exact fun hfree => absurd rfl (hat _ hfree)
    · exact hat _ rfl
    · exact fun _ hc => absurd hc (hat _ rfl)
    · exact hat _ rfl
  by_cases hwait : s.parent = .waitpid ∧ s.child ≠ .exited true
  · -- all that the child waits for has happened
    obtain ⟨hat, hne⟩ := hwait
    have hasleep := h.synced.asleep
    refine hchild (h.child_moves ?_ ?_ ?_ ?_ hne)
    · simp [hat, Parent.rank]
    · simp [hat, Parent.holds]
    · intro hc
      simpa [hat, Parent.rank] using hasleep hc
    · simp [hat, Parent.rank]
  refine hparent (h.parent_moves ?_ ?_ ?_ ?_)
  · exact fun hat => Nat.lt_of_not_le fun hle => hspin ⟨hat, hle⟩
  · exact fun hat => Bool.eq_false_iff.mpr fun hholds => hlock ⟨hat, hholds⟩
  · exact fun hat => not_not.mp fun hne => hwait ⟨hat, hne⟩
  · exact fun hat => hdone ⟨hat, h.synced.exited (by simp [hat, Parent.rank])⟩

/-! ## All runs -/

/-- All along a run, whatever fails. -/
structure Inv (semOk : Bool) (s : State) : Prop where
  placed : Placed semOk s ∨ Lost s
  printed : Printed s

namespace Inv

variable {semOk : Bool} {s s' : State}

theorem readable (h : Inv semOk s) : Readable s := by
  rcases h.placed with hplaced | hlost
  · exact hplaced.readable
  · exact hlost.readable

theorem step (h : Inv semOk s) {a : Action} (hstep : next semOk a s = some s') : Inv semOk s' := by
  constructor
  case placed =>
    rcases h.placed with hplaced | hlost
    · by_cases hfail : Failed a
      · exact .inr (hplaced.lost hstep hfail)
      · exact .inl (hplaced.step hstep hfail)
    · exact .inr (hlost.step hstep)
  case printed =>
    cases a
    case parent => exact h.printed.parent h.readable hstep
    case child => exact h.printed.child h.readable hstep
    all_goals
      obtain ⟨hc, hmsg, hgot, hawaited, hreported⟩ := h.printed
      simp only [next] at hstep
      split at hstep
      case' isTrue hat => cases hstep
      case' isFalse => cases hstep
    case failWrite => exact ⟨hc, hmsg, hgot, hawaited, hreported⟩
    case failRead =>
      exact ⟨fun _ hne => absurd rfl hne, fun _ hne => absurd rfl hne, hgot, hawaited, hreported⟩
    case wake =>
      rw [hat] at hc hmsg
      exact ⟨fun hlt _ => hc hlt nofun, fun hlt _ => hmsg hlt nofun, hgot, hawaited, hreported⟩

end Inv

theorem init_placed (semOk : Bool) : Placed semOk init := by
  constructor
  case synced => constructor <;> simp [init, Parent.rank, Parent.holds, Child.rank]
  case shared => simp [init, sharedAt, Parent.rank, Parent.holds, Child.rank, Child.holds]
  case pipe => simp [init, pipeAt, Parent.rank, Child.rank]

theorem init_printed : Printed init := by
  constructor <;> simp [init, Child.rank]

theorem inv_schedule (semOk : Bool) (as : List Action) :
    Inv semOk (schedule (next semOk) as init) :=
  schedule_rule (Inv semOk) ⟨.inl (init_placed semOk), init_printed⟩
    (fun _ _ _ h hstep => h.step hstep) as

/-- **Safety.**  However the two are scheduled and whichever calls fail, they are never both
between a lock and its unlock; the child prints a counter of 10 or 20 with the whole message, and
20 after its wait; the parent prints 99, and destroys the mutex, the condition variable and the
semaphore only when the child has exited. -/
theorem ipc_safe (semOk : Bool) (as : List Action) :
    let s := schedule (next semOk) as init
    ¬ (s.parent.holds = true ∧ s.child.holds = true) ∧
      (∀ x ∈ s.got, (x.1 = 10 ∨ x.1 = 20) ∧ x.2 = "parent says hi") ∧
      (∀ x ∈ s.awaited, x = 20) ∧ (∀ x ∈ s.reported, x = 99) ∧
      (s.parent = .destroy ∨ s.parent = .returned → s.child = .exited true) := by
  intro s
  obtain ⟨hplaced, hprinted⟩ := inv_schedule semOk as
  refine ⟨?_, hprinted.got, hprinted.awaited, hprinted.reported, ?_⟩
  · rintro ⟨hp, hc⟩
    rcases hplaced with ⟨hsync, -, -⟩ | hlost
    · exact Bool.false_ne_true ((hsync.apart hp).symm.trans hc)
    · exact Bool.false_ne_true (hlost.child_holds.symm.trans hc)
  · intro hat
    rcases hplaced with ⟨hsync, -, -⟩ | hlost
    · exact hsync.exited (by rcases hat with h | h <;> simp [s, h, Parent.rank])
    · rcases hat with hat | hat
      · exact absurd hat (hlost.parent_ne nofun (by simp [Parent.rank]))
      · exact absurd hat (hlost.parent_ne nofun (by simp [Parent.rank]))

/-- **Liveness.**  Without another failure or accident the parent can still return, with the child
exited before it, just when neither `write` nor `read` has failed.  Otherwise the flag is never
set: the parent does not get past its loop, unless SIGPIPE kills it before. -/
theorem canFinish_iff_noFailure (semOk : Bool) (as : List Action) :
    let s := schedule (next semOk) as init
    (CanFinishBy Own (next semOk) Finished s ↔
      EachStep (next semOk) init as (fun a _ => ¬ Failed a)) ∧
    (¬ EachStep (next semOk) init as (fun a _ => ¬ Failed a) →
      s.shared.childReady = 0 ∧ (s.parent.rank ≤ Parent.spin.rank ∨ s.parent = .killed)) := by
  intro s
  have hiff : CanFinishBy Own (next semOk) Finished s ↔
      EachStep (next semOk) init as (fun a _ => ¬ Failed a) := by
    refine canFinishBy_iff Lost (init_placed semOk) ?_ (progress semOk) ?_ ?_ ?_
    · exact fun a s s' h hstep hok => h.step hstep hok
    · exact fun a s s' h hstep hfail => h.lost hstep (not_not.mp hfail)
    · exact fun a s s' h hstep => h.step hstep
    · exact fun s h hdone => h.parent_ne (p := .returned) nofun (by simp [Parent.rank]) hdone.1
  refine ⟨hiff, fun hfailed => ?_⟩
  rcases (inv_schedule semOk as).placed with hplaced | hlost
  · exact absurd (hiff.mp ((progress semOk).canFinishBy hplaced)) hfailed
  · exact ⟨hlost.flag, hlost.parent⟩

end LearnCpp.Concurrency.ForkMmapIpc
