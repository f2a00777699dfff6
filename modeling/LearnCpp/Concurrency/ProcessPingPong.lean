/-
# `LearnCpp.Concurrency.ProcessPingPong` — two processes that take turns

`process_ping_pong` in `topics/concurrency/context_switch_threads_vs_processes.cpp`:
the parent and its child send one byte back and forth through two pipes, `n` times
(`ITERS`).  Any `read` and any `write` may fail, and then the process gives up.

There is one byte, or none: it is in one of the pipes, or with the child between
its `read` and its `write`, and only while the parent waits for it:

    rounds of the child   =   rounds of the parent  +  bytes on the way back

After `fork` either process has all four ends.  Each closes the two that it does
not use before it goes on.  So a `read` for which nobody is left to write ends, and
both processes end however the calls come out.
-/
import LearnCpp.Lib.Progress
import Mathlib.Tactic.Common

namespace LearnCpp.Concurrency.ProcessPingPong

open Lib

/-- The next thing the parent does. -/
inductive Parent where
  | closeP2cRead
  | closeC2pWrite
  /-- before `i < ITERS` -/
  | head
  | write
  | read
  | closeP2cWrite
  | closeC2pRead
  | waitpid
  | returned
  /-- by SIGPIPE: it wrote to a pipe that nobody reads -/
  | killed
  deriving DecidableEq, Repr

/-- The next thing the child does. -/
inductive Child where
  | closeP2cWrite
  | closeC2pRead
  | head
  | read
  | write
  | exit
  | exited (success : Bool)
  | killed
  deriving DecidableEq, Repr

/-- The ends that a process has open. -/
structure Ends where
  p2cRead : Bool := true
  p2cWrite : Bool := true
  c2pRead : Bool := true
  c2pWrite : Bool := true
  deriving DecidableEq, Repr

/-- A process that has ended. -/
def Ends.closed : Ends := ⟨false, false, false, false⟩

/-- `p2c` and `c2p` are the bytes in the pipes, `i` and `j` the counters of the two loops. -/
structure State where
  parent : Parent := .closeP2cRead
  child : Child := .closeP2cWrite
  parentEnds : Ends := {}
  childEnds : Ends := {}
  p2c : ℕ := 0
  c2p : ℕ := 0
  i : ℕ := 0
  j : ℕ := 0
  deriving DecidableEq, Repr

inductive Action where
  | parent
  | child
  /-- a `read` or `write` of the parent fails -/
  | failParent
  /-- a `read` or `write` of the child fails -/
  | failChild
  deriving DecidableEq, Repr

/-- The child has ended. -/
def Child.gone : Child → Bool
  | .exited _ | .killed => true
  | _ => false

/-- The parent's next step; `read` waits while somebody may still write. -/
def parentStep (n : ℕ) (s : State) : Option State :=
  match s.parent with
  | .closeP2cRead => some { s with parent := .closeC2pWrite, parentEnds.p2cRead := false }
  | .closeC2pWrite => some { s with parent := .head, parentEnds.c2pWrite := false }
  | .head => some { s with parent := if s.i < n then .write else .closeP2cWrite }
  | .write =>
      if s.parentEnds.p2cRead || s.childEnds.p2cRead then
        some { s with parent := .read, p2c := s.p2c + 1 }
      else some { s with parent := .killed, parentEnds := .closed }
  | .read =>
      if 0 < s.c2p then some { s with parent := .head, c2p := s.c2p - 1, i := s.i + 1 }
      else if s.parentEnds.c2pWrite || s.childEnds.c2pWrite then none
      -- at the end of the file `read` returns 0
      else some { s with parent := .closeP2cWrite }
  | .closeP2cWrite => some { s with parent := .closeC2pRead, parentEnds.p2cWrite := false }
  | .closeC2pRead => some { s with parent := .waitpid, parentEnds.c2pRead := false }
  | .waitpid => if s.child.gone then some { s with parent := .returned } else none
  | .returned => none
  | .killed => none

/-- `_exit` -/
def exitChild (success : Bool) (s : State) : State :=
  { s with child := .exited success, childEnds := .closed }

/-- The child's next step. -/
def childStep (n : ℕ) (s : State) : Option State :=
  match s.child with
  | .closeP2cWrite => some { s with child := .closeC2pRead, childEnds.p2cWrite := false }
  | .closeC2pRead => some { s with child := .head, childEnds.c2pRead := false }
  | .head => some { s with child := if s.j < n then .read else .exit }
  | .read =>
      if 0 < s.p2c then some { s with child := .write, p2c := s.p2c - 1 }
      else if s.parentEnds.p2cWrite || s.childEnds.p2cWrite then none
      else some (exitChild false s)
  | .write =>
      if s.parentEnds.c2pRead || s.childEnds.c2pRead then
        some { s with child := .head, c2p := s.c2p + 1, j := s.j + 1 }
      else some { s with child := .killed, childEnds := .closed }
  | .exit => some (exitChild true s)
  | .exited _ => none
  | .killed => none

def next (n : ℕ) : Action → State → Option State
  | .parent, s => parentStep n s
  | .child, s => childStep n s
  | .failParent, s =>
      if s.parent = .write ∨ s.parent = .read then some { s with parent := .closeP2cWrite }
      else none
  | .failChild, s =>
      if s.child = .read ∨ s.child = .write then some (exitChild false s) else none

def init : State := {}

/-! ## Where the byte is -/

/-- The ends that are still open there. -/
def Parent.ends : Parent → Ends
  | .closeP2cRead => {}
  | .closeC2pWrite => { p2cRead := false }
  | .head | .write | .read | .closeP2cWrite => { p2cRead := false, c2pWrite := false }
  | .closeC2pRead => { p2cRead := false, c2pWrite := false, p2cWrite := false }
  | .waitpid | .returned | .killed => .closed

def Child.ends : Child → Ends
  | .closeP2cWrite => {}
  | .closeC2pRead => { p2cWrite := false }
  | .head | .read | .write | .exit => { p2cWrite := false, c2pRead := false }
  | .exited _ | .killed => .closed

/-- The child has taken a byte that it has not sent back. -/
def Child.hand : Child → ℕ
  | .write => 1
  | _ => 0

/-- The bytes that are under way. -/
def State.underWay (s : State) : ℕ := s.p2c + s.child.hand + s.c2p

/-- The parent is there in round `i`, with `bytes` under way; `gone` if the child has ended. -/
def Parent.At (n i bytes : ℕ) (gone : Bool) : Parent → Prop
  | .closeP2cRead | .closeC2pWrite => i = 0 ∧ bytes = 0
  | .head => i ≤ n ∧ bytes = 0
  | .write => i < n ∧ bytes = 0
  | .read => i < n ∧ bytes ≤ 1 ∧ (bytes = 1 ∨ gone = true)
  | .closeP2cWrite | .closeC2pRead | .waitpid => i ≤ n ∧ bytes ≤ 1
  | .returned => i ≤ n ∧ bytes ≤ 1 ∧ gone = true
  | .killed => i ≤ n ∧ bytes ≤ 1

/-- The child is there in round `j`. -/
def Child.At (n j : ℕ) : Child → Prop
  | .closeP2cWrite | .closeC2pRead => j = 0
  | .head => j ≤ n
  | .read | .write => j < n
  | .exit | .exited true => j = n
  | .exited false | .killed => True

structure Inv (n : ℕ) (s : State) : Prop where
  parent_at : s.parent.At n s.i s.underWay s.child.gone
  child_at : s.child.At n s.j
  rounds : s.j = s.i + s.c2p
  parentEnds : s.parentEnds = s.parent.ends
  childEnds : s.childEnds = s.child.ends

theorem init_inv (n : ℕ) : Inv n init := ⟨⟨rfl, rfl⟩, rfl, rfl, rfl, rfl⟩

theorem Parent.At.le {n i bytes : ℕ} {gone : Bool} {p : Parent} (h : p.At n i bytes gone) :
    i ≤ n ∧ bytes ≤ 1 := by
  cases p <;> simp only [Parent.At] at h <;> omega

theorem Parent.At.child_gone {n i bytes bytes' : ℕ} {gone : Bool} {p : Parent}
    (h : p.At n i bytes gone) (hle : bytes' ≤ bytes) : p.At n i bytes' true := by
  cases p with
  | closeP2cRead | closeC2pWrite | head | write =>
      exact ⟨h.1, Nat.le_zero.mp (hle.trans h.2.le)⟩
  | read => exact ⟨h.1, hle.trans h.2.1, .inr rfl⟩
  | closeP2cWrite | closeC2pRead | waitpid | killed => exact ⟨h.1, hle.trans h.2⟩
  | returned => exact ⟨h.1, hle.trans h.2.1, rfl⟩

namespace Inv

variable {n : ℕ} {s s' : State}

theorem parentStep (h : Inv n s) (hstep : parentStep n s = some s') : Inv n s' := by
  obtain ⟨hparent, hchild, hrounds, hpe, hce⟩ := h
  obtain ⟨p, c, pe, ce, p2c, c2p, i, j⟩ := s
  simp only [State.underWay] at *
  subst hpe hce
  cases p with
  | closeP2cRead =>
      cases hstep
      exact ⟨hparent, hchild, hrounds, rfl, rfl⟩
  | closeC2pWrite =>
      cases hstep
      exact ⟨⟨hparent.1 ▸ Nat.zero_le n, hparent.2⟩, hchild, hrounds, rfl, rfl⟩
  | head =>
      obtain ⟨hle, hbytes⟩ := hparent
      cases hstep
      split
      · next hlt => exact ⟨⟨hlt, hbytes⟩, hchild, hrounds, rfl, rfl⟩
      · exact ⟨⟨hle, hbytes.trans_le (Nat.zero_le 1)⟩, hchild, hrounds, rfl, rfl⟩
  | write =>
      obtain ⟨hlt, hbytes⟩ := hparent
      simp only [ProcessPingPong.parentStep] at hstep
      split at hstep
      · cases hstep
        have hone : p2c + 1 + c.hand + c2p = 1 := by omega
        exact ⟨⟨hlt, Nat.le_of_eq hone, .inl hone⟩, hchild, hrounds, rfl, rfl⟩
      · cases hstep
        exact ⟨⟨hlt.le, hbytes.trans_le (Nat.zero_le 1)⟩, hchild, hrounds, rfl, rfl⟩
  | read =>
      obtain ⟨hlt, hbytes, -⟩ := hparent
      simp only [ProcessPingPong.parentStep] at hstep
      split at hstep
      · next hback =>
          cases hstep
          have hnone : p2c + c.hand + (c2p - 1) = 0 := by omega
          have hround : j = i + 1 + (c2p - 1) := by omega
          exact ⟨⟨hlt, hnone⟩, hchild, hround, rfl, rfl⟩
      · split at hstep
        · cases hstep
        · cases hstep
          exact ⟨⟨hlt.le, hbytes⟩, hchild, hrounds, rfl, rfl⟩
  | closeP2cWrite =>
      cases hstep
      exact ⟨hparent, hchild, hrounds, rfl, rfl⟩
  | closeC2pRead =>
      cases hstep
      exact ⟨hparent, hchild, hrounds, rfl, rfl⟩
  | waitpid =>
      simp only [ProcessPingPong.parentStep] at hstep
      split at hstep
      · next hgone =>
          cases hstep
          exact ⟨⟨hparent.1, hparent.2, hgone⟩, hchild, hrounds, rfl, rfl⟩
      · cases hstep
  | returned => cases hstep
  | killed => cases hstep

theorem child_ends (h : Inv n s) {c : Child} (hat : c.At n s.j) (hgone : c.gone = true) :
    Inv n { s with child := c, childEnds := .closed } where
  parent_at := by
    have hhand : c.hand = 0 := by cases c <;> simp_all [Child.gone, Child.hand]
    have hle : s.p2c + c.hand + s.c2p ≤ s.underWay := by
      simp only [State.underWay]
      omega
    simp only [State.underWay, hgone]
    exact h.parent_at.child_gone hle
  child_at := hat
  rounds := h.rounds
  parentEnds := h.parentEnds
  childEnds := by cases c <;> simp_all [Child.gone, Child.ends]

theorem childStep (h : Inv n s) (hstep : childStep n s = some s') : Inv n s' := by
  have hends := @h.child_ends
  obtain ⟨hparent, hchild, hrounds, hpe, hce⟩ := h
  obtain ⟨p, c, pe, ce, p2c, c2p, i, j⟩ := s
  simp only [State.underWay] at *
  subst hpe hce
  cases c with
  | closeP2cWrite =>
      cases hstep
      exact ⟨hparent, hchild, hrounds, rfl, rfl⟩
  | closeC2pRead =>
      cases hstep
      exact ⟨hparent, hchild ▸ Nat.zero_le n, hrounds, rfl, rfl⟩
  | head =>
      cases hstep
      split
      · next hlt => exact ⟨hparent, hlt, hrounds, rfl, rfl⟩
      · next hge =>
          exact ⟨hparent, Nat.le_antisymm hchild (Nat.le_of_not_lt hge), hrounds, rfl, rfl⟩
  | read =>
      simp only [ProcessPingPong.childStep] at hstep
      split at hstep
      · next hbyte =>
          cases hstep
          have hsame : p2c - 1 + 1 + c2p = p2c + 0 + c2p := by omega
          refine ⟨?_, hchild, hrounds, rfl, rfl⟩
          simp only [State.underWay, Child.hand, hsame]
          exact hparent
      · split at hstep
        · cases hstep
        · cases hstep
          exact hends trivial rfl
  | write =>
      simp only [ProcessPingPong.childStep] at hstep
      split at hstep
      · cases hstep
        have hsame : p2c + 0 + (c2p + 1) = p2c + 1 + c2p := by omega
        have hround : j + 1 = i + (c2p + 1) := by omega
        refine ⟨?_, hchild, hround, rfl, rfl⟩
        simp only [State.underWay, Child.hand, hsame]
        exact hparent
      · cases hstep
        exact hends trivial rfl
  | exit =>
      cases hstep
      exact hends hchild rfl
  | exited success => cases hstep
  | killed => cases hstep

theorem step {a : Action} (h : Inv n s) (hnext : next n a s = some s') : Inv n s' := by
  cases a with
  | parent => exact h.parentStep hnext
  | child => exact h.childStep hnext
  | failParent =>
      simp only [next] at hnext
      split at hnext
      · next hplace =>
          cases hnext
          have hends := h.parentEnds
          refine ⟨h.parent_at.le, h.child_at, h.rounds, ?_, h.childEnds⟩
          rcases hplace with hplace | hplace <;> rw [hends, hplace] <;> rfl
      · cases hnext
  | failChild =>
      simp only [next] at hnext
      split at hnext
      · cases hnext
        exact h.child_ends trivial rfl
      · cases hnext

end Inv

theorem reachable_inv (n : ℕ) (as : List Action) : Inv n (schedule (next n) as init) :=
  schedule_rule (Inv n) (init_inv n) (fun _ _ _ => Inv.step) as

/-! ## Both end, however the calls come out -/

/-- Steps that the parent takes at most, with `rest` rounds to go. -/
def Parent.left (rest : ℕ) : Parent → ℕ
  | .closeP2cRead => 3 * rest + 6
  | .closeC2pWrite => 3 * rest + 5
  | .head => 3 * rest + 4
  | .write => 3 * rest + 3
  | .read => 3 * rest + 2
  | .closeP2cWrite => 3
  | .closeC2pRead => 2
  | .waitpid => 1
  | .returned | .killed => 0

def Child.left (rest : ℕ) : Child → ℕ
  | .closeP2cWrite => 3 * rest + 4
  | .closeC2pRead => 3 * rest + 3
  | .head => 3 * rest + 2
  | .read => 3 * rest + 1
  | .write => 3 * rest
  | .exit => 1
  | .exited _ | .killed => 0

def left (n : ℕ) (s : State) : ℕ := s.parent.left (n - s.i) + s.child.left (n - s.j)

/-- Both processes have ended. -/
def Finished (s : State) : Prop :=
  (s.parent = .returned ∨ s.parent = .killed) ∧ s.child.gone = true

theorem Child.ends_p2cRead (c : Child) : c.ends.p2cRead = !c.gone := by
  cases c <;> rfl

theorem Child.ends_c2pWrite (c : Child) : c.ends.c2pWrite = !c.gone := by
  cases c <;> rfl

namespace Inv

variable {n : ℕ} {s s' : State}

theorem parent_nearer (h : Inv n s) (hstep : ProcessPingPong.parentStep n s = some s') :
    left n s' < left n s := by
  have hparent := h.parent_at
  obtain ⟨p, c, pe, ce, p2c, c2p, i, j⟩ := s
  simp only at hparent
  cases p with
  | closeP2cRead =>
      cases hstep
      simp [left, Parent.left]
  | closeC2pWrite =>
      cases hstep
      simp [left, Parent.left]
  | head =>
      cases hstep
      simp only [left]
      split <;> simp only [Parent.left] <;> omega
  | write =>
      simp only [ProcessPingPong.parentStep] at hstep
      split at hstep <;> cases hstep <;> simp only [left, Parent.left] <;> omega
  | read =>
      obtain ⟨hlt, -⟩ := hparent
      simp only [ProcessPingPong.parentStep] at hstep
      split at hstep
      · cases hstep
        simp only [left, Parent.left]
        omega
      · split at hstep
        · cases hstep
        · cases hstep
          simp only [left, Parent.left]
          omega
  | closeP2cWrite =>
      cases hstep
      simp [left, Parent.left]
  | closeC2pRead =>
      cases hstep
      simp [left, Parent.left]
  | waitpid =>
      simp only [ProcessPingPong.parentStep] at hstep
      split at hstep
      · cases hstep
        simp [left, Parent.left]
      · cases hstep
  | returned => cases hstep
  | killed => cases hstep

theorem child_nearer (h : Inv n s) (hstep : ProcessPingPong.childStep n s = some s') :
    left n s' < left n s := by
  have hchild := h.child_at
  obtain ⟨p, c, pe, ce, p2c, c2p, i, j⟩ := s
  simp only at hchild
  cases c with
  | closeP2cWrite =>
      cases hstep
      simp [left, Child.left]
  | closeC2pRead =>
      cases hstep
      simp [left, Child.left]
  | head =>
      cases hstep
      simp only [left]
      split <;> simp only [Child.left] <;> omega
  | read =>
      simp only [ProcessPingPong.childStep] at hstep
      split at hstep
      · cases hstep
        simp [left, Child.left]
      · split at hstep
        · cases hstep
        · cases hstep
          simp [left, exitChild, Child.left]
  | write =>
      have hlt : j < n := hchild
      simp only [ProcessPingPong.childStep] at hstep
      split at hstep <;> cases hstep <;> simp only [left, Child.left] <;> omega
  | exit =>
      cases hstep
      simp [left, exitChild, Child.left]
  | exited success => cases hstep
  | killed => cases hstep

/-- Every step comes nearer to the end, also one that fails. -/
theorem nearer {a : Action} (h : Inv n s) (hnext : next n a s = some s') :
    left n s' < left n s := by
  have hparent := h.parent_at
  have hchild := h.child_at
  cases a with
  | parent => exact h.parent_nearer hnext
  | child => exact h.child_nearer hnext
  | failParent =>
      simp only [next] at hnext
      split at hnext
      · next hplace =>
          cases hnext
          rcases hplace with hplace | hplace <;> rw [hplace] at hparent <;>
            simp only [left, hplace, Parent.left, Parent.At] at hparent ⊢ <;> omega
      · cases hnext
  | failChild =>
      simp only [next] at hnext
      split at hnext
      · next hplace =>
          cases hnext
          rcases hplace with hplace | hplace <;> rw [hplace] at hchild <;>
            simp only [left, exitChild, hplace, Child.left, Child.At] at hchild ⊢ <;> omega
      · cases hnext

theorem child_waits (h : Inv n s) (hrunning : s.child.gone = false)
    (hstuck : ProcessPingPong.childStep n s = none) :
    s.child = .read ∧ s.p2c = 0 ∧ s.parentEnds.p2cWrite = true := by
  have hce := h.childEnds
  obtain ⟨p, c, pe, ce, p2c, c2p, i, j⟩ := s
  simp only at hce hrunning
  subst hce
  cases c with
  | read =>
      simp only [ProcessPingPong.childStep] at hstuck
      split at hstuck
      · cases hstuck
      · next hempty =>
          split at hstuck
          · next hopen =>
              have hwriter : pe.p2cWrite = true := by simpa [Child.ends] using hopen
              exact ⟨rfl, Nat.eq_zero_of_not_pos hempty, hwriter⟩
          · cases hstuck
  | write =>
      simp only [ProcessPingPong.childStep] at hstuck
      split at hstuck <;> cases hstuck
  | exited | killed => cases hrunning
  | _ => cases hstuck

/-- The two do not wait for each other. -/
theorem finished_of_stuck (h : Inv n s) (hparent : ProcessPingPong.parentStep n s = none)
    (hchild : ProcessPingPong.childStep n s = none) : Finished s := by
  have hwaits := h.child_waits
  obtain ⟨hat, -, -, hpe, hce⟩ := h
  obtain ⟨p, c, pe, ce, p2c, c2p, i, j⟩ := s
  simp only [State.underWay] at *
  subst hpe hce
  -- with the parent's end closed, the child is through
  have hgone : p.ends.p2cWrite = false → c.gone = true := fun hclosed =>
    Bool.of_not_eq_false fun hrunning =>
      Bool.false_ne_true (hclosed.symm.trans (hwaits hrunning hchild).2.2)
  cases p with
  | read =>
      simp only [ProcessPingPong.parentStep, Child.ends_c2pWrite] at hparent
      split at hparent
      · cases hparent
      · next hempty =>
          split at hparent
          · next hopen =>
              have hrunning : c.gone = false := by simpa [Parent.ends] using hopen
              obtain ⟨rfl, hp2c, -⟩ := hwaits hrunning hchild
              -- the byte is in neither of the pipes
              have hone := hat.2.2.resolve_right (by rw [hrunning]; exact Bool.false_ne_true)
              simp only [Child.hand] at hone
              omega
          · cases hparent
  | waitpid =>
      simp only [ProcessPingPong.parentStep, hgone rfl, if_true] at hparent
      cases hparent
  | returned => exact ⟨.inl rfl, hgone rfl⟩
  | killed => exact ⟨.inr rfl, hgone rfl⟩
  | write =>
      simp only [ProcessPingPong.parentStep] at hparent
      split at hparent <;> cases hparent
  | _ => cases hparent

end Inv

/-- **Both end.**  Whatever calls fail, there is at most one byte under way, the child is ahead by
what is on its way back, `6 * n + 10` steps are taken at most, and where neither process can take
its next step both have ended: they do not wait in `read` for each other. -/
theorem always_ends (n : ℕ) (as : List Action) :
    let s := schedule (next n) as init
    s.underWay ≤ 1 ∧ s.j = s.i + s.c2p ∧ taken (next n) as init ≤ 6 * n + 10 ∧
      (next n .parent s = none → next n .child s = none → Finished s) := by
  intro s
  have h := reachable_inv n as
  refine ⟨h.parent_at.le.2, h.rounds, ?_, ?_⟩
  · have hnearer : ∀ a s s', Inv n s → next n a s = some s' → Inv n s' ∧ left n s' < left n s :=
      fun _ _ _ hs hnext => ⟨hs.step hnext, hs.nearer hnext⟩
    have hpaid := taken_le hnearer as (init_inv n)
    refine (Nat.le_add_right _ _).trans (hpaid.trans ?_)
    simp only [left, init, Parent.left, Child.left]
    omega
  · intro hparent hchild
    exact h.finished_of_stuck hparent hchild

/-! ## Which runs are whole -/

/-- The parent has left its loop. -/
def Parent.through : Parent → Bool
  | .closeP2cWrite | .closeC2pRead | .waitpid | .returned => true
  | _ => false

/-- One of the two has given up. -/
def Broken (n : ℕ) (s : State) : Prop :=
  (s.parent.through = true ∧ s.i < n) ∨ s.parent = .killed ∨ s.child = .exited false ∨
    s.child = .killed

/-- The parent has been through all rounds, and the child has ended well. -/
def Whole (n : ℕ) (s : State) : Prop :=
  s.parent = .returned ∧ s.i = n ∧ s.child = .exited true

def noFailure (a : Action) (_ : State) : Prop := a ≠ .failParent ∧ a ≠ .failChild

section
variable {n : ℕ} {s s' : State}

theorem parentStep_child (hstep : parentStep n s = some s') : s'.child = s.child := by
  unfold parentStep at hstep
  split at hstep <;> try split at hstep
  all_goals try split at hstep
  all_goals cases hstep
  all_goals rfl

theorem childStep_parent (hstep : childStep n s = some s') :
    s'.parent = s.parent ∧ s'.i = s.i := by
  unfold childStep at hstep
  split at hstep <;> try split at hstep
  all_goals try split at hstep
  all_goals cases hstep
  all_goals exact ⟨rfl, rfl⟩

theorem parentStep_through (hstep : parentStep n s = some s') (hthrough : s.parent.through = true) :
    s'.parent.through = true ∧ s'.i = s.i := by
  obtain ⟨p, c, pe, ce, p2c, c2p, i, j⟩ := s
  simp only at hthrough
  cases p with
  | closeP2cWrite | closeC2pRead =>
      cases hstep
      exact ⟨rfl, rfl⟩
  | waitpid =>
      simp only [parentStep] at hstep
      split at hstep
      · cases hstep
        exact ⟨rfl, rfl⟩
      · cases hstep
  | returned => cases hstep
  | _ => cases hthrough

theorem childStep_of_gone (hgone : s.child.gone = true) : childStep n s = none := by
  obtain ⟨p, c, pe, ce, p2c, c2p, i, j⟩ := s
  simp only at hgone
  cases c with
  | exited | killed => rfl
  | _ => cases hgone

end

namespace Broken

variable {n : ℕ} {s s' : State} {a : Action}

theorem gone (h : s.child = .exited false ∨ s.child = .killed) : s.child.gone = true := by
  rcases h with h | h <;> rw [h] <;> rfl

theorem step (h : Broken n s) (hnext : next n a s = some s') : Broken n s' := by
  cases a with
  | parent =>
      have hsame := parentStep_child hnext
      rcases h with ⟨hthrough, hlt⟩ | hkilled | hchild
      · obtain ⟨hthrough', hi⟩ := parentStep_through hnext hthrough
        exact .inl ⟨hthrough', hi ▸ hlt⟩
      · simp [next, parentStep, hkilled] at hnext
      · exact .inr (.inr (hsame ▸ hchild))
  | child =>
      obtain ⟨hsame, hi⟩ := childStep_parent hnext
      rcases h with ⟨hthrough, hlt⟩ | hkilled | hchild
      · exact .inl ⟨hsame ▸ hthrough, hi ▸ hlt⟩
      · exact .inr (.inl (hsame.trans hkilled))
      · exact absurd (hnext.symm.trans (childStep_of_gone (gone hchild))) nofun
  | failParent =>
      simp only [next] at hnext
      split at hnext
      · next hplace =>
          cases hnext
          rcases h with ⟨hthrough, -⟩ | hkilled | hchild
          · rcases hplace with hplace | hplace <;> rw [hplace] at hthrough <;> cases hthrough
          · rcases hplace with hplace | hplace <;> rw [hplace] at hkilled <;> cases hkilled
          · exact .inr (.inr hchild)
      · cases hnext
  | failChild =>
      simp only [next] at hnext
      split at hnext
      · cases hnext
        exact .inr (.inr (.inl rfl))
      · cases hnext

theorem not_whole (h : Broken n s) : ¬ Whole n s := by
  rintro ⟨hparent, hi, hchild⟩
  rcases h with ⟨-, hlt⟩ | hkilled | hchild' | hkilled
  · exact absurd hi hlt.ne
  · exact absurd (hparent.symm.trans hkilled) nofun
  · exact absurd (hchild.symm.trans hchild') nofun
  · exact absurd (hchild.symm.trans hkilled) nofun

end Broken

namespace Inv

variable {n : ℕ} {s s' : State} {a : Action}

theorem child_done (h : Inv n s) (hwhole : ¬ Broken n s) (hgone : s.child.gone = true) :
    s.child = .exited true ∧ s.j = n := by
  have hat := h.child_at
  cases hc : s.child with
  | exited success =>
      cases success with
      | true =>
          rw [hc] at hat
          exact ⟨rfl, hat⟩
      | false => exact absurd (.inr (.inr (.inl hc))) hwhole
  | killed => exact absurd (.inr (.inr (.inr hc))) hwhole
  | _ =>
      rw [hc] at hgone
      cases hgone

theorem parent_done (h : Inv n s) (hwhole : ¬ Broken n s) (hclosed : s.parentEnds.c2pRead = false ∨
    s.parentEnds.p2cWrite = false) : s.i = n := by
  have hle := h.parent_at.le.1
  have hthrough : s.parent.through = true := by
    rw [h.parentEnds] at hclosed
    cases hp : s.parent with
    | closeC2pRead | waitpid | returned => rfl
    | killed => exact absurd (.inr (.inl hp)) hwhole
    | _ =>
        rw [hp] at hclosed
        rcases hclosed with hclosed | hclosed <;> cases hclosed
  exact Nat.le_antisymm hle (Nat.le_of_not_lt fun hlt => hwhole (.inl ⟨hthrough, hlt⟩))

theorem child_runs (h : Inv n s) (hwhole : ¬ Broken n s) (hlt : s.i < n) (hback : s.c2p = 0) :
    s.child.gone = false := by
  refine Bool.eq_false_iff.mpr fun hgone => ?_
  have hdone := (h.child_done hwhole hgone).2
  have hrounds := h.rounds
  omega

theorem parent_runs (h : Inv n s) (hwhole : ¬ Broken n s) (hlt : s.j < n) :
    s.parentEnds.c2pRead = true ∧ s.parentEnds.p2cWrite = true := by
  have hrounds := h.rounds
  have hopen : ∀ {b}, (b = false → s.i = n) → b = true := by
    intro b hclosed
    refine Bool.of_not_eq_false fun hb => ?_
    have hdone := hclosed hb
    omega
  exact ⟨hopen fun hb => h.parent_done hwhole (.inl hb),
    hopen fun hb => h.parent_done hwhole (.inr hb)⟩

theorem parent_keeps_whole (h : Inv n s) (hwhole : ¬ Broken n s)
    (hstep : ProcessPingPong.parentStep n s = some s') : ¬ Broken n s' := by
  have hsame := parentStep_child hstep
  -- it is enough to look at the parent
  suffices hparent : (s'.parent.through = true → n ≤ s'.i) ∧ s'.parent ≠ .killed by
    rintro (⟨hthrough, hlt⟩ | hkilled | hchild)
    · exact absurd hlt (hparent.1 hthrough).not_gt
    · exact hparent.2 hkilled
    · exact hwhole (.inr (.inr (hsame ▸ hchild)))
  have hruns := h.child_runs hwhole
  have hat := h.parent_at
  have hce := h.childEnds
  have hdone : s.parent.through = true → n ≤ s.i := fun hthrough =>
    Nat.le_of_not_lt fun hlt => hwhole (.inl ⟨hthrough, hlt⟩)
  obtain ⟨p, c, pe, ce, p2c, c2p, i, j⟩ := s
  simp only [State.underWay] at *
  subst hce
  cases p with
  | closeP2cRead | closeC2pWrite =>
      cases hstep
      exact ⟨nofun, nofun⟩
  | head =>
      cases hstep
      split
      · exact ⟨nofun, nofun⟩
      · next hge => exact ⟨fun _ => Nat.le_of_not_lt hge, nofun⟩
  | write =>
      obtain ⟨hlt, hbytes⟩ := hat
      have hback : c2p = 0 := by omega
      simp only [ProcessPingPong.parentStep, Child.ends_p2cRead, hruns hlt hback, Bool.not_false,
        Bool.or_true, if_true] at hstep
      cases hstep
      exact ⟨nofun, nofun⟩
  | read =>
      obtain ⟨hlt, -⟩ := hat
      simp only [ProcessPingPong.parentStep, Child.ends_c2pWrite] at hstep
      split at hstep
      · cases hstep
        exact ⟨nofun, nofun⟩
      · next hempty =>
          have hback : c2p = 0 := Nat.eq_zero_of_not_pos hempty
          simp only [hruns hlt hback, Bool.not_false, Bool.or_true, if_true] at hstep
          cases hstep
  | closeP2cWrite | closeC2pRead =>
      cases hstep
      exact ⟨fun _ => hdone rfl, nofun⟩
  | waitpid =>
      simp only [ProcessPingPong.parentStep] at hstep
      split at hstep
      · cases hstep
        exact ⟨fun _ => hdone rfl, nofun⟩
      · cases hstep
  | returned | killed => cases hstep

theorem child_keeps_whole (h : Inv n s) (hwhole : ¬ Broken n s)
    (hstep : ProcessPingPong.childStep n s = some s') : ¬ Broken n s' := by
  obtain ⟨hsame, hi⟩ := childStep_parent hstep
  suffices hchild : s'.child ≠ .exited false ∧ s'.child ≠ .killed by
    rintro (⟨hthrough, hlt⟩ | hkilled | hexited | hkilled)
    · exact hwhole (.inl ⟨hsame ▸ hthrough, hi ▸ hlt⟩)
    · exact hwhole (.inr (.inl (hsame.symm.trans hkilled)))
    · exact hchild.1 hexited
    · exact hchild.2 hkilled
  have hruns := h.parent_runs hwhole
  have hat := h.child_at
  obtain ⟨p, c, pe, ce, p2c, c2p, i, j⟩ := s
  simp only at *
  cases c with
  | closeP2cWrite | closeC2pRead =>
      cases hstep
      exact ⟨nofun, nofun⟩
  | head =>
      cases hstep
      split <;> exact ⟨nofun, nofun⟩
  | read =>
      simp only [ProcessPingPong.childStep, (hruns hat).2, Bool.true_or, if_true] at hstep
      split at hstep
      · cases hstep
        exact ⟨nofun, nofun⟩
      · cases hstep
  | write =>
      simp only [ProcessPingPong.childStep, (hruns hat).1, Bool.true_or, if_true] at hstep
      cases hstep
      exact ⟨nofun, nofun⟩
  | exit =>
      cases hstep
      exact ⟨nofun, nofun⟩
  | exited | killed => cases hstep

theorem keeps_whole (h : Inv n s) (hwhole : ¬ Broken n s) (hnext : next n a s = some s')
    (hok : noFailure a s) : ¬ Broken n s' := by
  cases a with
  | parent => exact h.parent_keeps_whole hwhole hnext
  | child => exact h.child_keeps_whole hwhole hnext
  | failParent => exact absurd rfl hok.1
  | failChild => exact absurd rfl hok.2

theorem fails (h : Inv n s) (hnext : next n a s = some s') (hfails : ¬ noFailure a s) :
    Broken n s' := by
  have hat := h.parent_at
  cases a with
  | parent => exact absurd ⟨nofun, nofun⟩ hfails
  | child => exact absurd ⟨nofun, nofun⟩ hfails
  | failParent =>
      simp only [next] at hnext
      split at hnext
      · next hplace =>
          cases hnext
          rcases hplace with hplace | hplace <;> rw [hplace] at hat <;> exact .inl ⟨rfl, hat.1⟩
      · cases hnext
  | failChild =>
      simp only [next] at hnext
      split at hnext
      · cases hnext
        exact .inr (.inr (.inl rfl))
      · cases hnext

end Inv

/-- Short of the end one of the two goes on. -/
theorem progress (n : ℕ) :
    Progress (fun _ => True) (next n) (fun s => Inv n s ∧ ¬ Broken n s) (Whole n) (left n) := by
  rintro s ⟨h, hwhole⟩ hnot
  have hmove : ∀ a s', noFailure a s → next n a s = some s' →
      ∃ a s', True ∧ next n a s = some s' ∧ (Inv n s' ∧ ¬ Broken n s') ∧ left n s' < left n s :=
    fun a s' hok hnext =>
      ⟨a, s', trivial, hnext, ⟨h.step hnext, h.keeps_whole hwhole hnext hok⟩, h.nearer hnext⟩
  cases hparent : parentStep n s with
  | some s' => exact hmove .parent s' ⟨nofun, nofun⟩ hparent
  | none =>
      cases hchild : childStep n s with
      | some s' => exact hmove .child s' ⟨nofun, nofun⟩ hchild
      | none =>
          -- both have ended, and neither has given up
          obtain ⟨hreturned, hgone⟩ := h.finished_of_stuck hparent hchild
          have hreturned := hreturned.resolve_right fun hkilled => hwhole (.inr (.inl hkilled))
          have hclosed : s.parentEnds.p2cWrite = false := by
            rw [h.parentEnds, hreturned]
            rfl
          refine absurd ⟨hreturned, h.parent_done hwhole (.inr hclosed), ?_⟩ hnot
          exact (h.child_done hwhole hgone).1

/-- **Which runs are whole.**  The parent can still get through all `n` rounds, and the child end
well, just when no call has failed. -/
theorem whole_iff_noFailure (n : ℕ) (as : List Action) :
    CanFinish (next n) (Whole n) (schedule (next n) as init) ↔
      EachStep (next n) init as noFailure := by
  have h0 : ¬ Broken n init := by
    rintro (⟨hthrough, -⟩ | hkilled | hchild | hkilled)
    · cases hthrough
    · cases hkilled
    · cases hchild
    · cases hkilled
  refine canFinish_iff (Broken n) ⟨init_inv n, h0⟩ ?_ (progress n) ?_ ?_ ?_
  · rintro a s s' ⟨h, hwhole⟩ hnext hok
    exact ⟨h.step hnext, h.keeps_whole hwhole hnext hok⟩
  · rintro a s s' ⟨h, -⟩ hnext hfails
    exact h.fails hnext hfails
  · intro a s s' h hnext
    exact h.step hnext
  · intro s h
    exact h.not_whole

end LearnCpp.Concurrency.ProcessPingPong
