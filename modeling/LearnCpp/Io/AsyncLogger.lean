/-
# `LearnCpp.Io.AsyncLogger` — a logger that empties its queue before it stops

`topics/io/async_logger.cpp`: any threads call `log`, one worker takes the
messages off the queue and prints them, and the destructor sets `done_`, notifies
and joins the worker.  All that is done with the mutex held is one step, its
notification included; the worker prints outside of it.  Who logs is not told
apart, and nobody logs any more once the destructor has been called.

The worker leaves its loop only when `done_` is set and the queue is empty, so
`done_` may come at any time: in the queue, in the worker's hand or printed,

    logged   =   printed ++ in hand ++ queue

A message comes with its notification, and `done_` with its own, so the worker
never sleeps with one of them before it and none to wake it.
-/
import LearnCpp.Lib.CondVar
import LearnCpp.Lib.Progress

namespace LearnCpp.Io.AsyncLogger

open Lib

/-- Where the worker is. -/
inductive Worker where
  /-- before the mutex, or in `cond_.wait` -/
  | waiting
  /-- at `print`, with the message that it took -/
  | printing (msg : String)
  /-- out of its loop -/
  | finished
  deriving DecidableEq

/-- Where the destructor is. -/
inductive Destructor where
  | notCalled
  /-- at `worker_.join()` -/
  | joining
  | returned
  deriving DecidableEq

/-- The one thread that waits on `cond_` is the worker.  `logged` are the messages in
the order in which they were queued, and `printed` is the text so far. -/
structure State where
  queue : List String := []
  cond : CondVar Unit := .new
  done : Bool := false
  worker : Worker := .waiting
  destructor : Destructor := .notCalled
  logged : List String := []
  printed : String := ""

inductive Action where
  /-- `log`; its notification wakes `wakes`. -/
  | log (msg : String) (wakes : Option Unit)
  /-- The worker takes the mutex and looks at its predicate. -/
  | locked
  | print
  /-- A spurious wake-up. -/
  | wake
  /-- The destructor, up to `join`. -/
  | destroy
  /-- `join` returns. -/
  | join
  deriving DecidableEq

/-- The worker with the mutex held: it waits, leaves its loop, or takes a message. -/
def locked (s : State) : State :=
  match s.queue with
  | msg :: queue => { s with queue := queue, cond := s.cond.leave (), worker := .printing msg }
  | [] =>
      if s.done then { s with cond := s.cond.leave (), worker := .finished }
      else { s with cond := s.cond.sleep () }

/-- `if (!msg.empty()) std::print("{}", msg);` -/
def print (msg : String) (s : State) : State :=
  if msg = "" then { s with worker := .waiting }
  else { s with worker := .waiting, printed := s.printed ++ msg }

def next : Action → State → Option State
  | .log msg wakes, s =>
      if s.destructor = .notCalled then
        (s.cond.notifyOne wakes).map fun cond =>
          { s with queue := s.queue ++ [msg], cond := cond, logged := s.logged ++ [msg] }
      else none
  | .locked, s =>
      if s.worker = .waiting ∧ () ∉ s.cond.asleep then some (locked s) else none
  | .print, s =>
      match s.worker with
      | .printing msg => some (print msg s)
      | _ => none
  | .wake, s => if () ∈ s.cond.asleep then some { s with cond := s.cond.wake () } else none
  | .destroy, s =>
      if s.destructor = .notCalled then
        some { s with done := true, cond := s.cond.notifyAll, destructor := .joining }
      else none
  | .join, s =>
      if s.destructor = .joining ∧ s.worker = .finished then some { s with destructor := .returned }
      else none

def init : State := {}

/-! ## The invariant -/

/-- The message in the worker's hand. -/
def Worker.hand : Worker → List String
  | .printing msg => [msg]
  | _ => []

structure Inv (s : State) : Prop where
  fifo : ∃ handled, s.logged = handled ++ s.worker.hand ++ s.queue ∧
    s.printed = String.join handled
  waits : ∀ i ∈ s.cond.asleep, s.worker = .waiting
  queued : s.cond.Covered s.queue.length 0
  awake : s.done = true → s.cond.asleep = ∅
  drained : s.worker = .finished → s.done = true ∧ s.queue = []
  called : s.done = true ↔ s.destructor ≠ .notCalled
  joined : s.destructor = .returned → s.worker = .finished

theorem init_inv : Inv init where
  fifo := ⟨[], rfl, rfl⟩
  waits := fun _ hi => absurd hi (Finset.notMem_empty _)
  queued := CondVar.covered_zero
  awake := fun h => by cases h
  drained := fun h => by cases h
  called := by simp [init]
  joined := fun h => by cases h

theorem join_concat (msgs : List String) (msg : String) :
    String.join (msgs ++ [msg]) = String.join msgs ++ msg := by
  simp [String.join]

section
variable {s s' : State}

theorem Inv.log (h : Inv s) {msg : String} {wakes : Option Unit}
    (hstep : next (.log msg wakes) s = some s') : Inv s' := by
  obtain ⟨hcalled, hs'⟩ := Option.ite_none_right_eq_some.mp hstep
  obtain ⟨cond, hnotify, rfl⟩ := Option.map_eq_some_iff.mp hs'
  have hrunning : s.done ≠ true := fun hdone => h.called.mp hdone hcalled
  obtain ⟨handled, hlogged, hprinted⟩ := h.fifo
  refine ⟨⟨handled, ?_, hprinted⟩, ?_, ?_, fun hdone => absurd hdone hrunning, ?_, h.called, h.joined⟩
  · show s.logged ++ [msg] = handled ++ s.worker.hand ++ (s.queue ++ [msg])
    rw [hlogged, List.append_assoc]
  · exact fun i hi => h.waits i (CondVar.asleep_notifyOne hnotify hi)
  · show cond.Covered (s.queue ++ [msg]).length 0
    rw [List.length_append]
    exact h.queued.post.notifyOne hnotify
  · exact fun hfinished => absurd (h.drained hfinished).1 hrunning

/-- **What the worker does with the mutex** keeps the invariant: it takes a message,
stops at the end, or goes to sleep when there is neither. -/
theorem Inv.locked (h : Inv s) (hwaiting : s.worker = .waiting) (hawake : () ∉ s.cond.asleep) :
    Inv (locked s) := by
  have hnobody : ∀ i ∈ s.cond.asleep, False := fun _ hi => hawake hi
  have hopen : s.destructor ≠ .returned := by
    intro hreturned
    cases hwaiting.symm.trans (h.joined hreturned)
  obtain ⟨handled, hlogged, hprinted⟩ := h.fifo
  rw [hwaiting] at hlogged
  rw [AsyncLogger.locked]
  split
  next msg queue hqueue =>
    rw [hqueue] at hlogged
    refine ⟨⟨handled, ?_, hprinted⟩, fun i hi => (hnobody i hi).elim, ?_, h.awake, ?_, h.called,
      fun hreturned => absurd hreturned hopen⟩
    · show s.logged = handled ++ [msg] ++ queue
      rw [hlogged, List.append_assoc, List.append_assoc]
      rfl
    · have hqueued := h.queued
      rw [hqueue] at hqueued
      exact hqueued.leave
    · intro hfinished
      cases hfinished
  next hempty =>
    cases hdone : s.done with
    | true =>
        rw [if_pos rfl]
        refine ⟨⟨handled, hlogged, hprinted⟩, fun i hi => (hnobody i hi).elim, ?_,
          fun _ => h.awake hdone, fun _ => ⟨rfl, hempty⟩, ?_, fun _ => rfl⟩
        · exact CondVar.covered_of_asleep_eq (h.awake hdone)
        · exact ⟨fun _ => h.called.mp hdone, fun _ => rfl⟩
    | false =>
        rw [if_neg Bool.false_ne_true]
        refine ⟨⟨handled, ?_, hprinted⟩, fun _ _ => hwaiting, ?_, ?_, ?_, ?_, h.joined⟩
        · show s.logged = handled ++ s.worker.hand ++ s.queue
          rw [hlogged, hwaiting]
        · show (s.cond.sleep ()).Covered s.queue.length 0
          rw [hempty]
          exact CondVar.covered_zero
        · intro habs
          cases habs
        · intro hfinished
          cases hwaiting.symm.trans hfinished
        · rw [← hdone]
          exact h.called

theorem Inv.print (h : Inv s) {msg : String} (hprinting : s.worker = .printing msg) :
    Inv (print msg s) := by
  have hopen : s.destructor ≠ .returned := by
    intro hreturned
    cases hprinting.symm.trans (h.joined hreturned)
  obtain ⟨handled, hlogged, hprinted⟩ := h.fifo
  rw [hprinting] at hlogged
  have hfifo : s.logged = handled ++ [msg] ++ [] ++ s.queue := by
    rw [List.append_nil]
    exact hlogged
  rw [AsyncLogger.print]
  split
  next hmsg =>
    refine ⟨⟨handled ++ [msg], hfifo, ?_⟩, fun _ _ => rfl, h.queued, h.awake, fun hfinished => ?_,
      h.called, fun hreturned => absurd hreturned hopen⟩
    · rw [join_concat, hmsg, String.append_empty]
      exact hprinted
    · cases hfinished
  next =>
    refine ⟨⟨handled ++ [msg], hfifo, ?_⟩, fun _ _ => rfl, h.queued, h.awake, fun hfinished => ?_,
      h.called, fun hreturned => absurd hreturned hopen⟩
    · rw [join_concat, ← hprinted]
    · cases hfinished

theorem Inv.destroy (h : Inv s) :
    Inv { s with done := true, cond := s.cond.notifyAll, destructor := .joining } where
  fifo := h.fifo
  waits := fun _ hi => absurd hi (Finset.notMem_empty _)
  queued := CondVar.covered_notifyAll
  awake := fun _ => rfl
  drained := fun hfinished => ⟨rfl, (h.drained hfinished).2⟩
  called := ⟨fun _ => Destructor.noConfusion, fun _ => rfl⟩
  joined := fun hreturned => by cases hreturned

/-- **Every step keeps the invariant.** -/
theorem Inv.next (h : Inv s) {a : Action} (hstep : next a s = some s') : Inv s' := by
  cases a with
  | log msg wakes => exact h.log hstep
  | locked =>
      obtain ⟨⟨hwaiting, hawake⟩, hs'⟩ := Option.ite_none_right_eq_some.mp hstep
      cases hs'
      exact h.locked hwaiting hawake
  | print =>
      rw [AsyncLogger.next] at hstep
      split at hstep
      next msg hprinting =>
        obtain rfl := Option.some.inj hstep
        exact h.print hprinting
      next => cases hstep
  | wake =>
      obtain ⟨-, hs'⟩ := Option.ite_none_right_eq_some.mp hstep
      cases hs'
      exact { h with
        waits := fun i hi => h.waits i (Finset.erase_subset _ _ hi)
        queued := h.queued.wake
        awake := fun hdone => Finset.subset_empty.mp
          ((Finset.erase_subset _ _).trans (h.awake hdone).subset) }
  | destroy =>
      obtain ⟨-, hs'⟩ := Option.ite_none_right_eq_some.mp hstep
      cases hs'
      exact h.destroy
  | join =>
      obtain ⟨⟨hjoining, hfinished⟩, hs'⟩ := Option.ite_none_right_eq_some.mp hstep
      cases hs'
      refine { h with called := ?_, joined := fun _ => hfinished }
      refine ⟨fun _ => Destructor.noConfusion, fun _ => h.called.mpr ?_⟩
      rw [hjoining]
      exact Destructor.noConfusion

/-- The worker that sleeps has not been notified, so there is nothing for it to do. -/
theorem Inv.idle (h : Inv s) (hasleep : () ∈ s.cond.asleep) : s.queue = [] ∧ s.done = false := by
  constructor
  · have hnone : s.cond.notified = ∅ := by
      refine Finset.eq_empty_of_forall_notMem fun i hi => ?_
      exact Finset.disjoint_left.mp s.cond.apart hasleep hi
    have hle : s.queue.length ≤ s.cond.notified.card := h.queued ⟨(), hasleep⟩
    rw [hnone, Finset.card_empty] at hle
    exact List.length_eq_zero_iff.mp (Nat.le_zero.mp hle)
  · cases hdone : s.done with
    | false => rfl
    | true => exact absurd (h.awake hdone ▸ hasleep) (Finset.notMem_empty _)

end

theorem schedule_inv (as : List Action) : Inv (schedule next as init) :=
  schedule_rule Inv init_inv (fun _ _ _ h => h.next) as

/-! ## What is logged, and the way to the end -/

def loggedBy : Action → State → List String
  | .log msg _, _ => [msg]
  | _, _ => []

theorem step_logged {a : Action} {s s' : State} (hstep : next a s = some s') :
    s'.logged = s.logged ++ loggedBy a s := by
  cases a with
  | log msg wakes =>
      obtain ⟨-, hs'⟩ := Option.ite_none_right_eq_some.mp hstep
      obtain ⟨cond, -, rfl⟩ := Option.map_eq_some_iff.mp hs'
      rfl
  | locked =>
      obtain ⟨-, hs'⟩ := Option.ite_none_right_eq_some.mp hstep
      cases hs'
      refine Eq.trans ?_ (List.append_nil _).symm
      rw [locked]
      split
      · rfl
      · split <;> rfl
  | print =>
      rw [next] at hstep
      split at hstep
      · obtain rfl := Option.some.inj hstep
        refine Eq.trans ?_ (List.append_nil _).symm
        rw [print]
        split <;> rfl
      · cases hstep
  | wake | destroy | join =>
      obtain ⟨-, hs'⟩ := Option.ite_none_right_eq_some.mp hstep
      cases hs'
      exact (List.append_nil _).symm

theorem log_isSome {s : State} (hcalled : s.destructor = .notCalled) (msg : String) :
    ∃ wakes, (next (.log msg wakes) s).isSome := by
  obtain ⟨wakes, cond, hcond⟩ := s.cond.exists_notifyOne
  refine ⟨wakes, ?_⟩
  simp only [next, if_pos hcalled, hcond]
  rfl

/-- The steps of the worker and of the destructor, without spurious wake-ups. -/
def Own : Action → Prop
  | .locked | .print | .destroy | .join => True
  | .log _ _ | .wake => False

def Worker.left : Worker → ℕ
  | .printing _ => 2
  | .waiting => 1
  | .finished => 0

def Destructor.left : Destructor → ℕ
  | .notCalled => 2
  | .joining => 1
  | .returned => 0

def State.left (s : State) : ℕ := 3 * s.queue.length + s.worker.left + s.destructor.left

theorem progress : Progress Own next Inv (fun s => s.destructor = .returned) State.left := by
  intro s h hgoing
  have hmove : ∀ a s', Own a → next a s = some s' → s'.left < s.left →
      ∃ a s', Own a ∧ next a s = some s' ∧ Inv s' ∧ s'.left < s.left :=
    fun a s' hown hstep hlt => ⟨a, s', hown, hstep, h.next hstep, hlt⟩
  cases hdestructor : s.destructor with
  | returned => exact absurd hdestructor hgoing
  | notCalled =>
      refine hmove .destroy _ trivial (if_pos hdestructor) ?_
      simp only [State.left, hdestructor]
      exact Nat.lt_succ_self _
  | joining =>
      have hdone : s.done = true := h.called.mpr (by rw [hdestructor]; exact Destructor.noConfusion)
      cases hworker : s.worker with
      | finished =>
          refine hmove .join _ trivial (if_pos ⟨hdestructor, hworker⟩) ?_
          simp only [State.left, hdestructor]
          exact Nat.lt_succ_self _
      | printing msg =>
          have hprint : next .print s = some (print msg s) := by simp only [next, hworker]
          refine hmove .print _ trivial hprint ?_
          rw [print]
          split <;> simp [State.left, hworker, Worker.left]
      | waiting =>
          have hawake : () ∉ s.cond.asleep := by
            rw [h.awake hdone]
            exact Finset.notMem_empty _
          refine hmove .locked _ trivial (if_pos ⟨hworker, hawake⟩) ?_
          rw [locked]
          split
          · next msg queue hqueue =>
              simp only [State.left, hqueue, List.length_cons, hworker, Worker.left]
              omega
          · next hempty =>
              simp only [if_pos hdone, State.left, hworker, Worker.left]
              omega

/-- **Nothing is lost at the end**: when the destructor has returned, the text printed
is all that was logged, in order; and the worker never sleeps through a message or
through the end.  What was logged are the messages of the calls of `log`, which can be made
until the destructor is called; and the destructor can always still return. -/
theorem always_flushed (as : List Action) :
    (Always next init as fun s =>
      (s.destructor = .returned → s.printed = String.join s.logged) ∧
      (() ∈ s.cond.asleep → s.queue = [] ∧ s.done = false) ∧
      (s.destructor = .notCalled → ∀ msg, ∃ wakes, (next (.log msg wakes) s).isSome) ∧
      CanFinishBy Own next (fun s => s.destructor = .returned) s) ∧
    (schedule next as init).logged = trace next loggedBy as init := by
  refine ⟨?_, record_eq_trace State.logged loggedBy init rfl (fun _ _ _ => step_logged) as⟩
  intro pre _
  have h := schedule_inv pre
  refine ⟨fun hreturned => ?_, h.idle, log_isSome, progress.canFinishBy h⟩
  have hfinished := h.joined hreturned
  obtain ⟨handled, hlogged, hprinted⟩ := h.fifo
  rw [hfinished, (h.drained hfinished).2, List.append_nil] at hlogged
  have hall : (schedule next pre init).logged = handled := hlogged.trans (List.append_nil handled)
  rw [hprinted, hall]

end LearnCpp.Io.AsyncLogger
