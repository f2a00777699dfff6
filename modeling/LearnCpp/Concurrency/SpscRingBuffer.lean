/-
# `LearnCpp.Concurrency.SpscRingBuffer` — the lock-free ring buffer, step by step

`topics/concurrency/lockfree_spsc_ring_buffer.cpp`: one producer calls `push`, one
consumer calls `pop` and `empty`.  Every load or store of `write_idx_`,
`read_idx_` or a slot is a step of its own, and the steps of the two sides
interleave freely, so each side works with a copy of the other's index that may
be out of date by the time it is used.

The invariant has a line for each program point (`ProducerAt`, `ConsumerAt`).
What makes it work is that a copy errs on the safe side:

    the producer saw room          ⟹   there is room, as only it takes any
    the consumer saw an element    ⟹   there is one, as only it takes any

The consumer's loop is the one of `main`, `while (!done || !rb.empty())`; it may
also just call `pop`.  `pushed` and `popped` are not in the source: they record
the values of the calls that returned true, in the order in which the indices
were stored.
-/
import LearnCpp.Lib.Ring
import LearnCpp.Lib.Schedule

namespace LearnCpp.Concurrency.SPSCRingBuffer

open Lib

variable {T : Type} {capacity : ℕ} [NeZero capacity]

/-- Where the producer is. -/
inductive Producer (T : Type) (capacity : ℕ) where
  | idle
  /-- `w = write_idx_.load()` -/
  | loadedWrite (value : T) (w : Fin capacity)
  /-- `next == read_idx_.load()` was false -/
  | notFull (value : T) (w : Fin capacity)
  /-- `buffer_[w] = std::move(value)` -/
  | stored (value : T) (w : Fin capacity)
  /-- `done = true` -/
  | finished
  deriving DecidableEq

/-- Where the consumer is. -/
inductive Consumer (T : Type) (capacity : ℕ) where
  | idle
  /-- in `pop`: `r = read_idx_.load()` -/
  | loadedRead (r : Fin capacity)
  /-- `r == write_idx_.load()` was false -/
  | notEmpty (r : Fin capacity)
  /-- `value = std::move(buffer_[r])` -/
  | loadedSlot (r : Fin capacity) (value : T)
  /-- in the loop: `!done` was false -/
  | sawDone
  /-- in `empty`: `read_idx_.load()` -/
  | emptyLoadedRead (r : Fin capacity)
  /-- the loop is over -/
  | exited
  deriving DecidableEq

structure State (T : Type) (capacity : ℕ) where
  ring : Ring T capacity
  done : Bool := false
  producer : Producer T capacity := .idle
  consumer : Consumer T capacity := .idle
  pushed : List T := []
  popped : List T := []

inductive Action (T : Type) where
  | callPush (value : T)
  | producer
  | setDone
  | callPop
  | testDone
  | consumer
  deriving DecidableEq

def step : Action T → State T capacity → Option (State T capacity)
  | .callPush value, s =>
      match s.producer with
      | .idle => some { s with producer := .loadedWrite value s.ring.write }
      | _ => none
  | .producer, s =>
      match s.producer with
      | .loadedWrite value w =>
          if Ring.next w = s.ring.read then some { s with producer := .idle }
          else some { s with producer := .notFull value w }
      | .notFull value w =>
          some { s with ring := s.ring.store w value, producer := .stored value w }
      | .stored value w =>
          some { s with
            ring := s.ring.setWrite (Ring.next w), producer := .idle, pushed := s.pushed ++ [value] }
      | _ => none
  | .setDone, s =>
      match s.producer with
      | .idle => some { s with producer := .finished, done := true }
      | _ => none
  | .callPop, s =>
      match s.consumer with
      | .idle => some { s with consumer := .loadedRead s.ring.read }
      | _ => none
  | .testDone, s =>
      match s.consumer with
      | .idle => some { s with consumer := if s.done then .sawDone else .idle }
      | _ => none
  | .consumer, s =>
      match s.consumer with
      | .loadedRead r =>
          if r = s.ring.write then some { s with consumer := .idle }
          else some { s with consumer := .notEmpty r }
      | .notEmpty r => some { s with consumer := .loadedSlot r (s.ring.slots r) }
      | .loadedSlot r value =>
          some { s with
            ring := s.ring.setRead (Ring.next r), consumer := .idle, popped := s.popped ++ [value] }
      | .sawDone => some { s with consumer := .emptyLoadedRead s.ring.read }
      | .emptyLoadedRead r =>
          some { s with consumer := if r = s.ring.write then .exited else .idle }
      | _ => none

/-- Before the threads start; the slots hold whatever `buffer_(Capacity)` puts there. -/
def init (slots : Fin capacity → T) : State T capacity := { ring := .empty slots }

/-- The slot that the producer is about to write. -/
def State.writing (s : State T capacity) : Option (Fin capacity) :=
  match s.producer with
  | .notFull _ w => some w
  | _ => none

/-- The slot that the consumer is about to read, or has read and not yet given back. -/
def State.reading (s : State T capacity) : Option (Fin capacity) :=
  match s.consumer with
  | .notEmpty r => some r
  | .loadedSlot r _ => some r
  | _ => none

/-- The next step of the producer is the load of `read_idx_` that makes `push` fail. -/
def State.PushFails (s : State T capacity) : Prop :=
  ∃ value w, s.producer = .loadedWrite value w ∧ Ring.next w = s.ring.read

/-- It is the step from the load back to `idle`, the one at which `push` returns false. -/
theorem pushFails_iff {s : State T capacity} :
    s.PushFails ↔ ∃ value w s', s.producer = .loadedWrite value w ∧
      step .producer s = some s' ∧ s'.producer = .idle := by
  constructor
  · rintro ⟨value, w, hp, hfull⟩
    refine ⟨value, w, { s with producer := .idle }, hp, ?_, rfl⟩
    simp only [step, hp, if_pos hfull]
  · rintro ⟨value, w, s', hp, hstep, hidle⟩
    simp only [step, hp] at hstep
    split at hstep
    · next hfull => exact ⟨value, w, hp, hfull⟩
    · cases hstep
      cases hidle

/-! ## The invariant -/

/-- What the producer can rely on, wherever it is. -/
def ProducerAt (ring : Ring T capacity) : Producer T capacity → Prop
  | .loadedWrite _ w => w = ring.write
  | .notFull _ w => w = ring.write ∧ ring.contents.length + 1 < capacity
  | .stored value w => w = ring.write ∧ ring.contents.length + 1 < capacity ∧ ring.slots w = value
  | _ => True

/-- What the consumer can rely on, wherever it is. -/
def ConsumerAt (ring : Ring T capacity) (done : Bool) : Consumer T capacity → Prop
  | .loadedRead r => r = ring.read
  | .notEmpty r => r = ring.read ∧ r ≠ ring.write
  | .loadedSlot r value => r = ring.read ∧ r ≠ ring.write ∧ ring.slots r = value
  | .sawDone => done = true
  | .emptyLoadedRead r => r = ring.read ∧ done = true
  | .exited => ring.contents = [] ∧ done = true
  | .idle => True

structure Inv (s : State T capacity) : Prop where
  fifo : s.pushed = s.popped ++ s.ring.contents
  producer : ProducerAt s.ring s.producer
  consumer : ConsumerAt s.ring s.done s.consumer
  notDone : s.producer ≠ .finished → s.done = false

theorem init_inv (slots : Fin capacity → T) : Inv (init slots) where
  fifo := (Ring.contents_empty slots).symm
  producer := trivial
  consumer := trivial
  notDone _ := rfl

section
variable {ring : Ring T capacity} {w r : Fin capacity} {value : T}

theorem ConsumerAt.store {done : Bool} {consumer : Consumer T capacity} (hw : w = ring.write)
    (h : ConsumerAt ring done consumer) : ConsumerAt (ring.store w value) done consumer := by
  subst hw
  cases consumer with
  | loadedSlot r value' =>
      obtain ⟨hr, hne, hslot⟩ := h
      exact ⟨hr, hne, (Function.update_of_ne hne ..).trans hslot⟩
  | exited =>
      obtain ⟨hempty, hdone⟩ := h
      exact ⟨(Ring.contents_store ring.write_not_mem_filled value).trans hempty, hdone⟩
  | idle => trivial
  | loadedRead r => exact h
  | notEmpty r => exact h
  | sawDone => exact h
  | emptyLoadedRead r => exact h

theorem ConsumerAt.setWrite {consumer : Consumer T capacity}
    (hroom : Ring.next ring.write ≠ ring.read) (h : ConsumerAt ring false consumer) :
    ConsumerAt (ring.setWrite (Ring.next ring.write)) false consumer := by
  cases consumer with
  | notEmpty r =>
      obtain ⟨rfl, -⟩ := h
      exact ⟨rfl, hroom.symm⟩
  | loadedSlot r value' =>
      obtain ⟨rfl, -, hslot⟩ := h
      exact ⟨rfl, hroom.symm, hslot⟩
  | exited => exact absurd h.2 Bool.false_ne_true
  | idle => trivial
  | loadedRead r => exact h
  | sawDone => exact h
  | emptyLoadedRead r => exact h

theorem ConsumerAt.setDone {consumer : Consumer T capacity} (h : ConsumerAt ring false consumer) :
    ConsumerAt ring true consumer := by
  cases consumer with
  | emptyLoadedRead r => exact ⟨h.1, rfl⟩
  | exited => exact ⟨h.1, rfl⟩
  | idle => trivial
  | loadedRead r => exact h
  | notEmpty r => exact h
  | loadedSlot r value' => exact h
  | sawDone => rfl

theorem ProducerAt.setRead {producer : Producer T capacity} (hne : ring.read ≠ ring.write)
    (h : ProducerAt ring producer) : ProducerAt (ring.setRead (Ring.next ring.read)) producer := by
  have hlength : (ring.setRead (Ring.next ring.read)).contents.length < ring.contents.length := by
    rw [Ring.contents_eq_cons hne]
    exact Nat.lt_succ_self _
  cases producer with
  | notFull value w =>
      obtain ⟨hw, hroom⟩ := h
      exact ⟨hw, by omega⟩
  | stored value w =>
      obtain ⟨hw, hroom, hslot⟩ := h
      exact ⟨hw, by omega, hslot⟩
  | idle => trivial
  | loadedWrite value w => exact h
  | finished => trivial

end

/-- **Each step of the producer keeps the invariant.** -/
theorem Inv.producer_step {s s' : State T capacity} (h : Inv s)
    (hstep : step .producer s = some s') : Inv s' := by
  have hproducer := h.producer
  have hconsumer := h.consumer
  cases hp : s.producer with
  | loadedWrite value w =>
      rw [hp] at hproducer
      have hdone := h.notDone (by simp [hp])
      simp only [step, hp] at hstep
      split at hstep
      · cases hstep
        exact ⟨h.fifo, trivial, hconsumer, fun _ => hdone⟩
      · next hroom =>
          cases hstep
          obtain rfl : w = s.ring.write := hproducer
          exact ⟨h.fifo, ⟨rfl, Ring.next_write_ne.mp hroom⟩, hconsumer,
            fun _ => hdone⟩
  | notFull value w =>
      rw [hp] at hproducer
      have hdone := h.notDone (by simp [hp])
      simp only [step, hp, Option.some.injEq] at hstep
      subst hstep
      obtain ⟨rfl, hroom⟩ := hproducer
      have hcontents := Ring.contents_store s.ring.write_not_mem_filled value
      refine ⟨?_, ⟨rfl, ?_, Ring.store_slots⟩, hconsumer.store rfl,
        fun _ => hdone⟩
      · rw [hcontents]
        exact h.fifo
      · rw [hcontents]
        exact hroom
  | stored value w =>
      rw [hp] at hproducer
      have hdone := h.notDone (by simp [hp])
      simp only [step, hp, Option.some.injEq] at hstep
      subst hstep
      obtain ⟨rfl, hroom, hslot⟩ := hproducer
      have hnext := Ring.next_write_ne.mpr hroom
      refine ⟨?_, trivial, ?_, fun _ => hdone⟩
      · rw [Ring.contents_advance hnext, hslot, ← List.append_assoc, ← h.fifo]
      · rw [hdone] at hconsumer ⊢
        exact hconsumer.setWrite hnext
  | idle => simp [step, hp] at hstep
  | finished => simp [step, hp] at hstep

/-- **Each step of the consumer keeps the invariant.** -/
theorem Inv.consumer_step {s s' : State T capacity} (h : Inv s)
    (hstep : step .consumer s = some s') : Inv s' := by
  have hconsumer := h.consumer
  cases hc : s.consumer with
  | loadedRead r =>
      rw [hc] at hconsumer
      simp only [step, hc] at hstep
      split at hstep
      · cases hstep
        exact ⟨h.fifo, h.producer, trivial, h.notDone⟩
      · next hne =>
          cases hstep
          exact ⟨h.fifo, h.producer, ⟨hconsumer, hne⟩, h.notDone⟩
  | notEmpty r =>
      rw [hc] at hconsumer
      simp only [step, hc, Option.some.injEq] at hstep
      subst hstep
      exact ⟨h.fifo, h.producer, ⟨hconsumer.1, hconsumer.2, rfl⟩, h.notDone⟩
  | loadedSlot r value =>
      rw [hc] at hconsumer
      simp only [step, hc, Option.some.injEq] at hstep
      subst hstep
      obtain ⟨rfl, hne, rfl⟩ := hconsumer
      refine ⟨?_, h.producer.setRead hne, trivial, h.notDone⟩
      rw [List.append_assoc, List.singleton_append, ← Ring.contents_eq_cons hne]
      exact h.fifo
  | sawDone =>
      rw [hc] at hconsumer
      simp only [step, hc, Option.some.injEq] at hstep
      subst hstep
      exact ⟨h.fifo, h.producer, ⟨rfl, hconsumer⟩, h.notDone⟩
  | emptyLoadedRead r =>
      rw [hc] at hconsumer
      simp only [step, hc, Option.some.injEq] at hstep
      subst hstep
      obtain ⟨rfl, hdone⟩ := hconsumer
      refine ⟨h.fifo, h.producer, ?_, h.notDone⟩
      split
      · next heq => exact ⟨Ring.contents_eq_nil.mpr heq, hdone⟩
      · trivial
  | idle => simp [step, hc] at hstep
  | exited => simp [step, hc] at hstep

theorem Inv.step {a : Action T} {s s' : State T capacity} (h : Inv s)
    (hstep : step a s = some s') : Inv s' := by
  cases a with
  | producer => exact h.producer_step hstep
  | consumer => exact h.consumer_step hstep
  | callPush value =>
      simp only [SPSCRingBuffer.step] at hstep
      split at hstep
      · next hp =>
          cases hstep
          have hdone := h.notDone (by simp [hp])
          exact ⟨h.fifo, rfl, h.consumer, fun _ => hdone⟩
      · cases hstep
  | setDone =>
      simp only [SPSCRingBuffer.step] at hstep
      split at hstep
      · next hp =>
          cases hstep
          have hconsumer := h.consumer
          rw [h.notDone (by simp [hp])] at hconsumer
          exact ⟨h.fifo, trivial, hconsumer.setDone, fun hne => absurd rfl hne⟩
      · cases hstep
  | callPop =>
      simp only [SPSCRingBuffer.step] at hstep
      split at hstep
      · cases hstep
        exact ⟨h.fifo, h.producer, rfl, h.notDone⟩
      · cases hstep
  | testDone =>
      simp only [SPSCRingBuffer.step] at hstep
      split at hstep
      · cases hstep
        refine ⟨h.fifo, h.producer, ?_, h.notDone⟩
        split
        · next hdone => exact hdone
        · trivial
      · cases hstep

/-! ## Every interleaving -/

theorem reachable_inv (slots : Fin capacity → T) (actions : List (Action T)) :
    Inv (schedule step actions (init slots)) :=
  schedule_rule Inv (init_inv slots) (fun _ _ _ h hstep => h.step hstep) actions

theorem Inv.unconsumed {s : State T capacity} (h : Inv s) :
    s.pushed.length - s.popped.length = s.ring.contents.length := by
  rw [h.fifo, List.length_append, Nat.add_sub_cancel_left]

/-- **A bounded queue for `capacity - 1` elements**, in every interleaving.  The
values popped are the first of those pushed; the producer does not write where
the consumer reads; `push` fails only where the queue is full; and the consumer
leaves its loop only when it has everything. -/
theorem refines_bounded_fifo (slots : Fin capacity → T) (actions : List (Action T)) :
    let s := schedule step actions (init slots)
    let unconsumed := s.pushed.length - s.popped.length
    s.popped <+: s.pushed ∧ unconsumed ≤ capacity - 1 ∧
    (∀ w, s.writing = some w → s.reading ≠ some w) ∧
    (s.PushFails → unconsumed = capacity - 1) ∧
    (s.consumer = .exited → s.producer = .finished ∧ s.popped = s.pushed) := by
  have h := reachable_inv slots actions
  generalize schedule step actions (init slots) = s at h
  have hlt := s.ring.length_contents_lt
  have hproducer := h.producer
  have hconsumer := h.consumer
  dsimp only
  rw [h.unconsumed]
  refine ⟨⟨_, h.fifo.symm⟩, by omega, ?_, ?_, ?_⟩
  · -- the producer writes at the write index, which the consumer has seen not to be its own
    intro w hw hr
    unfold State.writing at hw
    unfold State.reading at hr
    split at hw
    · next value w' hp =>
        cases hw
        rw [hp] at hproducer
        split at hr
        · next r hc =>
            cases hr
            rw [hc] at hconsumer
            exact hconsumer.2 hproducer.1
        · next r value' hc =>
            cases hr
            rw [hc] at hconsumer
            exact hconsumer.2.1 hproducer.1
        · cases hr
    · cases hw
  · rintro ⟨value, w, hp, hfull⟩
    rw [hp] at hproducer
    obtain rfl : w = s.ring.write := hproducer
    have := Ring.next_write_eq.mp hfull
    omega
  · intro hc
    rw [hc] at hconsumer
    obtain ⟨hempty, hdone⟩ := hconsumer
    refine ⟨?_, ?_⟩
    · by_contra hne
      exact Bool.false_ne_true ((h.notDone hne).symm.trans hdone)
    · rw [h.fifo, hempty, List.append_nil]

/-- Three slots: the producer fills the two that are free, meets a full ring while
the consumer is about to read, and is done; the consumer pops both and leaves. -/
theorem refines_bounded_fifo_full :
    let s := schedule step
      ([.callPush 7, .producer, .producer, .producer, .callPush 8, .producer, .producer, .producer,
        .callPop, .consumer, .callPush 9, .producer, .setDone, .consumer, .consumer,
        .testDone, .consumer, .consumer, .callPop, .consumer, .consumer, .consumer,
        .testDone, .consumer, .consumer] : List (Action ℕ)) (init fun _ => 0 : State ℕ 3)
    (s.pushed = [7, 8] ∧ s.consumer = .exited) ∧ s.popped = s.pushed :=
  ⟨by decide, ((refines_bounded_fifo _ _).2.2.2.2 (by decide)).2⟩

/-! ## In one piece -/

def push (value : T) (ring : Ring T capacity) : Option (Ring T capacity) := ring.push value

def pop (ring : Ring T capacity) : Option (T × Ring T capacity) := ring.pop

/-- A push that nothing interrupts is `push` in one piece. -/
theorem push_uninterrupted {s : State T capacity} (hidle : s.producer = .idle) (value : T) :
    (schedule step [.callPush value, .producer, .producer, .producer] s).ring =
      (push value s.ring).getD s.ring := by
  simp only [schedule, exec, List.foldl_cons, List.foldl_nil, attempt, step, hidle, Option.getD_some]
  by_cases hfull : Ring.next s.ring.write = s.ring.read
  · simp [push, Ring.push, hfull]
  · simp [push, Ring.push, hfull]

theorem pop_uninterrupted {s : State T capacity} (hidle : s.consumer = .idle) :
    let s' := schedule step [.callPop, .consumer, .consumer, .consumer] s
    (s'.popped, s'.ring) = match pop s.ring with
      | none => (s.popped, s.ring)
      | some (value, ring) => (s.popped ++ [value], ring) := by
  simp only [schedule, exec, List.foldl_cons, List.foldl_nil, attempt, step, hidle, Option.getD_some]
  by_cases hempty : s.ring.read = s.ring.write
  · simp [pop, Ring.pop, hempty]
  · simp [pop, Ring.pop, hempty]

end LearnCpp.Concurrency.SPSCRingBuffer
