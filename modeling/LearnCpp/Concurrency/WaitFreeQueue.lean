/-
# `LearnCpp.Concurrency.WaitFreeQueue` — the queue with a flag for each slot

`topics/concurrency/waitfree_spsc_queue.cpp`: one producer calls `enqueue`, one
consumer calls `dequeue`.  Neither looks at the other's index; whether a slot may
be written or read is told by its `ready` flag, and the index follows in a later
step.  So all `Capacity` slots can be in use, and between the two steps of a side
its own index is one behind (`back`, `front`).

The queue is laid out from `front` on, and the flags say how far it goes:

    value[front], …, value[back - 1]   = the values not yet consumed
    ready[front], …, ready[back - 1]   = true,  and false elsewhere

`enqueued` and `dequeued` record the values of the calls that returned true, in
the order in which the flags were stored.
-/
import LearnCpp.Lib.Ring
import LearnCpp.Lib.Schedule

namespace LearnCpp.Concurrency.WaitFreeSPSCQueue

open Lib

variable {T : Type} {capacity : ℕ} [NeZero capacity]

/-- Where the producer is. -/
inductive Producer (T : Type) (capacity : ℕ) where
  | idle
  /-- `w = write_idx_.load()` -/
  | loadedWrite (value : T) (w : Fin capacity)
  /-- `s.ready.load()` was false -/
  | notReady (value : T) (w : Fin capacity)
  /-- `s.value = std::move(value)` -/
  | stored (value : T) (w : Fin capacity)
  /-- `s.ready.store(true)` -/
  | setReady (w : Fin capacity)
  deriving DecidableEq

/-- Where the consumer is. -/
inductive Consumer (T : Type) (capacity : ℕ) where
  | idle
  /-- `r = read_idx_.load()` -/
  | loadedRead (r : Fin capacity)
  /-- `!s.ready.load()` was false -/
  | sawReady (r : Fin capacity)
  /-- `value = std::move(s.value)` -/
  | loadedValue (r : Fin capacity) (value : T)
  /-- `s.ready.store(false)` -/
  | clearedReady (r : Fin capacity)
  deriving DecidableEq

structure State (T : Type) (capacity : ℕ) where
  ready : Fin capacity → Bool
  value : Fin capacity → T
  writeIdx : Fin capacity
  readIdx : Fin capacity
  producer : Producer T capacity := .idle
  consumer : Consumer T capacity := .idle
  enqueued : List T := []
  dequeued : List T := []

inductive Action (T : Type) where
  | callEnqueue (value : T)
  | producer
  | callDequeue
  | consumer
  deriving DecidableEq

def step : Action T → State T capacity → Option (State T capacity)
  | .callEnqueue value, s =>
      match s.producer with
      | .idle => some { s with producer := .loadedWrite value s.writeIdx }
      | _ => none
  | .producer, s =>
      match s.producer with
      | .loadedWrite value w =>
          if s.ready w then some { s with producer := .idle }
          else some { s with producer := .notReady value w }
      | .notReady value w =>
          some { s with value := Function.update s.value w value, producer := .stored value w }
      | .stored value w =>
          some { s with
            ready := Function.update s.ready w true, producer := .setReady w
            enqueued := s.enqueued ++ [value] }
      | .setReady w => some { s with writeIdx := Ring.next w, producer := .idle }
      | .idle => none
  | .callDequeue, s =>
      match s.consumer with
      | .idle => some { s with consumer := .loadedRead s.readIdx }
      | _ => none
  | .consumer, s =>
      match s.consumer with
      | .loadedRead r =>
          if s.ready r then some { s with consumer := .sawReady r }
          else some { s with consumer := .idle }
      | .sawReady r => some { s with consumer := .loadedValue r (s.value r) }
      | .loadedValue r value =>
          some { s with
            ready := Function.update s.ready r false, consumer := .clearedReady r
            dequeued := s.dequeued ++ [value] }
      | .clearedReady r => some { s with readIdx := Ring.next r, consumer := .idle }
      | .idle => none

/-- Before the threads start: no slot is ready, whatever its value. -/
def init (value : Fin capacity → T) : State T capacity where
  ready _ := false
  value := value
  writeIdx := 0
  readIdx := 0

namespace State

/-- The slot of the next value to be enqueued. -/
def back (s : State T capacity) : Fin capacity :=
  match s.producer with
  | .setReady w => Ring.next w
  | _ => s.writeIdx

/-- The slot of the next value to be consumed. -/
def front (s : State T capacity) : Fin capacity :=
  match s.consumer with
  | .clearedReady r => Ring.next r
  | _ => s.readIdx

/-- What was enqueued and not yet consumed. -/
def unconsumed (s : State T capacity) : List T := s.enqueued.drop s.dequeued.length

/-- The slot that the producer is about to write. -/
def writing (s : State T capacity) : Option (Fin capacity) :=
  match s.producer with
  | .notReady _ w => some w
  | _ => none

/-- The value of a call of `enqueue` that found its flag down and has not yet set it. -/
def underWay (s : State T capacity) : List T :=
  match s.producer with
  | .notReady value _ | .stored value _ => [value]
  | _ => []

end State

/-- The value of a call of `enqueue` that finds its flag down. -/
def accepted : Action T → State T capacity → List T
  | .producer, s =>
      match s.producer with
      | .loadedWrite value w => if s.ready w then [] else [value]
      | _ => []
  | _, _ => []

/-! ## The invariant -/

/-- What the producer can rely on, wherever it is, when `length` values are not consumed. -/
def ProducerAt (value : Fin capacity → T) (writeIdx : Fin capacity) (length : ℕ) :
    Producer T capacity → Prop
  | .loadedWrite _ w => w = writeIdx
  | .notReady _ w => w = writeIdx ∧ length < capacity
  | .stored v w => w = writeIdx ∧ length < capacity ∧ value w = v
  | .setReady w => w = writeIdx
  | .idle => True

/-- What the consumer can rely on, wherever it is, when `q` is not consumed. -/
def ConsumerAt (readIdx : Fin capacity) (q : List T) : Consumer T capacity → Prop
  | .loadedRead r => r = readIdx
  | .sawReady r => r = readIdx ∧ q ≠ []
  | .loadedValue r v => r = readIdx ∧ q.head? = some v
  | .clearedReady r => r = readIdx
  | .idle => True

structure Inv (s : State T capacity) (q : List T) : Prop where
  fifo : s.enqueued = s.dequeued ++ q
  length : q.length ≤ capacity
  laid : Ring.Laid s.value s.front q
  flagged : Ring.Flagged s.ready s.front q.length
  back : s.back = Ring.slot s.front q.length
  producer : ProducerAt s.value s.writeIdx q.length s.producer
  consumer : ConsumerAt s.readIdx q s.consumer

theorem init_inv (value : Fin capacity → T) : Inv (init value) [] where
  fifo := rfl
  length := Nat.zero_le _
  laid := fun _ h => absurd h (Nat.not_lt_zero _)
  flagged := fun _ _ => rfl
  back := (Ring.slot_zero _).symm
  producer := trivial
  consumer := trivial

section
variable {s s' : State T capacity} {q : List T}

theorem Inv.ready_back (h : Inv s q) : s.ready s.back = true ↔ q.length = capacity := by
  rw [h.back]
  rcases Nat.lt_or_eq_of_le h.length with hlt | heq
  · rw [h.flagged _ hlt, decide_eq_true_iff]
    exact ⟨fun habs => absurd habs (Nat.lt_irrefl _), fun heq => absurd heq hlt.ne⟩
  · have hpos := Nat.pos_of_neZero capacity
    rw [heq, Ring.slot_self, ← Ring.slot_zero s.front, h.flagged 0 hpos, decide_eq_true_iff]
    exact ⟨fun _ => rfl, fun _ => heq.symm ▸ hpos⟩

theorem Inv.ready_front (h : Inv s q) : s.ready s.front = true ↔ q ≠ [] := by
  have hzero := h.flagged 0 (Nat.pos_of_neZero capacity)
  rw [Ring.slot_zero] at hzero
  rw [hzero, decide_eq_true_iff, List.length_pos_iff]

omit [NeZero capacity] in
theorem ConsumerAt.concat {readIdx : Fin capacity} {consumer : Consumer T capacity} {value : T}
    (h : ConsumerAt readIdx q consumer) : ConsumerAt readIdx (q ++ [value]) consumer := by
  cases consumer with
  | loadedValue r v =>
      refine ⟨h.1, ?_⟩
      rw [List.head?_append, h.2]
      rfl
  | sawReady r => exact ⟨h.1, List.append_ne_nil_of_right_ne_nil _ (List.cons_ne_nil value [])⟩
  | loadedRead r => exact h
  | clearedReady r => exact h
  | idle => trivial

omit [NeZero capacity] in
theorem ProducerAt.mono {value : Fin capacity → T} {writeIdx : Fin capacity} {length length' : ℕ}
    {producer : Producer T capacity} (hle : length' ≤ length)
    (h : ProducerAt value writeIdx length producer) : ProducerAt value writeIdx length' producer := by
  cases producer with
  | notReady v w => exact ⟨h.1, hle.trans_lt h.2⟩
  | stored v w => exact ⟨h.1, hle.trans_lt h.2.1, h.2.2⟩
  | loadedWrite v w => exact h
  | setReady w => exact h
  | idle => trivial

/-- **Each step of the producer keeps the invariant.**  The queue gets longer when
the flag is set. -/
theorem Inv.producer_step (h : Inv s q) (hstep : step .producer s = some s') :
    ∃ q', Inv s' q' := by
  have hproducer := h.producer
  have hback := h.back
  cases hp : s.producer with
  | loadedWrite value w =>
      rw [hp] at hproducer
      rw [State.back, hp] at hback
      obtain rfl : w = s.writeIdx := hproducer
      simp only [step, hp] at hstep
      split at hstep
      · cases hstep
        exact ⟨q, h.fifo, h.length, h.laid, h.flagged, hback, trivial, h.consumer⟩
      · next hready =>
          cases hstep
          have hroom : q.length < capacity := by
            refine lt_of_le_of_ne h.length fun hfull => hready ?_
            have := h.ready_back.mpr hfull
            rwa [State.back, hp] at this
          exact ⟨q, h.fifo, h.length, h.laid, h.flagged, hback, ⟨rfl, hroom⟩, h.consumer⟩
  | notReady value w =>
      rw [hp] at hproducer
      rw [State.back, hp] at hback
      obtain ⟨rfl, hroom⟩ := hproducer
      simp only [step, hp, Option.some.injEq] at hstep
      subst hstep
      refine ⟨q, h.fifo, h.length, ?_, h.flagged, hback, ⟨rfl, hroom, Function.update_self ..⟩,
        h.consumer⟩
      have hlaid := h.laid.update hroom value
      rwa [← hback] at hlaid
  | stored value w =>
      rw [hp] at hproducer
      rw [State.back, hp] at hback
      obtain ⟨rfl, hroom, hvalue⟩ := hproducer
      simp only [step, hp, Option.some.injEq] at hstep
      subst hstep
      have hlength : (q ++ [value]).length = q.length + 1 := List.length_append
      have hback' : s.writeIdx = Ring.slot s.front q.length := hback
      refine ⟨q ++ [value], ?_, hlength ▸ hroom, ?_, ?_, ?_, rfl, ?_⟩
      · rw [h.fifo, List.append_assoc]
      · exact h.laid.concat (hback' ▸ hvalue)
      · rw [hlength]
        have hflagged := h.flagged.set hroom
        rwa [← hback'] at hflagged
      · rw [hlength]
        exact (congrArg Ring.next hback').trans (Ring.next_slot ..)
      · exact h.consumer.concat
  | setReady w =>
      rw [State.back, hp] at hback
      simp only [step, hp, Option.some.injEq] at hstep
      subst hstep
      exact ⟨q, h.fifo, h.length, h.laid, h.flagged, hback, trivial, h.consumer⟩
  | idle => simp [step, hp] at hstep

/-- **Each step of the consumer keeps the invariant.**  The queue gets shorter when
the flag is cleared. -/
theorem Inv.consumer_step (h : Inv s q) (hstep : step .consumer s = some s') :
    ∃ q', Inv s' q' := by
  have hconsumer := h.consumer
  have hlaid := h.laid
  have hflagged := h.flagged
  have hback := h.back
  cases hc : s.consumer with
  | loadedRead r =>
      rw [hc] at hconsumer
      rw [State.front, hc] at hlaid hflagged hback
      obtain rfl : r = s.readIdx := hconsumer
      simp only [step, hc] at hstep
      split at hstep
      · next hready =>
          cases hstep
          have hne : q ≠ [] := by
            refine h.ready_front.mp ?_
            rwa [State.front, hc]
          exact ⟨q, h.fifo, h.length, hlaid, hflagged, hback, h.producer, rfl, hne⟩
      · cases hstep
        exact ⟨q, h.fifo, h.length, hlaid, hflagged, hback, h.producer, trivial⟩
  | sawReady r =>
      rw [hc] at hconsumer
      rw [State.front, hc] at hlaid hflagged hback
      obtain ⟨rfl, hne⟩ := hconsumer
      simp only [step, hc, Option.some.injEq] at hstep
      subst hstep
      obtain ⟨v, q, rfl⟩ := List.exists_cons_of_ne_nil hne
      exact ⟨v :: q, h.fifo, h.length, hlaid, hflagged, hback, h.producer, rfl,
        congrArg some (Ring.Laid.head hlaid).symm⟩
  | loadedValue r v =>
      rw [hc] at hconsumer
      rw [State.front, hc] at hlaid hflagged hback
      obtain ⟨rfl, hhead⟩ := hconsumer
      simp only [step, hc, Option.some.injEq] at hstep
      subst hstep
      obtain ⟨q, rfl⟩ := List.head?_eq_some_iff.mp hhead
      have hlength : q.length + 1 ≤ capacity := h.length
      refine ⟨q, ?_, Nat.le_of_succ_le hlength, hlaid.tail, hflagged.clear hlength, ?_, ?_, rfl⟩
      · rw [h.fifo, List.append_assoc]
        rfl
      · exact hback.trans (Ring.slot_next ..).symm
      · exact h.producer.mono (Nat.le_succ _)
  | clearedReady r =>
      rw [State.front, hc] at hlaid hflagged hback
      simp only [step, hc, Option.some.injEq] at hstep
      subst hstep
      exact ⟨q, h.fifo, h.length, hlaid, hflagged, hback, h.producer, trivial⟩
  | idle => simp [step, hc] at hstep

theorem Inv.step {a : Action T} (h : Inv s q) (hstep : step a s = some s') : ∃ q', Inv s' q' := by
  have hback := h.back
  have hfront := h.laid
  have hflagged := h.flagged
  cases a with
  | producer => exact h.producer_step hstep
  | consumer => exact h.consumer_step hstep
  | callEnqueue value =>
      simp only [WaitFreeSPSCQueue.step] at hstep
      split at hstep
      · next hp =>
          rw [State.back, hp] at hback
          cases hstep
          exact ⟨q, h.fifo, h.length, h.laid, h.flagged, hback, rfl, h.consumer⟩
      · cases hstep
  | callDequeue =>
      simp only [WaitFreeSPSCQueue.step] at hstep
      split at hstep
      · next hc =>
          rw [State.front, hc] at hfront hflagged hback
          cases hstep
          exact ⟨q, h.fifo, h.length, hfront, hflagged, hback, h.producer, rfl⟩
      · cases hstep

end

/-! ## Every interleaving -/

theorem reachable_inv (value : Fin capacity → T) (actions : List (Action T)) :
    ∃ q, Inv (schedule step actions (init value)) q :=
  schedule_rule (fun s => ∃ q, Inv s q) ⟨[], init_inv value⟩
    (fun _ _ _ ⟨_, h⟩ hstep => h.step hstep) actions

theorem enqueued_step {a : Action T} {s s' : State T capacity} (hstep : step a s = some s') :
    s'.enqueued ++ s'.underWay = s.enqueued ++ s.underWay ++ accepted a s := by
  cases a with
  | producer =>
      cases hp : s.producer with
      | loadedWrite value w =>
          simp only [step, hp] at hstep
          split at hstep
          · next hready =>
              cases hstep
              simp [State.underWay, accepted, hp, hready]
          · next hready =>
              cases hstep
              simp [State.underWay, accepted, hp, hready]
      | notReady value w | stored value w | setReady w =>
          simp only [step, hp, Option.some.injEq] at hstep
          subst hstep
          simp [State.underWay, accepted, hp]
      | idle => simp [step, hp] at hstep
  | callEnqueue value =>
      simp only [step] at hstep
      split at hstep
      · next hp =>
          cases hstep
          simp [State.underWay, accepted, hp]
      · cases hstep
  | callDequeue =>
      simp only [step] at hstep
      split at hstep
      · cases hstep
        exact (List.append_nil _).symm
      · cases hstep
  | consumer =>
      cases hc : s.consumer with
      | loadedRead r =>
          simp only [step, hc] at hstep
          split at hstep
          · cases hstep
            exact (List.append_nil _).symm
          · cases hstep
            exact (List.append_nil _).symm
      | sawReady r | loadedValue r value | clearedReady r =>
          simp only [step, hc, Option.some.injEq] at hstep
          subst hstep
          exact (List.append_nil _).symm
      | idle => simp [step, hc] at hstep

/-- The flag that `enqueue` loads is up just when the queue is full. -/
theorem enqueue_loads {s : State T capacity} {q : List T} (h : Inv s q) {value : T}
    {w : Fin capacity} (hp : s.producer = .loadedWrite value w) :
    ∃ s', step .producer s = some s' ∧
      s'.producer = if q.length = capacity then .idle else .notReady value w := by
  have hproducer := h.producer
  have hready := h.ready_back
  rw [hp] at hproducer
  rw [State.back, hp] at hready
  obtain rfl : w = s.writeIdx := hproducer
  simp only [step, hp]
  by_cases hfull : q.length = capacity
  · rw [if_pos (hready.mpr hfull), if_pos hfull]
    exact ⟨_, rfl, rfl⟩
  · rw [if_neg (mt hready.mp hfull), if_neg hfull]
    exact ⟨_, rfl, rfl⟩

theorem dequeue_loads {s : State T capacity} {q : List T} (h : Inv s q) {r : Fin capacity}
    (hc : s.consumer = .loadedRead r) :
    ∃ s', step .consumer s = some s' ∧
      s'.consumer = if q = [] then .idle else .sawReady r := by
  have hconsumer := h.consumer
  have hready := h.ready_front
  rw [hc] at hconsumer
  rw [State.front, hc] at hready
  obtain rfl : r = s.readIdx := hconsumer
  simp only [step, hc]
  by_cases hempty : q = []
  · rw [if_neg fun habs => hready.mp habs hempty, if_pos hempty]
    exact ⟨_, rfl, rfl⟩
  · rw [if_pos (hready.mpr hempty), if_neg hempty]
    exact ⟨_, rfl, rfl⟩

/-- **A bounded queue for `Capacity` elements**, in every interleaving.  What was enqueued are the
values of the calls that found their flag down, and the values dequeued are the first of them; the
others stay in their slots.  At its load of the flag `enqueue` returns false just when `Capacity`
values are not consumed, and `dequeue` just when none is. -/
theorem refines_fifo_of_capacity (value : Fin capacity → T) (actions : List (Action T)) :
    let s := schedule step actions (init value)
    s.enqueued ++ s.underWay = trace step accepted actions (init value) ∧
    s.dequeued <+: s.enqueued ∧ s.unconsumed.length ≤ capacity ∧
    Ring.Laid s.value s.front s.unconsumed ∧
    (∀ w, s.writing = some w → ∀ k < s.unconsumed.length, Ring.slot s.front k ≠ w) ∧
    (∀ v w, s.producer = .loadedWrite v w → ∃ s', step .producer s = some s' ∧
      s'.producer = if s.unconsumed.length = capacity then .idle else .notReady v w) ∧
    (∀ r, s.consumer = .loadedRead r → ∃ s', step .consumer s = some s' ∧
      s'.consumer = if s.unconsumed = [] then .idle else .sawReady r) := by
  have hrecord := record_eq_trace (fun s : State T capacity => s.enqueued ++ s.underWay) accepted
    (init value) (List.append_nil _) (fun _ _ _ => enqueued_step) actions
  obtain ⟨q, h⟩ := reachable_inv value actions
  generalize schedule step actions (init value) = s at h hrecord
  have hunconsumed : s.unconsumed = q := by
    rw [State.unconsumed, h.fifo, List.drop_left]
  have hproducer := h.producer
  have hback := h.back
  dsimp only
  rw [hunconsumed]
  refine ⟨hrecord, ⟨q, h.fifo.symm⟩, h.length, h.laid, ?_, fun _ _ => enqueue_loads h,
    fun _ => dequeue_loads h⟩
  intro w hw k hk heq
  unfold State.writing at hw
  split at hw
  · next v w' hp =>
      cases hw
      rw [hp] at hproducer
      rw [State.back, hp] at hback
      obtain ⟨rfl, hroom⟩ := hproducer
      exact hk.ne (Ring.slot_inj (hk.trans hroom) hroom (heq.trans hback))
  · cases hw

/-- Two slots, both in use when the third value comes. -/
def full : List (Action ℕ) :=
  [.callEnqueue 7, .producer, .producer, .producer, .callDequeue, .producer,
    .callEnqueue 8, .producer, .producer, .producer, .consumer, .producer, .callEnqueue 9]

/-- The third value is turned away; then the first is dequeued. -/
theorem refines_fifo_of_capacity_full :
    let s := schedule step full (init fun _ => 0 : State ℕ 2)
    let s' := schedule step (full ++ [.producer, .consumer, .consumer, .consumer])
      (init fun _ => 0 : State ℕ 2)
    (∃ s'', step .producer s = some s'' ∧ s''.producer = .idle) ∧
    s'.consumer = .idle ∧ s'.enqueued = [7, 8] ∧ s'.dequeued = [7] ∧
      s'.dequeued <+: s'.enqueued := by
  refine ⟨?_, by decide, by decide, by decide, (refines_fifo_of_capacity _ _).2.1⟩
  exact (refines_fifo_of_capacity (fun _ => 0) full).2.2.2.2.2.1 9 0 (by decide)

end LearnCpp.Concurrency.WaitFreeSPSCQueue
