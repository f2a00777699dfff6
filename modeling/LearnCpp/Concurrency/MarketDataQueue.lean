/-
# `LearnCpp.Concurrency.MarketDataQueue` — messages copied byte by byte

`topics/domain_sketches/market_data_message_queue.cpp`: a ring of slots, each with
a sequence number and the bytes of a message.  `publish` and `consume` copy a
message with `memcpy`; the bytes are copied one at a time and in any order, and
the other thread may run between any two of them.

The producer thread publishes `total` messages, each as often as it takes, and
sets `done`.  The consumer thread goes on while `!done || received < total`.

A message is in one piece because the slot that a thread copies to or from is its
own until it moves its index:

    producer   slots[write]   from the load of read_idx_    to the store of write_idx_
    consumer   slots[read]    from the load of write_idx_   to the store of read_idx_

The sequence numbers have no part in this.  `consume` does not read them, and
after the first round `publish` writes the number that is already there.
-/
import LearnCpp.Lib.Ring
import LearnCpp.Lib.Progress
import Mathlib.Data.Fintype.Card

namespace LearnCpp.Concurrency.MarketDataQueue

open Lib

/-- The bytes of a message; `size` is `sizeof(Msg)`. -/
abbrev Msg (size : ℕ) (β : Type) := Fin size → β

structure Slot (size : ℕ) (β : Type) where
  seq : UInt32 := 0
  payload : Msg size β

variable {size capacity : ℕ} {β : Type}

/-- Where the producer thread is. -/
inductive Producer (size capacity : ℕ) where
  /-- at `i < total` -/
  | test
  /-- in `publish`: `w = write_idx_.load()` -/
  | loadWrite
  /-- `next == read_idx_.load()` -/
  | testFull (w : Fin capacity)
  /-- in `memcpy`, with what has been copied -/
  | copy (w : Fin capacity) (copied : Finset (Fin size))
  /-- `s.seq.store(w + 1)` -/
  | storeSeq (w : Fin capacity)
  /-- `write_idx_.store(next)`, and `++i` -/
  | storeWrite (w : Fin capacity)
  /-- `done = true` -/
  | setDone
  | returned
  deriving DecidableEq

/-- Where the consumer thread is. -/
inductive Consumer (size capacity : ℕ) where
  /-- at `!done` -/
  | testDone
  /-- at `received.load() < total` -/
  | testReceived
  /-- in `consume`: `r = read_idx_.load()` -/
  | loadRead
  /-- `r == write_idx_.load()` -/
  | testEmpty (r : Fin capacity)
  /-- in `memcpy`, with what has been copied -/
  | copy (r : Fin capacity) (copied : Finset (Fin size))
  /-- `read_idx_.store(...)` -/
  | storeRead (r : Fin capacity)
  /-- `received++` -/
  | count
  | returned
  deriving DecidableEq

/-- `i` is the loop variable of the producer and `msg` the message of the consumer;
`consumed` records what `consume` handed out. -/
structure State (size capacity : ℕ) (β : Type) where
  ring : Ring (Slot size β) capacity
  done : Bool := false
  received : ℕ := 0
  producer : Producer size capacity := .test
  i : ℕ := 0
  consumer : Consumer size capacity := .testDone
  msg : Msg size β
  consumed : List (Msg size β) := []

inductive Action (size : ℕ) where
  | producer
  /-- one byte of the `memcpy` in `publish` -/
  | copyIn (k : Fin size)
  | consumer
  /-- one byte of the `memcpy` in `consume` -/
  | copyOut (k : Fin size)
  deriving DecidableEq

section
variable [NeZero capacity] (message : ℕ → Msg size β) (total : ℕ)

/-- The producer's next step; `message i` is what it publishes in round `i`. -/
def producerStep (s : State size capacity β) : Option (State size capacity β) :=
  match s.producer with
  | .test => some { s with producer := if s.i < total then .loadWrite else .setDone }
  | .loadWrite => some { s with producer := .testFull s.ring.write }
  | .testFull w =>
      -- a failed `publish` is called again
      if Ring.next w = s.ring.read then some { s with producer := .loadWrite }
      else some { s with producer := .copy w ∅ }
  | .copy w copied => if copied = Finset.univ then some { s with producer := .storeSeq w } else none
  | .storeSeq w =>
      some { s with
        producer := .storeWrite w
        ring := s.ring.store w { s.ring.slots w with seq := UInt32.ofNat (w + 1) } }
  | .storeWrite w =>
      some { s with producer := .test, ring := s.ring.setWrite (Ring.next w), i := s.i + 1 }
  | .setDone => some { s with producer := .returned, done := true }
  | .returned => none

def copyIn (k : Fin size) (s : State size capacity β) : Option (State size capacity β) :=
  match s.producer with
  | .copy w copied =>
      some { s with
        producer := .copy w (insert k copied)
        ring := s.ring.store w { s.ring.slots w with
          payload := Function.update (s.ring.slots w).payload k (message s.i k) } }
  | _ => none

def consumerStep (s : State size capacity β) : Option (State size capacity β) :=
  match s.consumer with
  | .testDone => some { s with consumer := if s.done then .testReceived else .loadRead }
  | .testReceived =>
      some { s with consumer := if s.received < total then .loadRead else .returned }
  | .loadRead => some { s with consumer := .testEmpty s.ring.read }
  | .testEmpty r =>
      if r = s.ring.write then some { s with consumer := .testDone }
      else some { s with consumer := .copy r ∅ }
  | .copy r copied =>
      if copied = Finset.univ then some { s with consumer := .storeRead r } else none
  | .storeRead r =>
      some { s with
        consumer := .count
        ring := s.ring.setRead (Ring.next r)
        consumed := s.consumed ++ [s.msg] }
  | .count => some { s with consumer := .testDone, received := s.received + 1 }
  | .returned => none

def copyOut (k : Fin size) (s : State size capacity β) : Option (State size capacity β) :=
  match s.consumer with
  | .copy r copied =>
      some { s with
        consumer := .copy r (insert k copied)
        msg := Function.update s.msg k ((s.ring.slots r).payload k) }
  | _ => none

def next : Action size → State size capacity β → Option (State size capacity β)
  | .producer, s => producerStep total s
  | .copyIn k, s => copyIn message k s
  | .consumer, s => consumerStep total s
  | .copyOut k, s => copyOut k s

end

/-- Before the threads start; the sequence numbers are zero, the bytes may be anything. -/
def init [NeZero capacity] (payload : Fin capacity → Msg size β) (msg : Msg size β) :
    State size capacity β :=
  { ring := .empty fun w => { payload := payload w }, msg := msg }

/-- The slot that the producer copies to. -/
def State.writing (s : State size capacity β) : Option (Fin capacity) :=
  match s.producer with
  | .copy w _ => some w
  | _ => none

/-- The slot that the consumer copies from. -/
def State.reading (s : State size capacity β) : Option (Fin capacity) :=
  match s.consumer with
  | .copy r _ => some r
  | _ => none

def State.Finished (s : State size capacity β) : Prop :=
  s.producer = .returned ∧ s.consumer = .returned

/-! ## The invariant -/

section
variable [NeZero capacity] {message : ℕ → Msg size β} {total : ℕ}
  {s s' : State size capacity β} {ring : Ring (Slot size β) capacity}

/-- The messages that are stored, the oldest first. -/
def stored (ring : Ring (Slot size β) capacity) : List (Msg size β) :=
  ring.contents.map Slot.payload

/-- What the producer can rely on, wherever it is. -/
def ProducerAt (message : ℕ → Msg size β) (total i : ℕ) (ring : Ring (Slot size β) capacity) :
    Producer size capacity → Prop
  | .test => i ≤ total
  | .loadWrite => i < total
  | .testFull w => i < total ∧ w = ring.write
  | .copy w copied =>
      i < total ∧ w = ring.write ∧ ring.contents.length + 1 < capacity ∧
        ∀ k ∈ copied, (ring.slots w).payload k = message i k
  | .storeSeq w =>
      i < total ∧ w = ring.write ∧ ring.contents.length + 1 < capacity ∧
        (ring.slots w).payload = message i
  | .storeWrite w =>
      i < total ∧ w = ring.write ∧ ring.contents.length + 1 < capacity ∧
        (ring.slots w).payload = message i
  | .setDone => i = total
  | .returned => i = total

/-- What the consumer can rely on, wherever it is. -/
def ConsumerAt (total received : ℕ) (done : Bool) (msg : Msg size β)
    (ring : Ring (Slot size β) capacity) : Consumer size capacity → Prop
  | .testEmpty r => r = ring.read
  | .copy r copied =>
      r = ring.read ∧ r ≠ ring.write ∧ ∀ k ∈ copied, msg k = (ring.slots r).payload k
  | .storeRead r => r = ring.read ∧ r ≠ ring.write ∧ msg = (ring.slots r).payload
  | .testReceived => done = true
  | .returned => done = true ∧ total ≤ received
  | _ => True

/-- Between the store of `read_idx_` and `received++` a message is not counted yet. -/
def uncounted : Consumer size capacity → ℕ
  | .count => 1
  | _ => 0

structure Inv (message : ℕ → Msg size β) (total : ℕ) (s : State size capacity β) : Prop where
  fifo : (List.range s.i).map message = s.consumed ++ stored s.ring
  received : s.consumed.length = s.received + uncounted s.consumer
  producer : ProducerAt message total s.i s.ring s.producer
  consumer : ConsumerAt total s.received s.done s.msg s.ring s.consumer
  done : s.done = true ↔ s.producer = .returned

theorem stored_store (slot : Slot size β) : stored (ring.store ring.write slot) = stored ring :=
  congrArg (List.map Slot.payload) (Ring.contents_store ring.write_not_mem_filled slot)

theorem stored_advance (h : Ring.next ring.write ≠ ring.read) :
    stored (ring.setWrite (Ring.next ring.write)) =
      stored ring ++ [(ring.slots ring.write).payload] := by
  rw [stored, Ring.contents_advance h, List.map_append, List.map_singleton]
  rfl

theorem stored_eq_cons (h : ring.read ≠ ring.write) :
    stored ring =
      (ring.slots ring.read).payload :: stored (ring.setRead (Ring.next ring.read)) := by
  rw [stored, Ring.contents_eq_cons h, List.map_cons]
  rfl

section
variable {received : ℕ} {msg : Msg size β} {consumer : Consumer size capacity}

omit [NeZero capacity] in
theorem ConsumerAt.store {done : Bool} (slot : Slot size β)
    (h : ConsumerAt total received done msg ring consumer) :
    ConsumerAt total received done msg (ring.store ring.write slot) consumer := by
  have hslot : ∀ r, r ≠ ring.write → (ring.store ring.write slot).slots r = ring.slots r :=
    fun r hne => Function.update_of_ne hne ..
  cases consumer with
  | copy r copied =>
      obtain ⟨hr, hne, hcopied⟩ := h
      refine ⟨hr, hne, ?_⟩
      rw [hslot r hne]
      exact hcopied
  | storeRead r =>
      obtain ⟨hr, hne, hmsg⟩ := h
      refine ⟨hr, hne, ?_⟩
      rw [hslot r hne]
      exact hmsg
  | testEmpty r => exact h
  | returned => exact h
  | testReceived => exact h
  | testDone => trivial
  | loadRead => trivial
  | count => trivial

theorem ConsumerAt.setWrite {done : Bool} (hroom : Ring.next ring.write ≠ ring.read)
    (h : ConsumerAt total received done msg ring consumer) :
    ConsumerAt total received done msg (ring.setWrite (Ring.next ring.write)) consumer := by
  cases consumer with
  | copy r copied =>
      obtain ⟨rfl, -, hcopied⟩ := h
      exact ⟨rfl, hroom.symm, hcopied⟩
  | storeRead r =>
      obtain ⟨rfl, -, hmsg⟩ := h
      exact ⟨rfl, hroom.symm, hmsg⟩
  | testEmpty r => exact h
  | returned => exact h
  | testReceived => exact h
  | testDone => trivial
  | loadRead => trivial
  | count => trivial

omit [NeZero capacity] in
theorem ConsumerAt.setDone {done : Bool} (h : ConsumerAt total received done msg ring consumer) :
    ConsumerAt total received true msg ring consumer := by
  cases consumer with
  | testReceived => rfl
  | returned => exact ⟨rfl, h.2⟩
  | copy r copied => exact h
  | storeRead r => exact h
  | testEmpty r => exact h
  | testDone => trivial
  | loadRead => trivial
  | count => trivial

end

theorem ProducerAt.setRead {i : ℕ} {producer : Producer size capacity}
    (hne : ring.read ≠ ring.write) (h : ProducerAt message total i ring producer) :
    ProducerAt message total i (ring.setRead (Ring.next ring.read)) producer := by
  have hlength : (ring.setRead (Ring.next ring.read)).contents.length < ring.contents.length := by
    rw [Ring.contents_eq_cons hne]
    exact Nat.lt_succ_self _
  cases producer with
  | copy w copied =>
      obtain ⟨hi, hw, hroom, hcopied⟩ := h
      exact ⟨hi, hw, (Nat.succ_lt_succ hlength).trans hroom, hcopied⟩
  | storeSeq w =>
      obtain ⟨hi, hw, hroom, hpayload⟩ := h
      exact ⟨hi, hw, (Nat.succ_lt_succ hlength).trans hroom, hpayload⟩
  | storeWrite w =>
      obtain ⟨hi, hw, hroom, hpayload⟩ := h
      exact ⟨hi, hw, (Nat.succ_lt_succ hlength).trans hroom, hpayload⟩
  | test => exact h
  | loadWrite => exact h
  | testFull w => exact h
  | setDone => exact h
  | returned => exact h

namespace Inv

theorem not_done (h : Inv message total s) (hp : s.producer ≠ .returned) : s.done = false :=
  Bool.eq_false_iff.mpr fun hdone => hp (h.done.mp hdone)

/-- **Each step of the producer keeps the invariant.** -/
theorem producer_step (h : Inv message total s) (hstep : producerStep total s = some s') :
    Inv message total s' := by
  have hproducer := h.producer
  have hconsumer := h.consumer
  unfold producerStep at hstep
  split at hstep
  case h_1 hp =>
    rw [hp] at hproducer
    have hdone := h.not_done (by simp [hp])
    cases hstep
    refine ⟨h.fifo, h.received, ?_, hconsumer, ?_⟩
    · show ProducerAt message total s.i s.ring (if s.i < total then .loadWrite else .setDone)
      split
      · assumption
      · next hge => exact Nat.le_antisymm hproducer (Nat.le_of_not_lt hge)
    · simp only [hdone, Bool.false_eq_true, false_iff]
      split <;> exact nofun
  case h_2 hp =>
    rw [hp] at hproducer
    cases hstep
    exact ⟨h.fifo, h.received, ⟨hproducer, rfl⟩, hconsumer, by simp [h.not_done, hp]⟩
  case h_3 w hp =>
    rw [hp] at hproducer
    obtain ⟨hi, rfl⟩ := hproducer
    split at hstep
    · cases hstep
      exact ⟨h.fifo, h.received, hi, hconsumer, by simp [h.not_done, hp]⟩
    · next hroom =>
        cases hstep
        exact ⟨h.fifo, h.received, ⟨hi, rfl, Ring.next_write_ne.mp hroom, by simp⟩, hconsumer,
          by simp [h.not_done, hp]⟩
  case h_4 w copied hp =>
    rw [hp] at hproducer
    obtain ⟨hi, hw, hroom, hcopied⟩ := hproducer
    split at hstep
    · next hall =>
        cases hstep
        refine ⟨h.fifo, h.received, ⟨hi, hw, hroom, ?_⟩, hconsumer, by simp [h.not_done, hp]⟩
        exact funext fun k => hcopied k (hall ▸ Finset.mem_univ k)
    · cases hstep
  case h_5 w hp =>
    rw [hp] at hproducer
    obtain ⟨hi, rfl, hroom, hpayload⟩ := hproducer
    cases hstep
    refine ⟨?_, h.received, ⟨hi, rfl, ?_, ?_⟩, hconsumer.store _, by simp [h.not_done, hp]⟩
    · rw [stored_store]
      exact h.fifo
    · rw [Ring.contents_store s.ring.write_not_mem_filled]
      exact hroom
    · rw [Ring.store_slots]
      exact hpayload
  case h_6 w hp =>
    rw [hp] at hproducer
    obtain ⟨hi, rfl, hroom, hpayload⟩ := hproducer
    have hnext := Ring.next_write_ne.mpr hroom
    cases hstep
    refine ⟨?_, h.received, hi, hconsumer.setWrite hnext, by simp [h.not_done, hp]⟩
    rw [List.range_succ, List.map_append, h.fifo, stored_advance hnext, hpayload]
    exact List.append_assoc ..
  case h_7 hp =>
    rw [hp] at hproducer
    cases hstep
    exact ⟨h.fifo, h.received, hproducer, hconsumer.setDone, iff_of_true rfl rfl⟩
  case h_8 => cases hstep

theorem copyIn (h : Inv message total s) {k : Fin size} (hstep : copyIn message k s = some s') :
    Inv message total s' := by
  have hproducer := h.producer
  unfold MarketDataQueue.copyIn at hstep
  split at hstep
  case h_1 w copied hp =>
    rw [hp] at hproducer
    obtain ⟨hi, rfl, hroom, hcopied⟩ := hproducer
    cases hstep
    refine ⟨?_, h.received, ⟨hi, rfl, ?_, ?_⟩, h.consumer.store _, by simp [h.not_done, hp]⟩
    · rw [stored_store]
      exact h.fifo
    · rw [Ring.contents_store s.ring.write_not_mem_filled]
      exact hroom
    · intro j hj
      rw [Ring.store_slots]
      show Function.update (s.ring.slots s.ring.write).payload k (message s.i k) j = message s.i j
      rcases eq_or_ne j k with rfl | hne
      · exact Function.update_self ..
      · rw [Function.update_of_ne hne]
        exact hcopied j ((Finset.mem_insert.mp hj).resolve_left hne)
  case h_2 => cases hstep

/-- **Each step of the consumer keeps the invariant.** -/
theorem consumer_step (h : Inv message total s) (hstep : consumerStep total s = some s') :
    Inv message total s' := by
  have hconsumer := h.consumer
  have hreceived := h.received
  unfold consumerStep at hstep
  split at hstep
  case h_1 hc =>
    rw [hc] at hreceived
    cases hstep
    refine ⟨h.fifo, ?_, h.producer, ?_, h.done⟩
    · show s.consumed.length = s.received + uncounted (if s.done then .testReceived else .loadRead)
      split <;> exact hreceived
    · show ConsumerAt total s.received s.done s.msg s.ring
        (if s.done then .testReceived else .loadRead)
      split
      · assumption
      · trivial
  case h_2 hc =>
    rw [hc] at hreceived hconsumer
    cases hstep
    refine ⟨h.fifo, ?_, h.producer, ?_, h.done⟩
    · show s.consumed.length =
        s.received + uncounted (if s.received < total then .loadRead else .returned)
      split <;> exact hreceived
    · show ConsumerAt total s.received s.done s.msg s.ring
        (if s.received < total then .loadRead else .returned)
      split
      · trivial
      · next hge => exact ⟨hconsumer, Nat.le_of_not_lt hge⟩
  case h_3 hc =>
    rw [hc] at hreceived
    cases hstep
    exact ⟨h.fifo, hreceived, h.producer, rfl, h.done⟩
  case h_4 r hc =>
    rw [hc] at hreceived hconsumer
    split at hstep
    · cases hstep
      exact ⟨h.fifo, hreceived, h.producer, trivial, h.done⟩
    · next hne =>
        cases hstep
        exact ⟨h.fifo, hreceived, h.producer, ⟨hconsumer, hne, by simp⟩, h.done⟩
  case h_5 r copied hc =>
    rw [hc] at hreceived hconsumer
    obtain ⟨hr, hne, hcopied⟩ := hconsumer
    split at hstep
    · next hall =>
        cases hstep
        refine ⟨h.fifo, hreceived, h.producer, ⟨hr, hne, ?_⟩, h.done⟩
        exact funext fun k => hcopied k (hall ▸ Finset.mem_univ k)
    · cases hstep
  case h_6 r hc =>
    rw [hc] at hreceived hconsumer
    obtain ⟨rfl, hne, hmsg⟩ := hconsumer
    cases hstep
    refine ⟨?_, ?_, h.producer.setRead hne, trivial, h.done⟩
    · rw [h.fifo, stored_eq_cons hne, hmsg, List.append_assoc, List.singleton_append]
    · rw [List.length_append, hreceived]
      rfl
  case h_7 hc =>
    rw [hc] at hreceived
    cases hstep
    exact ⟨h.fifo, hreceived, h.producer, trivial, h.done⟩
  case h_8 => cases hstep

theorem copyOut (h : Inv message total s) {k : Fin size} (hstep : copyOut k s = some s') :
    Inv message total s' := by
  have hconsumer := h.consumer
  have hreceived := h.received
  unfold MarketDataQueue.copyOut at hstep
  split at hstep
  case h_1 r copied hc =>
    rw [hc] at hreceived hconsumer
    obtain ⟨hr, hne, hcopied⟩ := hconsumer
    cases hstep
    refine ⟨h.fifo, hreceived, h.producer, ⟨hr, hne, ?_⟩, h.done⟩
    intro j hj
    show Function.update s.msg k ((s.ring.slots r).payload k) j = (s.ring.slots r).payload j
    rcases eq_or_ne j k with rfl | hne
    · exact Function.update_self ..
    · rw [Function.update_of_ne hne]
      exact hcopied j ((Finset.mem_insert.mp hj).resolve_left hne)
  case h_2 => cases hstep

theorem step {a : Action size} (h : Inv message total s)
    (hstep : next message total a s = some s') : Inv message total s' := by
  cases a with
  | producer => exact h.producer_step hstep
  | copyIn k => exact h.copyIn hstep
  | consumer => exact h.consumer_step hstep
  | copyOut k => exact h.copyOut hstep

end Inv

theorem init_inv (message : ℕ → Msg size β) (total : ℕ) (payload : Fin capacity → Msg size β)
    (msg : Msg size β) : Inv message total (init payload msg) where
  fifo := by
    show (List.range 0).map message =
      [] ++ stored (Ring.empty fun w => ({ payload := payload w } : Slot size β))
    rw [stored, Ring.contents_empty]
    rfl
  received := rfl
  producer := Nat.zero_le total
  consumer := trivial
  done := iff_of_false Bool.false_ne_true nofun

theorem reachable_inv (message : ℕ → Msg size β) (total : ℕ) (payload : Fin capacity → Msg size β)
    (msg : Msg size β) (as : List (Action size)) :
    Inv message total (schedule (next message total) as (init payload msg)) :=
  schedule_rule (Inv message total) (init_inv message total payload msg)
    (fun _ _ _ h hstep => h.step hstep) as

/-- A sequence number says which slot it is in, and not in which round it was put there. -/
def State.Numbered (s : State size capacity β) : Prop :=
  ∀ w, (s.ring.slots w).seq = 0 ∨ (s.ring.slots w).seq = UInt32.ofNat (w + 1)

omit [NeZero capacity] in
theorem State.Numbered.store (h : s.Numbered) {v : Fin capacity} {slot : Slot size β}
    (hslot : slot.seq = (s.ring.slots v).seq ∨ slot.seq = UInt32.ofNat (v + 1)) (w : Fin capacity) :
    ((s.ring.store v slot).slots w).seq = 0 ∨
      ((s.ring.store v slot).slots w).seq = UInt32.ofNat (w + 1) := by
  rcases eq_or_ne w v with rfl | hne
  · rw [Ring.store_slots]
    rcases hslot with heq | heq
    · exact heq ▸ h w
    · exact .inr heq
  · have hslots : (s.ring.store v slot).slots w = s.ring.slots w := Function.update_of_ne hne ..
    rw [hslots]
    exact h w

theorem State.Numbered.step {a : Action size} (h : s.Numbered)
    (hstep : next message total a s = some s') : s'.Numbered := by
  cases a with
  | producer =>
      simp only [next, producerStep] at hstep
      split at hstep
      all_goals try split at hstep
      all_goals cases hstep
      case h_5 v _ => exact h.store (.inr rfl)
      all_goals exact h
  | copyIn k =>
      simp only [next, MarketDataQueue.copyIn] at hstep
      split at hstep
      all_goals cases hstep
      exact h.store (.inl rfl)
  | consumer =>
      simp only [next, consumerStep] at hstep
      split at hstep
      all_goals try split at hstep
      all_goals cases hstep
      all_goals exact h
  | copyOut k =>
      simp only [next, MarketDataQueue.copyOut] at hstep
      split at hstep
      all_goals cases hstep
      exact h

theorem reachable_numbered (message : ℕ → Msg size β) (total : ℕ)
    (payload : Fin capacity → Msg size β) (msg : Msg size β) (as : List (Action size)) :
    (schedule (next message total) as (init payload msg)).Numbered :=
  schedule_rule State.Numbered (fun _ => .inl rfl) (fun _ _ _ h hstep => h.step hstep) as

/-! ## What the consumer gets -/

theorem ProducerAt.le {i : ℕ} {producer : Producer size capacity}
    (h : ProducerAt message total i ring producer) : i ≤ total := by
  cases producer with
  | test => exact h
  | loadWrite => exact Nat.le_of_lt h
  | testFull w => exact h.1.le
  | copy w copied => exact h.1.le
  | storeSeq w => exact h.1.le
  | storeWrite w => exact h.1.le
  | setDone => exact Nat.le_of_eq h
  | returned => exact Nat.le_of_eq h

/-- Where the two copy at once, they copy to and from different slots. -/
theorem Inv.apart (h : Inv message total s) {w : Fin capacity} (hw : s.writing = some w) :
    s.reading ≠ some w := by
  have hproducer := h.producer
  have hconsumer := h.consumer
  unfold State.writing at hw
  unfold State.reading
  split at hw
  case h_1 w' copied hp =>
    cases hw
    rw [hp] at hproducer
    split
    case h_1 r copied' hc =>
      rw [hc] at hconsumer
      intro heq
      cases heq
      exact hconsumer.2.1 hproducer.2.1
    case h_2 => exact nofun
  case h_2 => cases hw

theorem Inv.length_eq (h : Inv message total s) :
    s.i = s.consumed.length + s.ring.contents.length := by
  have hlength := congrArg List.length h.fifo
  rwa [List.length_map, List.length_range, List.length_append, stored, List.length_map] at hlength

theorem Inv.returned (h : Inv message total s) (hc : s.consumer = .returned) :
    s.producer = .returned ∧ s.consumed = (List.range total).map message := by
  have hproducer := h.producer
  have hconsumer := h.consumer
  have hreceived := h.received
  rw [hc] at hconsumer hreceived
  obtain ⟨hdone, hall⟩ := hconsumer
  have hp := h.done.mp hdone
  rw [hp] at hproducer
  have hi : s.i = total := hproducer
  have hlength := h.length_eq
  have hempty : s.ring.contents = [] := by
    refine List.length_eq_zero_iff.mp ?_
    have hcount : s.consumed.length = s.received := hreceived
    omega
  refine ⟨hp, ?_⟩
  have hfifo := h.fifo
  rw [hi, stored, hempty, List.map_nil, List.append_nil] at hfifo
  exact hfifo.symm

/-- **Every message arrives whole, once and in order**, in every interleaving of the threads and
of the bytes that they copy.  No slot is copied to and from at once, at most `capacity - 1`
messages are on their way, and the consumer returns only when it has had all of them. -/
theorem consumes_in_order (message : ℕ → Msg size β) (total : ℕ)
    (payload : Fin capacity → Msg size β) (msg : Msg size β) (as : List (Action size)) :
    let s := schedule (next message total) as (init payload msg)
    s.consumed <+: (List.range total).map message ∧
      s.i ≤ s.consumed.length + (capacity - 1) ∧
      (∀ w, s.writing = some w → s.reading ≠ some w) ∧
      (s.consumer = .returned →
        s.producer = .returned ∧ s.consumed = (List.range total).map message) := by
  intro s
  have h : Inv message total s := reachable_inv message total payload msg as
  refine ⟨?_, ?_, fun w hw => h.apart hw, h.returned⟩
  · refine List.IsPrefix.trans ⟨stored s.ring, h.fifo.symm⟩ ?_
    rw [← Nat.add_sub_of_le h.producer.le, List.range_add, List.map_append]
    exact List.prefix_append ..
  · have hlt := s.ring.length_contents_lt
    have hlength := h.length_eq
    omega

/-- Three slots and two bytes: the consumer finds nothing, then the two bytes are copied in and
out, and both threads return. -/
theorem consumes_in_order_one :
    let message : ℕ → Msg 2 ℕ := fun i k => 10 * i + k
    let s := schedule (next message 1)
      [.producer, .producer, .producer, .copyIn 1, .consumer, .consumer, .consumer, .copyIn 0,
        .producer, .producer, .producer, .consumer, .consumer, .producer, .consumer, .consumer,
        .copyOut 0, .producer, .copyOut 1, .consumer, .consumer, .consumer, .consumer, .consumer]
      (init (fun _ _ => 0) (fun _ => 0) : State 2 3 ℕ)
    s.consumer = .returned ∧ s.producer = .returned ∧ s.consumed = (List.range 1).map message := by
  intro message s
  have hreturned : s.consumer = .returned := by decide
  exact ⟨hreturned, (consumes_in_order message 1 _ _ _).2.2.2 hreturned⟩

/-! ## That they come to an end -/

/-- How far the producer is in its loop. -/
def Producer.rank : Producer size capacity → ℕ
  | .test => 0
  | .loadWrite => 1
  | .testFull _ => 2
  | .copy _ copied => 3 + copied.card
  | .storeSeq _ => 4 + size
  | .storeWrite _ => 5 + size
  | .setDone => 1
  | .returned => 2

/-- What the producer has done; a failed `publish` is undone. -/
def State.work (s : State size capacity β) : ℕ := s.i * (size + 6) + s.producer.rank

/-- How far the consumer is from the next turn of its loop or, with nothing to
be consumed, from the end. -/
def Consumer.left (empty : Bool) : Consumer size capacity → ℕ
  | .storeRead _ => 1
  | .copy _ copied => 2 + (size - copied.card)
  | .testEmpty _ => if empty then 4 else size + 3
  | .loadRead => size + 5
  | .testReceived => if empty then 1 else size + 6
  | .testDone => if empty then 2 else size + 7
  | .count => if empty then 3 else size + 8
  | .returned => 0

/-- What is left to the consumer if the producer does nothing more. -/
def State.left (s : State size capacity β) : ℕ :=
  s.ring.contents.length * (size + 9) + s.consumer.left s.ring.contents.isEmpty

/-- All that is left to do, a step of the producer counting for as much as it can
give the consumer to do. -/
def State.distance (total : ℕ) (s : State size capacity β) : ℕ :=
  (total * (size + 6) + 3 - s.work) * ((capacity + 1) * (size + 9)) + s.left

omit [NeZero capacity] in
theorem Consumer.left_lt (empty : Bool) (consumer : Consumer size capacity) :
    consumer.left empty < size + 9 := by
  cases consumer <;> cases empty <;> simp [Consumer.left] <;> omega

theorem State.left_lt (s : State size capacity β) : s.left < (capacity + 1) * (size + 9) := by
  have hconsumer := s.consumer.left_lt s.ring.contents.isEmpty
  have hcontents := Nat.mul_le_mul_right (size + 9) s.ring.length_contents_lt.le
  rw [Nat.add_mul, Nat.one_mul]
  exact Nat.add_lt_add_of_le_of_lt hcontents hconsumer

/-- A step of the producer's outweighs what it leaves to the consumer. -/
theorem State.distance_lt_of_work (hwork : s.work < s'.work)
    (hle : s.work < total * (size + 6) + 3) : s'.distance total < s.distance total := by
  have hlt := s'.left_lt
  have hstep : total * (size + 6) + 3 - s'.work + 1 ≤ total * (size + 6) + 3 - s.work := by omega
  have hmul := Nat.mul_le_mul_right ((capacity + 1) * (size + 9)) hstep
  rw [Nat.add_mul, Nat.one_mul] at hmul
  exact (Nat.add_lt_add_left hlt _).trans_le (hmul.trans (Nat.le_add_right ..))

theorem ProducerAt.work_lt {i : ℕ} {producer : Producer size capacity}
    (h : ProducerAt message total i ring producer) :
    i * (size + 6) + producer.rank < total * (size + 6) + 3 := by
  have hround : i < total → i * (size + 6) + (size + 6) ≤ total * (size + 6) := fun hi => by
    have hmul := Nat.mul_le_mul_right (size + 6) hi
    rwa [Nat.succ_mul] at hmul
  cases producer with
  | test => 
      have hmul := Nat.mul_le_mul_right (size + 6) h
      exact Nat.lt_succ_of_le (hmul.trans (Nat.le_add_right _ 2))
  | loadWrite =>
      have hle := hround h
      simp only [Producer.rank]
      omega
  | testFull w =>
      have hle := hround h.1
      simp only [Producer.rank]
      omega
  | copy w copied =>
      have hle := hround h.1
      have hcard : copied.card ≤ size :=
        (Finset.card_le_univ copied).trans_eq (Fintype.card_fin size)
      simp only [Producer.rank]
      omega
  | storeSeq w =>
      have hle := hround h.1
      simp only [Producer.rank]
      omega
  | storeWrite w =>
      have hle := hround h.1
      simp only [Producer.rank]
      omega
  | setDone =>
      obtain rfl : i = total := h
      simp only [Producer.rank]
      omega
  | returned =>
      obtain rfl : i = total := h
      simp only [Producer.rank]
      omega

theorem producer_moves (message : ℕ → Msg size β) (total : ℕ) (hp : s.producer ≠ .returned)
    (hroom : ∀ w, s.producer = .testFull w → Ring.next w ≠ s.ring.read) :
    ∃ a s', next message total a s = some s' ∧ s.work < s'.work := by
  cases hat : s.producer with
  | copy w copied =>
      by_cases hall : copied = Finset.univ
      · refine ⟨.producer, { s with producer := .storeSeq w }, ?_, ?_⟩
        · simp [next, producerStep, hat, hall]
        · simp [State.work, hat, Producer.rank, hall]
      · obtain ⟨k, -, hk⟩ := Finset.exists_of_ssubset (Finset.ssubset_univ_iff.mpr hall)
        refine ⟨.copyIn k, _, by simp only [next, MarketDataQueue.copyIn, hat]; rfl, ?_⟩
        simp [State.work, hat, Producer.rank, Finset.card_insert_of_notMem hk]
  | testFull w =>
      refine ⟨.producer, { s with producer := .copy w ∅ }, ?_, ?_⟩
      · simp [next, producerStep, hat, hroom w hat]
      · simp [State.work, hat, Producer.rank]
  | returned => exact absurd hat hp
  | test =>
      refine ⟨.producer, _, by simp only [next, producerStep, hat]; rfl, ?_⟩
      have hpos :
          0 < (if s.i < total then .loadWrite else .setDone : Producer size capacity).rank := by
        split <;> exact Nat.one_pos
      exact Nat.add_lt_add_left (hat ▸ hpos) _
  | loadWrite =>
      refine ⟨.producer, _, by simp only [next, producerStep, hat]; rfl, ?_⟩
      simp [State.work, hat, Producer.rank]
  | storeSeq w =>
      refine ⟨.producer, _, by simp only [next, producerStep, hat]; rfl, ?_⟩
      simp [State.work, hat, Producer.rank]
  | storeWrite w =>
      refine ⟨.producer, _, by simp only [next, producerStep, hat]; rfl, ?_⟩
      simp [State.work, hat, Producer.rank, Nat.succ_mul]
      omega
  | setDone =>
      refine ⟨.producer, _, by simp only [next, producerStep, hat]; rfl, ?_⟩
      simp [State.work, hat, Producer.rank]

theorem Inv.consumer_moves (h : Inv message total s) (hc : s.consumer ≠ .returned)
    (hmore : s.ring.contents ≠ [] ∨ s.producer = .returned) :
    ∃ a s', next message total a s = some s' ∧ s'.work = s.work ∧ s'.left < s.left := by
  have hconsumer := h.consumer
  have hreceived := h.received
  have hplace : ∀ place : Consumer size capacity,
      next message total .consumer s = some { s with consumer := place } →
      place.left s.ring.contents.isEmpty < s.consumer.left s.ring.contents.isEmpty →
      ∃ a s', next message total a s = some s' ∧ s'.work = s.work ∧ s'.left < s.left :=
    fun place hstep hlt => ⟨.consumer, _, hstep, rfl, Nat.add_lt_add_left hlt _⟩
  -- with nothing to be consumed, everything has been
  have hall : s.ring.contents = [] → s.done = true ∧ s.consumed.length = total := by
    intro hempty
    have hp := hmore.resolve_left (not_not.mpr hempty)
    have hproducer := h.producer
    rw [hp] at hproducer
    have hi : s.i = total := hproducer
    have hlength := h.length_eq
    rw [hempty, hi] at hlength
    exact ⟨h.done.mpr hp, hlength.symm⟩
  cases hat : s.consumer with
  | returned => exact absurd hat hc
  | copy r copied =>
      by_cases hcopied : copied = Finset.univ
      · refine hplace (.storeRead r) (by simp [next, consumerStep, hat, hcopied]) ?_
        rw [hat]
        exact Nat.lt_add_right _ (Nat.lt_succ_self 1)
      · obtain ⟨k, -, hk⟩ := Finset.exists_of_ssubset (Finset.ssubset_univ_iff.mpr hcopied)
        have hlt : copied.card < size :=
          (Finset.card_lt_univ_of_notMem hk).trans_eq (Fintype.card_fin size)
        refine ⟨.copyOut k, _, by simp only [next, MarketDataQueue.copyOut, hat]; rfl, ?_, ?_⟩
        · rfl
        · simp only [State.left, hat, Consumer.left, Finset.card_insert_of_notMem hk]
          omega
  | storeRead r =>
      rw [hat] at hconsumer
      obtain ⟨rfl, hne, -⟩ := hconsumer
      refine ⟨.consumer, _, by simp only [next, consumerStep, hat]; rfl, ?_, ?_⟩
      · rfl
      · have hleft := Consumer.left_lt (s.ring.setRead (Ring.next s.ring.read)).contents.isEmpty
          (.count : Consumer size capacity)
        simp only [State.left, hat, Ring.contents_eq_cons hne, List.length_cons, Nat.succ_mul]
        simp only [Consumer.left] at hleft ⊢
        omega
  | testEmpty r =>
      rw [hat] at hconsumer
      obtain rfl : r = s.ring.read := hconsumer
      by_cases heq : s.ring.read = s.ring.write
      · refine hplace .testDone (by simp [next, consumerStep, hat, heq]) ?_
        simp [hat, Consumer.left, Ring.contents_eq_nil.mpr heq]
      · refine hplace (.copy s.ring.read ∅) (by simp [next, consumerStep, hat, heq]) ?_
        simp [hat, Consumer.left, mt Ring.contents_eq_nil.mp heq]
        omega
  | testDone =>
      by_cases hdone : s.done = true
      · refine hplace .testReceived (by simp [next, consumerStep, hat, hdone]) ?_
        simp only [hat, Consumer.left]
        split <;> omega
      · have hmem : s.ring.contents ≠ [] := fun hempty => hdone (hall hempty).1
        refine hplace .loadRead (by simp [next, consumerStep, hat, hdone]) ?_
        simp [hat, Consumer.left, hmem]
  | testReceived =>
      rw [hat] at hreceived
      have hcount : s.consumed.length = s.received := hreceived
      by_cases hlt : s.received < total
      · have hmem : s.ring.contents ≠ [] := fun hempty => by
          have hlength := (hall hempty).2
          omega
        refine hplace .loadRead (by simp [next, consumerStep, hat, hlt]) ?_
        simp [hat, Consumer.left, hmem]
      · refine hplace .returned (by simp [next, consumerStep, hat, hlt]) ?_
        simp only [hat, Consumer.left]
        split <;> omega
  | loadRead =>
      refine hplace (.testEmpty s.ring.read) (by simp [next, consumerStep, hat]) ?_
      simp only [hat, Consumer.left]
      split <;> omega
  | count =>
      refine ⟨.consumer, _, by simp only [next, consumerStep, hat]; rfl, ?_, ?_⟩
      · rfl
      · simp only [State.left, hat, Consumer.left]
        split <;> omega

/-- With two slots or more, or with nothing to publish, one of the two can always go on. -/
theorem progress (message : ℕ → Msg size β) (total : ℕ) (hroom : 2 ≤ capacity ∨ total = 0) :
    Progress (fun _ => True) (next message total) (Inv message total)
      (@State.Finished size capacity β) (State.distance total) := by
  intro s h hdone
  by_cases hmoves : s.producer ≠ .returned ∧
      ∀ w, s.producer = .testFull w → Ring.next w ≠ s.ring.read
  · obtain ⟨a, s', hstep, hwork⟩ := producer_moves message total hmoves.1 hmoves.2
    exact ⟨a, s', trivial, hstep, h.step hstep,
      State.distance_lt_of_work hwork h.producer.work_lt⟩
  · have hmore : s.ring.contents ≠ [] ∨ s.producer = .returned := by
      by_contra hnot
      obtain ⟨hempty, hp⟩ := not_or.mp hnot
      refine hmoves ⟨hp, fun w hw hfull => ?_⟩
      have hproducer := h.producer
      rw [hw] at hproducer
      obtain ⟨hi, rfl⟩ := hproducer
      rw [Ring.next_write_eq, not_not.mp hempty, List.length_nil] at hfull
      omega
    have hc : s.consumer ≠ .returned := fun hc => hdone ⟨(h.returned hc).1, hc⟩
    obtain ⟨a, s', hstep, hwork, hleft⟩ := h.consumer_moves hc hmore
    refine ⟨a, s', trivial, hstep, h.step hstep, ?_⟩
    rw [State.distance, State.distance, hwork]
    exact Nat.add_lt_add_left hleft _

theorem consumer_frame {a : Action size} (ha : a = .consumer ∨ ∃ k, a = .copyOut k)
    (hstep : next message total a s = some s') : s'.producer = s.producer ∧ s'.i = s.i := by
  rcases ha with rfl | ⟨k, rfl⟩
  · simp only [next, consumerStep] at hstep
    split at hstep
    all_goals try split at hstep
    all_goals cases hstep
    all_goals exact ⟨rfl, rfl⟩
  · simp only [next, MarketDataQueue.copyOut] at hstep
    split at hstep
    all_goals cases hstep
    exact ⟨rfl, rfl⟩

/-- The producer tries to publish, and has not yet seen any room. -/
def State.Trying (total : ℕ) (s : State size capacity β) : Prop :=
  s.producer = .test ∧ s.i < total ∨ s.producer = .loadWrite ∨ ∃ w, s.producer = .testFull w

/-- In a ring of one slot it never will. -/
theorem State.Trying.step (hcapacity : capacity = 1) {a : Action size} (h : s.Trying total)
    (hstep : next message total a s = some s') : s'.Trying total := by
  subst hcapacity
  cases a with
  | producer =>
      rcases h with ⟨hp, hi⟩ | hp | ⟨w, hp⟩
      · simp only [next, producerStep, hp, hi, if_true, Option.some.injEq] at hstep
        exact hstep ▸ .inr (.inl rfl)
      · simp only [next, producerStep, hp, Option.some.injEq] at hstep
        exact hstep ▸ .inr (.inr ⟨_, rfl⟩)
      · have hfull : Ring.next w = s.ring.read := Subsingleton.elim ..
        simp only [next, producerStep, hp, hfull, if_true, Option.some.injEq] at hstep
        exact hstep ▸ .inr (.inl rfl)
  | copyIn k =>
      rcases h with ⟨hp, -⟩ | hp | ⟨w, hp⟩ <;> simp [next, MarketDataQueue.copyIn, hp] at hstep
  | consumer =>
      obtain ⟨hp, hi⟩ := consumer_frame (.inl rfl) hstep
      rwa [State.Trying, hp, hi]
  | copyOut k =>
      obtain ⟨hp, hi⟩ := consumer_frame (.inr ⟨k, rfl⟩) hstep
      rwa [State.Trying, hp, hi]

/-- **The two can always still come to an end**, by some continuation of the run, and never when
the ring has a single slot, which is never free, and there is something to publish. -/
theorem canFinish_iff_room (message : ℕ → Msg size β) (total : ℕ)
    (payload : Fin capacity → Msg size β) (msg : Msg size β) (as : List (Action size)) :
    CanFinish (next message total) State.Finished
        (schedule (next message total) as (init payload msg)) ↔ 2 ≤ capacity ∨ total = 0 := by
  constructor
  · intro hfinish
    by_contra hnot
    have hcapacity : capacity = 1 := by
      have hpos := Nat.pos_of_neZero capacity
      omega
    have htrying : (schedule (next message total) as (init payload msg)).Trying total :=
      schedule_rule (State.Trying total) (.inl ⟨rfl, Nat.pos_of_ne_zero fun h0 => hnot (.inr h0)⟩)
        (fun _ _ _ h hstep => h.step hcapacity hstep) as
    refine not_canFinish (fun _ _ _ h hstep => h.step hcapacity hstep) ?_ htrying hfinish
    rintro s (⟨hp, -⟩ | hp | ⟨w, hp⟩) ⟨hreturned, -⟩ <;> simp [hp] at hreturned
  · intro hroom
    have hinv := reachable_inv message total payload msg as
    exact ((progress message total hroom).canFinishBy hinv).canFinish

/-- Two slots, and the consumer about to look at the queue. -/
theorem canFinish_iff_room_two :
    CanFinish (next (fun _ _ => 0 : ℕ → Msg 1 ℕ) 5) State.Finished
      (schedule (next (fun _ _ => 0) 5) [.producer, .consumer, .producer, .consumer]
        (init (fun _ _ => 7) (fun _ => 7) : State 1 2 ℕ)) :=
  (canFinish_iff_room _ 5 _ _ _).mpr (.inl (Nat.le_refl 2))

end

end LearnCpp.Concurrency.MarketDataQueue
