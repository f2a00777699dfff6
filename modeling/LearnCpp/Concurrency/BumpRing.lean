/-
# `LearnCpp.Concurrency.BumpRing` — batches through one ring

`run_single_ring_bump` of `topics/concurrency/notes_spsc_bump_vs_double_ring.cpp`:
the producer hands the buffers of an arena over, in the order of the arena, and
the consumer counts what it pops.

In batch mode the producer places a batch and sends it off with

    while (ring.push_batch(batch_span) != n) {}

`push_batch` stops at the first push that fails and returns how many went
through; the loop then starts with the first entry again.  As long as nothing of
a batch went through before a push fails, this is right (`Inv`):

    placed = popped ++ in the ring ++ still to send

but where a push fails in the middle of a batch, the entries before it are sent
twice.
-/
import LearnCpp.Concurrency.NotesRing
import LearnCpp.Lib.Schedule

namespace LearnCpp.Concurrency.BumpRing

open Lib

/-- `ARENA_CAP` -/
def arenaCap : ℕ := 2 ^ 20

/-- `&arena[i]` -/
abbrev Buffer := ℕ

/-- Where the producer is. -/
inductive Producer where
  /-- at `!stop.load()` -/
  | loop
  /-- single: in the spin loop of the push -/
  | push (buf : Buffer)
  /-- batch: at the head of the loop that places a batch, with what is in `batch_buf` -/
  | place (batchBuf : List Buffer)
  /-- batch: in `push_batch`, at the entry `count` -/
  | send (batchBuf : List Buffer) (count : ℕ)
  | returned
  deriving DecidableEq, Repr

/-- Where the consumer is. -/
inductive Consumer where
  /-- at `!stop.load()` -/
  | loop
  /-- single: at the pop -/
  | pop
  /-- batch: at the head of the loop of `pop_batch`, with `count` entries -/
  | fill (count : ℕ)
  /-- at `processed.fetch_add(n)` -/
  | count (n : ℕ)
  | returned
  deriving DecidableEq, Repr

structure State (k : ℕ) where
  ring : Ring Buffer (2 ^ k)
  offset : ℕ := 0
  stop : Bool := false
  processed : UInt64 := 0
  producer : Producer := .loop
  consumer : Consumer := .loop
  /-- all that the producer has placed into a batch, or taken to be pushed alone -/
  placed : List Buffer := []
  /-- all that the consumer has popped -/
  popped : List Buffer := []

def init {k : ℕ} (slots : Fin (2 ^ k) → Buffer) : State k where
  ring := .empty slots

inductive Action where
  | producer
  | consumer
  | stop
  deriving DecidableEq

section
variable {k : ℕ} (batch : Bool) (batchSize : ℕ)

/-- `offset.fetch_add(1)` and the reset: the index to use and the new offset.  Only
batch mode goes on with the index 0 after a reset. -/
def bump (offset : ℕ) : ℕ × ℕ :=
  if arenaCap ≤ offset then (if batch then 0 else offset, 0) else (offset, offset + 1)

/-- What the producer does after it has bumped the offset. -/
def State.bumped (s : State k) (pc : Buffer → Producer) : State k :=
  let (idx, offset) := bump batch s.offset
  { s with offset := offset, placed := s.placed ++ [idx], producer := pc idx }

def producerStep (s : State k) : Option (State k) :=
  match s.producer with
  | .loop =>
      if s.stop then some { s with producer := .returned }
      else if batch then some { s with producer := .place [] }
      else some (s.bumped batch .push)
  | .push buf =>
      match SPSCRing.push buf s.ring with
      | some ring => some { s with ring := ring, producer := .loop }
      | none => some s
  | .place batchBuf =>
      if batchBuf.length < batchSize then
        some (s.bumped batch fun idx => .place (batchBuf ++ [idx]))
      else some { s with producer := .send batchBuf 0 }
  | .send batchBuf count =>
      match batchBuf[count]? with
      | none => some { s with producer := .loop }
      | some v =>
          match SPSCRing.push v s.ring with
          | some ring => some { s with ring := ring, producer := .send batchBuf (count + 1) }
          -- `push_batch` has returned `count`, which is not `n`
          | none => some { s with producer := .send batchBuf 0 }
  | .returned => none

/-- Behind `pop_batch`. -/
def filled (n : ℕ) : Consumer := if n = 0 then .loop else .count n

def consumerStep (s : State k) : Option (State k) :=
  match s.consumer with
  | .loop =>
      some { s with consumer := if s.stop then .returned else if batch then .fill 0 else .pop }
  | .pop =>
      match SPSCRing.pop s.ring with
      | some (buf, ring) =>
          some { s with ring := ring, popped := s.popped ++ [buf], consumer := .count 1 }
      | none => some { s with consumer := .loop }
  | .fill count =>
      if count < batchSize then
        match SPSCRing.pop s.ring with
        | some (buf, ring) =>
            some { s with ring := ring, popped := s.popped ++ [buf], consumer := .fill (count + 1) }
        | none => some { s with consumer := filled count }
      else some { s with consumer := filled count }
  | .count n =>
      some { s with processed := s.processed + UInt64.ofNat n, consumer := .loop }
  | .returned => none

def step : Action → State k → Option (State k)
  | .producer, s => producerStep batch batchSize s
  | .consumer, s => consumerStep batch batchSize s
  | .stop, s => some { s with stop := true }

end

/-! ## What is still to send -/

/-- What the producer has placed and still to send. -/
def Producer.unsent : Producer → List Buffer
  | loop => []
  | push buf => [buf]
  | place batchBuf => batchBuf
  | send batchBuf count => batchBuf.drop count
  | returned => []

section
variable {k : ℕ} {batch : Bool} {batchSize : ℕ} {a : Action} {s s' : State k}

/-- What is placed is delivered once, in order. -/
def Inv (s : State k) : Prop := s.popped ++ s.ring.contents ++ s.producer.unsent = s.placed

/-- A push that finds the ring full is the first of its batch. -/
def Whole : Action → State k → Prop
  | .producer, s =>
      match s.producer with
      | .send batchBuf count =>
          0 < count → count < batchBuf.length → s.ring.contents.length + 1 < 2 ^ k
      | _ => True
  | _, _ => True

instance (a : Action) (s : State k) : Decidable (Whole a s) := by
  unfold Whole
  cases a <;> dsimp only
  · split <;> infer_instance
  · infer_instance
  · infer_instance

theorem inv_bumped {pc : Buffer → Producer} (h : Inv s)
    (hpc : ∀ idx, (pc idx).unsent = s.producer.unsent ++ [idx]) : Inv (s.bumped batch pc) := by
  rw [Inv, State.bumped]
  dsimp only
  rw [hpc, ← List.append_assoc, h]

theorem inv_pushed {v : Buffer} {ring : Ring Buffer (2 ^ k)} {pc : Producer} (h : Inv s)
    (hpush : SPSCRing.push v s.ring = some ring) (hpc : s.producer.unsent = v :: pc.unsent) :
    Inv { s with ring := ring, producer := pc } := by
  rw [Inv, hpc] at h
  rw [Inv]
  dsimp only
  rw [(SPSCRing.push_eq_some hpush).1, ← h, List.append_assoc, List.append_assoc,
    List.append_assoc, List.singleton_append]

theorem inv_popped {buf : Buffer} {ring : Ring Buffer (2 ^ k)} {pc : Consumer} (h : Inv s)
    (hpop : SPSCRing.pop s.ring = some (buf, ring)) :
    Inv { s with ring := ring, popped := s.popped ++ [buf], consumer := pc } := by
  rw [Inv, SPSCRing.pop_eq_some hpop] at h
  rw [Inv]
  dsimp only
  rw [← h, List.append_assoc s.popped, List.singleton_append]

theorem Inv.producerStep (h : Inv s) (hstep : producerStep batch batchSize s = some s')
    (hwhole : Whole .producer s) : Inv s' := by
  cases hp : s.producer with
  | loop =>
      have hunsent : s.producer.unsent = [] := by rw [hp, Producer.unsent]
      simp only [BumpRing.producerStep, hp] at hstep
      split at hstep
      · cases hstep
        rwa [Inv, hunsent] at h
      · split at hstep <;> cases hstep
        · rwa [Inv, hunsent] at h
        · exact inv_bumped h fun idx => by rw [hunsent, Producer.unsent, List.nil_append]
  | push buf =>
      simp only [BumpRing.producerStep, hp] at hstep
      split at hstep
      · next ring hpush =>
          cases hstep
          exact inv_pushed h hpush (by rw [hp, Producer.unsent, Producer.unsent])
      · cases hstep
        exact h
  | place batchBuf =>
      simp only [BumpRing.producerStep, hp] at hstep
      split at hstep <;> cases hstep
      · exact inv_bumped h fun idx => by rw [hp, Producer.unsent, Producer.unsent]
      · rwa [Inv, hp] at h
  | send batchBuf count =>
      simp only [BumpRing.producerStep, hp] at hstep
      split at hstep
      · next hend =>
          cases hstep
          rwa [Inv, hp, Producer.unsent, List.drop_eq_nil_of_le (List.getElem?_eq_none_iff.mp hend)] at h
      · next v hv =>
          obtain ⟨hlt, rfl⟩ := List.getElem?_eq_some_iff.mp hv
          split at hstep
          · next ring hpush =>
              cases hstep
              exact inv_pushed h hpush (by rw [hp, Producer.unsent, List.drop_eq_getElem_cons hlt, Producer.unsent])
          · next hpush =>
              cases hstep
              have hfull := SPSCRing.push_eq_none.mp hpush
              rw [Whole, hp] at hwhole
              -- nothing of the batch is in the ring
              obtain rfl : count = 0 := by
                by_contra hne
                exact (hwhole (Nat.pos_of_ne_zero hne) hlt).ne hfull
              rwa [Inv, hp] at h
  | returned => simp [BumpRing.producerStep, hp] at hstep

theorem Inv.consumerStep (h : Inv s) (hstep : consumerStep batch batchSize s = some s') : Inv s' := by
  cases hc : s.consumer with
  | loop =>
      simp only [BumpRing.consumerStep, hc, Option.some.injEq] at hstep
      subst hstep
      exact h
  | pop =>
      simp only [BumpRing.consumerStep, hc] at hstep
      split at hstep
      · next buf ring hpop =>
          cases hstep
          exact inv_popped h hpop
      · cases hstep
        exact h
  | fill count =>
      simp only [BumpRing.consumerStep, hc] at hstep
      split at hstep
      · split at hstep
        · next buf ring hpop =>
            cases hstep
            exact inv_popped h hpop
        · cases hstep
          exact h
      · cases hstep
        exact h
  | count n =>
      simp only [BumpRing.consumerStep, hc, Option.some.injEq] at hstep
      subst hstep
      exact h
  | returned => simp [BumpRing.consumerStep, hc] at hstep

theorem Inv.step (h : Inv s) (hstep : step batch batchSize a s = some s') (hwhole : Whole a s) :
    Inv s' := by
  cases a with
  | producer => exact h.producerStep hstep hwhole
  | consumer => exact h.consumerStep hstep
  | stop =>
      cases hstep
      exact h

theorem init_inv (slots : Fin (2 ^ k) → Buffer) : Inv (init slots) := by
  rw [Inv, init]
  dsimp only
  rw [Ring.contents_empty]
  rfl

end

/-- **What is popped was placed, once and in order**, in every run in which only
the first push of a batch ever finds the ring full. -/
theorem popped_prefix_of_whole {k : ℕ} (batch : Bool) (batchSize : ℕ) (slots : Fin (2 ^ k) → Buffer)
    (actions : List Action) (hwhole : EachStep (step batch batchSize) (init slots) actions Whole) :
    Always (step batch batchSize) (init slots) actions fun s => s.popped <+: s.placed := by
  have hinv := always_of_eachStep Inv (init_inv slots) (fun _ _ _ h => h.step) hwhole
  intro pre hp
  exact ⟨_, (List.append_assoc ..).symm.trans (hinv pre hp)⟩

/-- A ring of two slots and batches of two; the second batch has to wait, as a whole. -/
theorem popped_prefix_of_whole_waiting :
    let actions : List Action :=
      [.producer, .producer, .producer, .producer, .producer, .consumer, .consumer,
        .producer, .producer, .producer, .producer, .producer, .producer, .producer, .consumer]
    let s : State 1 := schedule (step true 2) actions (init fun _ => 0)
    s.popped = [0, 1] ∧ s.placed = [0, 1, 2, 3] ∧ s.popped <+: s.placed :=
  ⟨by decide, by decide, popped_prefix_of_whole true 2 _ _ (by decide) _ (List.prefix_refl _)⟩

/-- The same ring and batches.  The second push of the batch finds the ring full,
and the first buffer is sent once more. -/
theorem batch_sent_twice :
    let actions : List Action :=
      [.producer, .producer, .producer, .producer, .producer, .producer, .consumer, .consumer,
        .producer, .consumer]
    let s : State 1 := schedule (step true 2) actions (init fun _ => 0)
    s.placed = [0, 1] ∧ s.popped = [0, 0] ∧ ¬ s.popped <+: s.placed := by
  intro actions s
  have hplaced : s.placed = [0, 1] := by decide
  have hpopped : s.popped = [0, 0] := by decide
  exact ⟨hplaced, hpopped, by rw [hplaced, hpopped]; decide⟩

end LearnCpp.Concurrency.BumpRing
