/-
# `LearnCpp.Concurrency.CapstonePipeline` — market data through a ring to a book

`topics/domain_sketches/hft_capstone_pipeline.cpp`: a producer thread pushes
`total` updates into a ring, spinning while it is full, and then sets `done`; a
consumer thread pops them, keeps the top of the book and counts signals.

The consumer's loop is `while (!done || q.pop(m)) { if (!q.pop(m)) … }`.  Once it
has seen `done`, its test takes a message itself, and the body then goes on to
the next one.  So it matters what is left in the ring when `done` is seen:

    the ring is empty       the test fails, and the loop is over
    it is not               the test takes a message, and nobody handles it

`sent`, `handled` and `lost` record what was pushed, what the body went through
with, and what the test took.  Ring operations are atomic here;
`LearnCpp.Concurrency.SpscRingBuffer` has the same ring step by step.
-/
import LearnCpp.Lib.Ring
import LearnCpp.Lib.Schedule

namespace LearnCpp.Concurrency.CapstonePipeline

open Lib

structure MdUpdate where
  seq : UInt32 := 0
  symbolId : UInt32 := 1
  bidPxTicks : Int := 0
  askPxTicks : Int := 0
  bidQty : UInt32 := 0
  askQty : UInt32 := 0
  tSendNs : UInt64 := 0
  deriving DecidableEq, Repr

structure TopOfBook where
  bidPxTicks : Int := 0
  askPxTicks : Int := 0
  bidQty : UInt32 := 0
  askQty : UInt32 := 0
  deriving DecidableEq, Repr

def symbol : UInt32 := 1
def maxSpreadTicks : Int := 1
def minQty : UInt32 := 100

/-! ## The ring -/

def push {T : Type} {qcap : ℕ} [NeZero qcap] (v : T) (q : Ring T qcap) : Option (Ring T qcap) :=
  q.push v

def pop {T : Type} {qcap : ℕ} [NeZero qcap] (q : Ring T qcap) : Option (T × Ring T qcap) := q.pop

/-! ## The threads -/

/-- The update with number `i`. -/
def update (i : UInt32) (now : UInt64) : MdUpdate :=
  let bid : Int := 100000 + (i % 4).toNat
  { seq := i, symbolId := symbol, bidPxTicks := bid, askPxTicks := bid + 1
    bidQty := 200, askQty := 200, tSendNs := now }

/-- Where the producer is. -/
inductive Producer where
  /-- at the test `i < total` -/
  | loop (i : UInt32)
  /-- in `while (!q.push(u))` -/
  | pushing (i : UInt32) (u : MdUpdate)
  | returned
  deriving DecidableEq

/-- Where the consumer is. -/
inductive Consumer where
  /-- at `!done.load()` -/
  | testDone
  /-- at `|| q.pop(m)`, as `done` was true -/
  | testPop
  /-- at `!q.pop(m)` in the body -/
  | bodyPop
  /-- behind it, with a message -/
  | handling (m : MdUpdate)
  | returned
  deriving DecidableEq

/-- What the consumer computes. -/
structure Stats where
  book : TopOfBook := {}
  sumLatNs : UInt64 := 0
  maxLatNs : UInt64 := 0
  signals : UInt64 := 0
  processed : UInt64 := 0
  deriving DecidableEq, Repr

/-- The rest of the body, for a message received at `tRecv`. -/
def handle (tRecv : UInt64) (m : MdUpdate) (s : Stats) : Stats :=
  let lat := if tRecv ≥ m.tSendNs then tRecv - m.tSendNs else 0
  let s := { s with
    sumLatNs := s.sumLatNs + lat, maxLatNs := if lat > s.maxLatNs then lat else s.maxLatNs }
  let s :=
    if m.symbolId = symbol then
      let book : TopOfBook := ⟨m.bidPxTicks, m.askPxTicks, m.bidQty, m.askQty⟩
      let spread := book.askPxTicks - book.bidPxTicks
      let fires := spread ≤ maxSpreadTicks ∧ book.bidQty ≥ minQty ∧ book.askQty ≥ minQty
      { s with book := book, signals := if fires then s.signals + 1 else s.signals }
    else s
  { s with processed := s.processed + 1 }

theorem handle_processed (tRecv : UInt64) (m : MdUpdate) (s : Stats) :
    (handle tRecv m s).processed = s.processed + 1 := by
  unfold handle
  dsimp only
  split <;> rfl

structure State (qcap : ℕ) where
  q : Ring MdUpdate qcap
  done : Bool := false
  dropped : UInt64 := 0
  stats : Stats := {}
  producer : Producer := .loop 0
  consumer : Consumer := .testDone
  sent : List MdUpdate := []
  handled : List MdUpdate := []
  lost : List MdUpdate := []

/-- A step of one of the threads; `now` is what the clock says if it is asked. -/
inductive Action where
  | producer (now : UInt64)
  | consumer (now : UInt64)
  deriving DecidableEq

variable {qcap : ℕ} [NeZero qcap]

def step (total : UInt32) : Action → State qcap → Option (State qcap)
  | .producer now, s =>
      match s.producer with
      | .loop i =>
          if i < total then some { s with producer := .pushing i (update i now) }
          else some { s with producer := .returned, done := true }
      | .pushing i u =>
          match push u s.q with
          | some q => some { s with q := q, producer := .loop (i + 1), sent := s.sent ++ [u] }
          | none => some { s with dropped := s.dropped + 1 }
      | .returned => none
  | .consumer now, s =>
      match s.consumer with
      | .testDone => some { s with consumer := if s.done then .testPop else .bodyPop }
      | .testPop =>
          match pop s.q with
          | some (m, q) => some { s with q := q, consumer := .bodyPop, lost := s.lost ++ [m] }
          | none => some { s with consumer := .returned }
      | .bodyPop =>
          match pop s.q with
          | some (m, q) => some { s with q := q, consumer := .handling m }
          | none => some { s with consumer := .testDone }
      | .handling m =>
          some { s with
            stats := handle now m s.stats, consumer := .testDone, handled := s.handled ++ [m] }
      | .returned => none

/-- Before the threads start. -/
def init (slots : Fin qcap → MdUpdate) : State qcap := { q := .empty slots }

namespace State

/-- Both threads have returned. -/
def Finished (s : State qcap) : Prop := s.producer = .returned ∧ s.consumer = .returned

/-- The message that the consumer is handling. -/
def inHand (s : State qcap) : List MdUpdate :=
  match s.consumer with
  | .handling m => [m]
  | _ => []

/-- A message is about to be lost: `done` was seen while the ring was not empty. -/
def Losing (s : State qcap) : Prop := s.consumer = .testPop ∧ s.q.contents ≠ []

end State

/-- The consumer finds the ring empty when it loads `done` as true. -/
def SeesDoneLate : Action → State qcap → Prop
  | .consumer _, s => s.consumer = .testDone → s.done = true → s.q.contents = []
  | .producer _, _ => True

instance (a : Action) (s : State qcap) : Decidable (SeesDoneLate a s) := by
  unfold SeesDoneLate
  cases a <;> infer_instance

/-! ## Where the messages are -/

/-- How far the producer is. -/
def ProducerAt (total : UInt32) (sent : ℕ) (done : Bool) : Producer → Prop
  | .loop i => sent = i.toNat ∧ i ≤ total ∧ done = false
  | .pushing i _ => sent = i.toNat ∧ i < total ∧ done = false
  | .returned => sent = total.toNat ∧ done = true

/-- What the consumer knows. -/
def ConsumerAt (q : Ring MdUpdate qcap) (done : Bool) : Consumer → Prop
  | .testPop => done = true
  | .returned => done = true ∧ q.contents = []
  | _ => True

structure Inv (total : UInt32) (s : State qcap) : Prop where
  producer : ProducerAt total s.sent.length s.done s.producer
  consumer : ConsumerAt s.q s.done s.consumer
  count : s.sent.length = s.handled.length + s.inHand.length + s.lost.length + s.q.contents.length
  order : s.lost = [] → s.sent = s.handled ++ s.inHand ++ s.q.contents
  processed : s.stats.processed = UInt64.ofNat s.handled.length

theorem init_inv (total : UInt32) (slots : Fin qcap → MdUpdate) : Inv total (init slots) where
  producer := ⟨rfl, by simp, rfl⟩
  consumer := trivial
  count := by simp [init, State.inHand, Ring.contents_empty]
  order _ := (Ring.contents_empty slots).symm
  processed := rfl

section
variable {total : UInt32} {s s' : State qcap}

/-- While the producer runs, the consumer has not seen `done`, so a change of the
ring is none of its business. -/
theorem ConsumerAt.running {q q' : Ring MdUpdate qcap} {consumer : Consumer}
    (h : ConsumerAt q false consumer) : ConsumerAt q' false consumer := by
  cases consumer with
  | testPop => exact absurd h Bool.false_ne_true
  | returned => exact absurd h.1 Bool.false_ne_true
  | testDone => trivial
  | bodyPop => trivial
  | handling m => trivial

theorem ConsumerAt.setDone {q : Ring MdUpdate qcap} {consumer : Consumer}
    (h : ConsumerAt q false consumer) : ConsumerAt q true consumer := by
  cases consumer with
  | testPop => rfl
  | returned => exact absurd h.1 Bool.false_ne_true
  | testDone => trivial
  | bodyPop => trivial
  | handling m => trivial

theorem ProducerAt.returned {sent : ℕ} {producer : Producer} (h : ProducerAt total sent true producer) :
    producer = .returned := by
  cases producer with
  | loop i => cases h.2.2
  | pushing i u => cases h.2.2
  | returned => rfl

theorem Inv.producer_step {now : UInt64} (h : Inv total s)
    (hstep : step total (.producer now) s = some s') : Inv total s' := by
  have hproducer := h.producer
  have hconsumer := h.consumer
  cases hp : s.producer with
  | loop i =>
      rw [hp] at hproducer
      obtain ⟨hsent, hle, hdone⟩ := hproducer
      simp only [step, hp] at hstep
      split at hstep
      · next hlt =>
          cases hstep
          exact ⟨⟨hsent, hlt, hdone⟩, hconsumer, h.count, h.order, h.processed⟩
      · next hge =>
          cases hstep
          have heq : i = total := UInt32.le_antisymm hle (UInt32.not_lt.mp hge)
          rw [hdone] at hconsumer
          exact ⟨⟨heq ▸ hsent, rfl⟩, hconsumer.setDone, h.count, h.order, h.processed⟩
  | pushing i u =>
      rw [hp] at hproducer
      obtain ⟨hsent, hlt, hdone⟩ := hproducer
      rw [hdone] at hconsumer
      simp only [step, hp] at hstep
      split at hstep
      · next q hpush =>
          cases hstep
          have hcontents := (Ring.push_eq_some hpush).1
          have hnat := UInt32.lt_iff_toNat_lt.mp hlt
          have hbound := total.toNat_lt
          have hsucc : (i + 1).toNat = i.toNat + 1 := by
            rw [UInt32.toNat_add, UInt32.toNat_one, Nat.mod_eq_of_lt (by omega)]
          refine ⟨⟨?_, ?_, hdone⟩, hdone ▸ hconsumer.running, ?_, ?_, h.processed⟩
          · rw [List.length_append, List.length_singleton, hsent, hsucc]
          · rw [UInt32.le_iff_toNat_le, hsucc]
            exact hnat
          · have hcount := h.count
            simp only [State.inHand, hcontents, List.length_append, List.length_singleton] at hcount ⊢
            omega
          · intro hlost
            dsimp only
            rw [h.order hlost, hcontents, List.append_assoc]
            rfl
      · cases hstep
        exact ⟨⟨hsent, hlt, hdone⟩, hdone ▸ hconsumer, h.count, h.order, h.processed⟩
  | returned => simp [step, hp] at hstep

theorem Inv.consumer_step {now : UInt64} (h : Inv total s)
    (hstep : step total (.consumer now) s = some s') : Inv total s' := by
  have hcount := h.count
  have horder := h.order
  have hconsumer := h.consumer
  cases hc : s.consumer with
  | testDone =>
      simp only [State.inHand, hc] at hcount horder
      simp only [step, hc, Option.some.injEq] at hstep
      subst hstep
      cases hdone : s.done with
      | true => exact ⟨hdone ▸ h.producer, rfl, hcount, horder, h.processed⟩
      | false => exact ⟨hdone ▸ h.producer, trivial, hcount, horder, h.processed⟩
  | testPop =>
      rw [hc] at hconsumer
      simp only [State.inHand, hc] at hcount horder
      simp only [step, hc] at hstep
      split at hstep
      · next m q hpop =>
          cases hstep
          have hcontents := Ring.pop_eq_some hpop
          refine ⟨h.producer, trivial, ?_, fun hlost => absurd hlost (by simp), h.processed⟩
          simp only [State.inHand, hcontents, List.length_cons, List.length_append,
            List.length_nil] at hcount ⊢
          omega
      · next hpop =>
          cases hstep
          exact ⟨h.producer, ⟨hconsumer, Ring.pop_eq_none.mp hpop⟩, hcount, horder, h.processed⟩
  | bodyPop =>
      simp only [State.inHand, hc] at hcount horder
      simp only [step, hc] at hstep
      split at hstep
      · next m q hpop =>
          cases hstep
          have hcontents := Ring.pop_eq_some hpop
          refine ⟨h.producer, trivial, ?_, ?_, h.processed⟩
          · simp only [State.inHand, hcontents, List.length_cons, List.length_nil] at hcount ⊢
            omega
          · intro hlost
            rw [hcontents] at horder
            simpa [State.inHand] using horder hlost
      · cases hstep
        exact ⟨h.producer, trivial, hcount, horder, h.processed⟩
  | handling m =>
      simp only [State.inHand, hc] at hcount horder
      simp only [step, hc, Option.some.injEq] at hstep
      subst hstep
      refine ⟨h.producer, trivial, ?_, ?_, ?_⟩
      · simp only [State.inHand, List.length_append, List.length_cons, List.length_nil] at hcount ⊢
        omega
      · intro hlost
        simpa [State.inHand] using horder hlost
      · simp only [handle_processed, h.processed, List.length_append, List.length_singleton,
          UInt64.ofNat_add]
        rfl
  | returned => simp [step, hc] at hstep

theorem Inv.step {a : Action} (h : Inv total s) (hstep : step total a s = some s') : Inv total s' := by
  cases a with
  | producer now => exact h.producer_step hstep
  | consumer now => exact h.consumer_step hstep

end

/-! ## Messages that the loop test takes -/

/-- A message is lost, or about to be. -/
def State.Doomed (s : State qcap) : Prop := s.Losing ∨ s.lost ≠ []

section
variable {total : UInt32} {a : Action} {s s' : State qcap}

theorem producer_frame {now : UInt64} (hstep : step total (.producer now) s = some s') :
    s'.consumer = s.consumer ∧ s'.lost = s.lost ∧ s.q.contents <+: s'.q.contents := by
  cases hp : s.producer with
  | loop i =>
      simp only [step, hp] at hstep
      split at hstep <;> cases hstep <;> exact ⟨rfl, rfl, List.prefix_refl _⟩
  | pushing i u =>
      simp only [step, hp] at hstep
      split at hstep
      · next q hpush =>
          cases hstep
          exact ⟨rfl, rfl, ⟨[u], (Ring.push_eq_some hpush).1.symm⟩⟩
      · cases hstep
        exact ⟨rfl, rfl, List.prefix_refl _⟩
  | returned => simp [step, hp] at hstep

theorem consumer_lost {now : UInt64} (hstep : step total (.consumer now) s = some s') :
    s'.lost = s.lost ∨ s.Losing ∧ s'.lost ≠ [] := by
  cases hc : s.consumer with
  | testPop =>
      simp only [step, hc] at hstep
      split at hstep
      · next m q hpop =>
          cases hstep
          refine Or.inr ⟨⟨hc, ?_⟩, List.append_ne_nil_of_right_ne_nil _ (List.cons_ne_nil m [])⟩
          rw [Ring.pop_eq_some hpop]
          exact List.cons_ne_nil _ _
      · cases hstep
        exact Or.inl rfl
  | bodyPop =>
      simp only [step, hc] at hstep
      split at hstep <;> cases hstep <;> exact Or.inl rfl
  | testDone => simp only [step, hc, Option.some.injEq] at hstep; subst hstep; exact Or.inl rfl
  | handling m => simp only [step, hc, Option.some.injEq] at hstep; subst hstep; exact Or.inl rfl
  | returned => simp [step, hc] at hstep

/-- A ring that is not empty stays so until the consumer pops. -/
theorem State.Doomed.step (h : s.Doomed) (hstep : step total a s = some s') : s'.Doomed := by
  cases a with
  | producer now =>
      obtain ⟨hconsumer, hlost, hprefix⟩ := producer_frame hstep
      refine h.imp (fun ⟨htest, hne⟩ => ⟨hconsumer.trans htest, fun hnil => hne ?_⟩) (hlost ▸ ·)
      exact List.prefix_nil.mp (hnil ▸ hprefix)
  | consumer now =>
      right
      rcases consumer_lost hstep with hsame | ⟨-, hlost⟩
      · rcases h with ⟨htest, hne⟩ | hlost
        · -- the test takes the first message
          simp only [CapstonePipeline.step, htest] at hstep
          split at hstep
          · cases hstep
            simp
          · next hpop => exact absurd (Ring.pop_eq_none.mp hpop) hne
        · rwa [hsame]
      · exact hlost

/-- The loop test is about to take a message just when `done` was seen too early. -/
theorem losing_iff {now : UInt64} (hstep : step total (.consumer now) s = some s') :
    s'.Losing ↔ ¬ SeesDoneLate (.consumer now) s := by
  simp only [State.Losing, SeesDoneLate, Classical.not_imp]
  cases hc : s.consumer with
  | testDone =>
      simp only [step, hc, Option.some.injEq] at hstep
      subst hstep
      cases s.done <;> simp
  | testPop =>
      simp only [step, hc] at hstep
      split at hstep <;> cases hstep <;> simp
  | bodyPop =>
      simp only [step, hc] at hstep
      split at hstep <;> cases hstep <;> simp
  | handling m =>
      simp only [step, hc, Option.some.injEq] at hstep
      subst hstep
      simp
  | returned => simp [step, hc] at hstep

theorem Inv.not_doomed (h : Inv total s) (hnot : ¬ s.Doomed)
    (hstep : CapstonePipeline.step total a s = some s') (hok : SeesDoneLate a s) : ¬ s'.Doomed := by
  obtain ⟨hlosing, hlost⟩ := not_or.mp hnot
  cases a with
  | producer now =>
      obtain ⟨hconsumer, hsame, -⟩ := producer_frame hstep
      refine not_or.mpr ⟨fun hlosing' => ?_, hsame ▸ hlost⟩
      -- a consumer that has seen `done` has no producer next to it
      have hdone := h.consumer
      rw [← hconsumer, hlosing'.1] at hdone
      have hproducer := h.producer
      rw [show s.done = true from hdone] at hproducer
      simp [CapstonePipeline.step, hproducer.returned] at hstep
  | consumer now =>
      refine not_or.mpr ⟨fun habs => (losing_iff hstep).mp habs hok, ?_⟩
      rcases consumer_lost hstep with hsame | ⟨habs, -⟩
      · exact hsame ▸ hlost
      · exact absurd habs hlosing

theorem Inv.finished (h : Inv total s) (hfinished : s.Finished) :
    s.q.contents = [] ∧ s.inHand = [] ∧ s.sent.length = total.toNat := by
  obtain ⟨hp, hc⟩ := hfinished
  have hproducer := h.producer
  have hconsumer := h.consumer
  rw [hp] at hproducer
  rw [hc] at hconsumer
  exact ⟨hconsumer.2, by simp [State.inHand, hc], hproducer.1⟩

end

/-- **All messages are handled**, once and in order, just when the consumer finds
the ring empty as it sees `done`. -/
theorem all_handled_iff (total : UInt32) (slots : Fin qcap → MdUpdate) (actions : List Action) :
    let s := schedule (step total) actions (init slots)
    s.Finished → s.sent.length = total.toNat ∧
      ((s.handled = s.sent ∧ s.stats.processed.toNat = total.toNat) ↔
        EachStep (step total) (init slots) actions SeesDoneLate) := by
  intro s hfinished
  have hinv : Inv total s :=
    schedule_rule (Inv total) (init_inv total slots) (fun _ _ _ h hstep => h.step hstep) actions
  obtain ⟨hempty, hhand, hsent⟩ := hinv.finished hfinished
  -- no message was ever lost just when every `done` was seen late enough
  have hlate : ¬ s.Doomed ↔ EachStep (step total) (init slots) actions SeesDoneLate := by
    rw [← always_iff (fun s => Inv total s ∧ ¬ s.Doomed) (P := fun s => ¬ s.Doomed)]
    · exact (always_iff_last fun a t t' hdoomed hstep =>
        not_not_intro ((not_not.mp hdoomed).step hstep)).symm
    · refine ⟨init_inv total slots, not_or.mpr ⟨fun h => ?_, not_not_intro rfl⟩⟩
      cases h.1
    · exact fun t h => h.2
    · exact fun a t t' h hstep hok => ⟨h.1.step hstep, h.1.not_doomed h.2 hstep hok⟩
    · intro a t t' h hstep hnot
      cases a with
      | producer now => exact absurd trivial hnot
      | consumer now => exact not_not_intro (Or.inl ((losing_iff hstep).mpr hnot))
  have hdoomed : s.Doomed ↔ s.lost ≠ [] := by
    refine ⟨fun h => h.resolve_left fun hlosing => ?_, Or.inr⟩
    cases hlosing.1.symm.trans hfinished.2
  refine ⟨hsent, ?_⟩
  rw [← hlate, hdoomed, not_not]
  have hcount := hinv.count
  rw [hempty, hhand, List.length_nil] at hcount
  constructor
  · rintro ⟨hall, -⟩
    rw [hall] at hcount
    exact List.length_eq_zero_iff.mp (by omega)
  · intro hlost
    have horder := hinv.order hlost
    rw [hempty, hhand, List.append_nil, List.append_nil] at horder
    refine ⟨horder.symm, ?_⟩
    rw [hinv.processed, ← horder, hsent, UInt64.toNat_ofNat_of_lt']
    exact total.toNat_lt.trans (by decide)

/-- Two slots and one message, which the consumer pops before it sees `done`. -/
theorem all_handled_in_time :
    let actions : List Action :=
      [.producer 5, .producer 5, .consumer 6, .consumer 6, .producer 7, .consumer 8, .consumer 8, .consumer 8]
    let s := schedule (step 1) actions (init fun _ => {} : State 2)
    s.handled = s.sent ∧ s.stats.processed.toNat = 1 :=
  ((all_handled_iff 1 _ _ ⟨by decide, by decide⟩).2).mpr (by decide)

/-- One message that is in the ring when the consumer sees `done`. -/
theorem last_message_lost :
    let actions : List Action :=
      [.producer 5, .producer 5, .producer 7, .consumer 8, .consumer 8, .consumer 8, .consumer 8, .consumer 8]
    let s := schedule (step 1) actions (init fun _ => {} : State 2)
    s.Finished ∧ s.sent = [update 0 5] ∧ s.handled = [] ∧ s.stats.processed = 0 :=
  ⟨⟨by decide, by decide⟩, by decide, by decide, by decide⟩

end LearnCpp.Concurrency.CapstonePipeline
