/-
# `LearnCpp.Concurrency.BumpArena` — which slots the bump allocator hands out

The producer of `run_single_ring_bump` bumps the offset, looks at what it was, and
behind the end of the arena sets it back to zero.  That reset takes a slot of its
own, so a lap has `ARENA_CAP + 1` of them:

    single   0, 1, …, ARENA_CAP − 1, ARENA_CAP,   0, 1, …      outside of the arena
    batch    0, 1, …, ARENA_CAP − 1, 0,           0, 1, …      the slot 0 twice

What is taken goes to the ring in this order, once, as long as `push_batch` finds the
ring full only at the first entry of a batch (`LearnCpp.Concurrency.BumpRing`).
-/
import LearnCpp.Concurrency.BumpRing

namespace LearnCpp.Concurrency.BumpRing

open Lib

/-- The slots that were handed to the ring. -/
def State.handed {k : ℕ} (s : State k) : List Buffer := s.popped ++ s.ring.contents

/-- The arena is handed out in laps: the `n`-th slot has the index `n % ARENA_CAP`, so
that it is inside of the arena and not handed out before in its lap. -/
structure InLaps (handed : List Buffer) : Prop where
  index : ∀ n < handed.length, handed[n]? = some (n % arenaCap)
  inside : ∀ idx ∈ handed, idx < arenaCap
  once : ∀ m n, m < n → n < handed.length → m / arenaCap = n / arenaCap → handed[m]? ≠ handed[n]?

/-- The slot that the producer takes at its `n`-th bump. -/
def slotAt (batch : Bool) (n : ℕ) : Buffer := (bump batch (n % (arenaCap + 1))).1

/-- The bumps up to which the laps are those of the arena. -/
def firstLap (batch : Bool) : ℕ := if batch then arenaCap + 1 else arenaCap

theorem one_lt_arenaCap : 1 < arenaCap := Nat.one_lt_two_pow (by decide)

theorem inLaps_of_index {handed : List Buffer}
    (hindex : ∀ n < handed.length, handed[n]? = some (n % arenaCap)) : InLaps handed := by
  have hpos : 0 < arenaCap := Nat.zero_lt_of_lt one_lt_arenaCap
  refine ⟨hindex, fun idx hidx => ?_, fun m n hmn hn hlap heq => ?_⟩
  · obtain ⟨n, hn, rfl⟩ := List.getElem_of_mem hidx
    have hslot := hindex n hn
    rw [List.getElem?_eq_getElem hn] at hslot
    rw [Option.some.inj hslot]
    exact Nat.mod_lt n hpos
  · rw [hindex m (hmn.trans hn), hindex n hn] at heq
    have hmod := Option.some.inj heq
    have hm := Nat.div_add_mod m arenaCap
    rw [hlap, hmod, Nat.div_add_mod] at hm
    exact hmn.ne hm.symm

section
variable {k : ℕ} {batch : Bool} {batchSize : ℕ} {a : Action} {s s' : State k}

/-! ## What one step does to the offset -/

theorem step_bump (hstep : step batch batchSize a s = some s') :
    (s'.offset = s.offset ∧ s'.placed = s.placed) ∨
      (s'.offset = (bump batch s.offset).2 ∧ s'.placed = s.placed ++ [(bump batch s.offset).1]) := by
  cases a with
  | producer =>
      rw [step, producerStep] at hstep
      split at hstep
      next =>
        split at hstep
        next =>
          cases hstep
          exact Or.inl ⟨rfl, rfl⟩
        next =>
          split at hstep <;> cases hstep
          · exact Or.inl ⟨rfl, rfl⟩
          · exact Or.inr ⟨rfl, rfl⟩
      next => split at hstep <;> cases hstep <;> exact Or.inl ⟨rfl, rfl⟩
      next =>
        split at hstep <;> cases hstep
        · exact Or.inr ⟨rfl, rfl⟩
        · exact Or.inl ⟨rfl, rfl⟩
      next =>
        split at hstep
        next =>
          cases hstep
          exact Or.inl ⟨rfl, rfl⟩
        next => split at hstep <;> cases hstep <;> exact Or.inl ⟨rfl, rfl⟩
      next => cases hstep
  | consumer =>
      refine Or.inl ?_
      rw [step, consumerStep] at hstep
      split at hstep
      next =>
        cases hstep
        exact ⟨rfl, rfl⟩
      next => split at hstep <;> cases hstep <;> exact ⟨rfl, rfl⟩
      next =>
        split at hstep
        next => split at hstep <;> cases hstep <;> exact ⟨rfl, rfl⟩
        next =>
          cases hstep
          exact ⟨rfl, rfl⟩
      next =>
        cases hstep
        exact ⟨rfl, rfl⟩
      next => cases hstep
  | stop =>
      cases hstep
      exact Or.inl ⟨rfl, rfl⟩

/-- The offset counts the slots of the lap, and all of them are handed out in turn. -/
structure Bumped (batch : Bool) (s : State k) : Prop where
  offset : s.offset = s.placed.length % (arenaCap + 1)
  placed : s.placed = (List.range s.placed.length).map (slotAt batch)

theorem bump_offset (n : ℕ) : (bump batch (n % (arenaCap + 1))).2 = (n + 1) % (arenaCap + 1) := by
  have hlt : n % (arenaCap + 1) < arenaCap + 1 := Nat.mod_lt n (Nat.succ_pos arenaCap)
  rw [Nat.add_mod, Nat.mod_eq_of_lt (Nat.succ_lt_succ (Nat.zero_lt_of_lt one_lt_arenaCap)), bump]
  split
  next hend =>
    rw [Nat.le_antisymm (Nat.le_of_lt_succ hlt) hend]
    exact (Nat.mod_self (arenaCap + 1)).symm
  next hroom => exact (Nat.mod_eq_of_lt (Nat.succ_lt_succ (Nat.lt_of_not_le hroom))).symm

theorem Bumped.step (h : Bumped batch s) (hstep : step batch batchSize a s = some s') :
    Bumped batch s' := by
  rcases step_bump hstep with ⟨hoffset, hplaced⟩ | ⟨hoffset, hplaced⟩
  · refine ⟨?_, ?_⟩
    · rw [hoffset, hplaced, h.offset]
    · rw [hplaced]
      exact h.placed
  · have hlength : s'.placed.length = s.placed.length + 1 := by
      rw [hplaced, List.length_append, List.length_singleton]
    refine ⟨?_, ?_⟩
    · rw [hoffset, hlength, h.offset, bump_offset]
    · rw [hlength, List.range_succ, List.map_append, ← h.placed, hplaced, h.offset]
      rfl

theorem bumped (slots : Fin (2 ^ k) → Buffer) (actions : List Action) :
    Bumped batch (schedule (BumpRing.step batch batchSize) actions (init slots)) :=
  schedule_rule (Bumped batch) ⟨(Nat.zero_mod _).symm, rfl⟩ (fun _ _ _ h => h.step) actions

/-! ## How far the laps are right -/

theorem slotAt_eq {n : ℕ} (hn : n < firstLap batch) : slotAt batch n = n % arenaCap := by
  have hle : n ≤ arenaCap := by
    rw [firstLap] at hn
    split at hn <;> omega
  rw [slotAt, Nat.mod_eq_of_lt (Nat.lt_succ_of_le hle), bump]
  split
  next hend =>
    obtain rfl := Nat.le_antisymm hle hend
    cases batch with
    | false => exact absurd hn (Nat.lt_irrefl arenaCap)
    | true => exact (Nat.mod_self arenaCap).symm
  next hroom => exact (Nat.mod_eq_of_lt (Nat.lt_of_not_le hroom)).symm

/-- The slot behind the end of the arena, or the slot 0 once more. -/
theorem slotAt_firstLap : slotAt batch (firstLap batch) ≠ firstLap batch % arenaCap := by
  have hcap := one_lt_arenaCap
  cases batch with
  | false =>
      show slotAt false arenaCap ≠ arenaCap % arenaCap
      rw [slotAt, Nat.mod_eq_of_lt (Nat.lt_succ_self arenaCap), bump, if_pos le_rfl, Nat.mod_self]
      exact (Nat.zero_lt_of_lt hcap).ne'
  | true =>
      show slotAt true (arenaCap + 1) ≠ (arenaCap + 1) % arenaCap
      rw [slotAt, Nat.mod_self, bump, if_neg (Nat.not_le.mpr (Nat.zero_lt_of_lt hcap)),
        Nat.add_mod_left, Nat.mod_eq_of_lt hcap]
      exact Nat.zero_ne_one

theorem inLaps_range_iff (m : ℕ) :
    InLaps ((List.range m).map (slotAt batch)) ↔ m ≤ firstLap batch := by
  constructor
  · intro h
    by_contra hlt
    have hin : firstLap batch < m := Nat.lt_of_not_le hlt
    have hindex := h.index (firstLap batch) (by simpa using hin)
    rw [List.getElem?_map, List.getElem?_range hin] at hindex
    exact slotAt_firstLap (Option.some.inj hindex)
  · intro hm
    refine inLaps_of_index fun n hn => ?_
    rw [List.length_map, List.length_range] at hn
    rw [List.getElem?_map, List.getElem?_range hn, Option.map_some, slotAt_eq (hn.trans_le hm)]

/-! ## What is taken goes to the ring -/

/-- Where the producer is in single mode. -/
def Producer.single : Producer → Prop
  | .place _ | .send _ _ => False
  | .loop | .push _ | .returned => True

theorem single_step (hs : s.producer.single) (hstep : step false batchSize a s = some s') :
    s'.producer.single := by
  cases a with
  | producer =>
      rw [step, producerStep] at hstep
      split at hstep
      next =>
        split at hstep
        next =>
          cases hstep
          trivial
        next =>
          cases hstep
          trivial
      next hproducer =>
        split at hstep
        next =>
          cases hstep
          trivial
        next =>
          cases hstep
          exact hs
      next hproducer =>
        rw [hproducer] at hs
        exact hs.elim
      next hproducer =>
        rw [hproducer] at hs
        exact hs.elim
      next => cases hstep
  | consumer =>
      rw [step, consumerStep] at hstep
      split at hstep
      next =>
        cases hstep
        exact hs
      next =>
        split at hstep <;> cases hstep <;> exact hs
      next =>
        split at hstep
        next => split at hstep <;> cases hstep <;> exact hs
        next =>
          cases hstep
          exact hs
      next =>
        cases hstep
        exact hs
      next => cases hstep
  | stop =>
      cases hstep
      exact hs

theorem whole_of_single (slots : Fin (2 ^ k) → Buffer) (actions : List Action) :
    EachStep (step false batchSize) (init slots) actions Whole := by
  intro pre a _ _
  have h0 : (init slots).producer.single := trivial
  have hsingle : (schedule (step false batchSize) pre (init slots)).producer.single :=
    schedule_rule (fun s : State k => s.producer.single) h0 (fun _ _ _ => single_step) pre
  cases a with
  | producer =>
      rw [Whole]
      split
      next batchBuf count hproducer =>
        rw [hproducer] at hsingle
        exact hsingle.elim
      next => trivial
  | consumer | stop => trivial

theorem handed_step (hstep : step batch batchSize a s = some s') : s.handed <+: s'.handed := by
  have hpush : ∀ {v : Buffer} {ring : Ring Buffer (2 ^ k)}, SPSCRing.push v s.ring = some ring →
      s.handed <+: s.popped ++ ring.contents := by
    intro v ring hpush
    rw [(SPSCRing.push_eq_some hpush).1, ← List.append_assoc]
    exact List.prefix_append _ _
  have hpop : ∀ {buf : Buffer} {ring : Ring Buffer (2 ^ k)}, SPSCRing.pop s.ring = some (buf, ring) →
      s.handed <+: s.popped ++ [buf] ++ ring.contents := by
    intro buf ring hpop
    rw [State.handed, SPSCRing.pop_eq_some hpop, List.append_assoc]
    exact List.prefix_refl _
  cases a with
  | producer =>
      rw [step, producerStep] at hstep
      split at hstep
      next =>
        split at hstep
        next =>
          cases hstep
          exact List.prefix_refl _
        next => split at hstep <;> cases hstep <;> exact List.prefix_refl _
      next =>
        split at hstep
        next ring hring =>
          cases hstep
          exact hpush hring
        next =>
          cases hstep
          exact List.prefix_refl _
      next => split at hstep <;> cases hstep <;> exact List.prefix_refl _
      next =>
        split at hstep
        next =>
          cases hstep
          exact List.prefix_refl _
        next =>
          split at hstep
          next ring hring =>
            cases hstep
            exact hpush hring
          next =>
            cases hstep
            exact List.prefix_refl _
      next => cases hstep
  | consumer =>
      rw [step, consumerStep] at hstep
      split at hstep
      next =>
        cases hstep
        exact List.prefix_refl _
      next =>
        split at hstep
        next buf ring hring =>
          cases hstep
          exact hpop hring
        next =>
          cases hstep
          exact List.prefix_refl _
      next =>
        split at hstep
        next =>
          split at hstep
          next buf ring hring =>
            cases hstep
            exact hpop hring
          next =>
            cases hstep
            exact List.prefix_refl _
        next =>
          cases hstep
          exact List.prefix_refl _
      next =>
        cases hstep
        exact List.prefix_refl _
      next => cases hstep
  | stop =>
      cases hstep
      exact List.prefix_refl _

/-- What is handed over are the first slots that were taken. -/
theorem handed_eq (h : Inv s) (hbumped : Bumped batch s) :
    s.handed = (List.range s.handed.length).map (slotAt batch) := by
  have hprefix : s.handed <+: s.placed := ⟨s.producer.unsent, h⟩
  have htake := List.prefix_iff_eq_take.mp hprefix
  rw [hbumped.placed, ← List.map_take, List.take_range, Nat.min_eq_left hprefix.length_le] at htake
  exact htake

end

/-- **The slots handed to the ring are those of the arena in turn**, all along a run, just
when they are no more than one lap and, in batch mode, the first of the next; there, as
long as `push_batch` finds the ring full at the first entry of a batch only. -/
theorem inLaps_iff {k : ℕ} (batch : Bool) (batchSize : ℕ) (slots : Fin (2 ^ k) → Buffer)
    (actions : List Action)
    (hwhole : batch = true → EachStep (step batch batchSize) (init slots) actions Whole) :
    (Always (step batch batchSize) (init slots) actions fun s => InLaps s.handed) ↔
      (schedule (step batch batchSize) actions (init slots)).handed.length ≤ firstLap batch := by
  have heach : EachStep (step batch batchSize) (init slots) actions Whole := by
    cases batch with
    | false => exact whole_of_single slots actions
    | true => exact hwhole rfl
  have hinv := always_of_eachStep Inv (init_inv slots) (fun _ _ _ h => h.step) heach
  have hiff : ∀ pre, pre <+: actions →
      (InLaps (schedule (step batch batchSize) pre (init slots)).handed ↔
        (schedule (step batch batchSize) pre (init slots)).handed.length ≤ firstLap batch) := by
    intro pre hpre
    have hhanded := handed_eq (hinv pre hpre) (@bumped k batch batchSize slots pre)
    rw [hhanded, inLaps_range_iff, List.length_map, List.length_range]
  constructor
  · intro h
    exact (hiff actions (List.prefix_refl actions)).mp (h actions (List.prefix_refl actions))
  · rintro hlast pre ⟨post, rfl⟩
    refine (hiff pre (List.prefix_append pre post)).mpr (le_trans ?_ hlast)
    rw [schedule_append]
    exact schedule_rule (fun s : State k => _ ≤ s.handed.length) le_rfl
      (fun _ _ _ hle hstep => hle.trans (handed_step hstep).length_le) post

/-- A ring of two slots and batches of two; the second batch has to wait, as a whole. -/
def waiting : List Action :=
  [.producer, .producer, .producer, .producer, .producer, .consumer, .consumer, .producer,
    .producer, .producer, .producer, .producer, .producer, .producer, .consumer, .producer]

theorem inLaps_waiting :
    (Always (step true 2) (init fun _ => 0 : State 1) waiting fun s => InLaps s.handed) ∧
      (schedule (step true 2) waiting (init fun _ => 0 : State 1)).handed = [0, 1, 2] := by
  have hhanded : (schedule (step true 2) waiting (init fun _ => 0 : State 1)).handed = [0, 1, 2] := by
    decide
  refine ⟨(inLaps_iff true 2 _ waiting fun _ => ?_).mpr ?_, hhanded⟩
  · decide
  · rw [hhanded]
    exact Nat.succ_le_succ one_lt_arenaCap

/-! ## A run that is long enough -/

section
variable {batchSize : ℕ}

/-- The producer takes a slot and pushes it, and the consumer pops it. -/
def round : List Action := [.producer, .producer, .consumer, .consumer, .consumer]

/-- Both threads are at the head of their loops, and the ring is empty. -/
structure Idle (s : State 10) : Prop where
  stop : s.stop = false
  producer : s.producer = .loop
  consumer : s.consumer = .loop
  ring : s.ring.contents = []

theorem Idle.round {s : State 10} (h : Idle s) :
    Idle (schedule (step false batchSize) round s) ∧
      (schedule (step false batchSize) round s).placed.length = s.placed.length + 1 := by
  set idx := (bump false s.offset).1 with hidx
  obtain ⟨ring, hpush⟩ : ∃ ring, SPSCRing.push idx s.ring = some ring := by
    refine Option.ne_none_iff_exists'.mp fun hnone => ?_
    have hfull := SPSCRing.push_eq_none.mp hnone
    rw [h.ring] at hfull
    exact absurd hfull (by decide)
  have hcontents : ring.contents = [idx] := by
    rw [(SPSCRing.push_eq_some hpush).1, h.ring, List.nil_append]
  obtain ⟨⟨buf, ring'⟩, hpop⟩ : ∃ popped, SPSCRing.pop ring = some popped := by
    refine Option.ne_none_iff_exists'.mp fun hnone => ?_
    rw [SPSCRing.pop, Ring.maskedPop_eq, Ring.pop_eq_none, hcontents] at hnone
    cases hnone
  have hempty : ring'.contents = [] := by
    have hboth := SPSCRing.pop_eq_some hpop
    rw [hcontents] at hboth
    exact (List.cons.inj hboth).2.symm
  set taken := s.bumped false .push with htaken
  have hstop : taken.stop = false := h.stop
  have hconsumer : taken.consumer = .loop := h.consumer
  have htake : step false batchSize .producer s = some taken := by
    rw [step, producerStep, h.producer, h.stop]
    rfl
  have hpushed : step false batchSize .producer taken =
      some { taken with ring := ring, producer := .loop } := by
    have hproducer : taken.producer = .push idx := rfl
    have hring : taken.ring = s.ring := rfl
    rw [step, producerStep, hproducer]
    dsimp only
    rw [hring, hpush]
  have hlook : step false batchSize .consumer { taken with ring := ring, producer := .loop } =
      some { taken with ring := ring, producer := .loop, consumer := .pop } := by
    rw [step, consumerStep, hconsumer]
    show some { taken with ring := ring, producer := .loop, consumer := if taken.stop then _ else _ } = _
    rw [hstop]
    rfl
  have hpopped : step false batchSize .consumer
      { taken with ring := ring, producer := .loop, consumer := .pop } =
        some { taken with
          ring := ring', producer := .loop, popped := taken.popped ++ [buf], consumer := .count 1 } := by
    rw [step, consumerStep]
    dsimp only
    rw [hpop]
  rw [BumpRing.round, schedule_cons_of_some htake, schedule_cons_of_some hpushed,
    schedule_cons_of_some hlook, schedule_cons_of_some hpopped, schedule_cons_of_some rfl, schedule_nil]
  refine ⟨⟨hstop, rfl, rfl, hempty⟩, ?_⟩
  show (s.placed ++ [idx]).length = s.placed.length + 1
  rw [List.length_append, List.length_singleton]

theorem placed_rounds {s : State 10} (h : Idle s) : ∀ m,
    Idle (schedule (step false batchSize) (List.replicate m round).flatten s) ∧
      (schedule (step false batchSize) (List.replicate m round).flatten s).placed.length =
        s.placed.length + m := by
  intro m
  induction m with
  | zero => exact ⟨h, rfl⟩
  | succ m ih =>
      obtain ⟨hidle, hlength⟩ := ih
      obtain ⟨hidle', hlength'⟩ := @Idle.round batchSize _ hidle
      rw [List.replicate_succ', List.flatten_append, List.flatten_singleton, schedule_append]
      exact ⟨hidle', by rw [hlength', hlength, Nat.add_assoc]⟩

end

/-- One lap and a slot, one by one. -/
theorem not_inLaps : ¬ ∀ batch actions, Always (step batch 64)
    (init fun _ => 0 : State 10) actions fun s => InLaps s.handed := by
  intro h
  have hidle : Idle (init fun _ => 0) := ⟨rfl, rfl, rfl, Ring.contents_empty _⟩
  obtain ⟨hend, hlength⟩ := @placed_rounds 64 _ hidle (arenaCap + 1)
  set rounds := (List.replicate (arenaCap + 1) round).flatten with hrounds
  have hinv : Inv (schedule (step false 64) rounds (init fun _ => 0 : State 10)) :=
    always_of_eachStep Inv (init_inv _) (fun _ _ _ h => h.step) (whole_of_single _ _) rounds
      (List.prefix_refl _)
  have hhanded : (schedule (step false 64) rounds (init fun _ => 0 : State 10)).handed.length =
      arenaCap + 1 := by
    rw [Inv, hend.producer, Producer.unsent, List.append_nil] at hinv
    rw [State.handed, hinv, hlength, init, List.length_nil, Nat.zero_add]
  have hlaps : InLaps (schedule (step false 64) rounds (init fun _ => 0 : State 10)).handed :=
    h false rounds rounds (List.prefix_refl _)
  rw [handed_eq hinv (bumped _ _), inLaps_range_iff, hhanded] at hlaps
  exact Nat.not_succ_le_self arenaCap hlaps

end LearnCpp.Concurrency.BumpRing
