/-
# `LearnCpp.Io.TimerWheelOrder` — the wheel loses nothing and repeats nothing

The callbacks that one slot has ever been given have run, or are being run, or
wait in the slot, and in this order they are as they were scheduled:

    scheduled   =   run  ++  to_run  ++  slot          (those of one slot)

where `to_run` belongs to the slot of the tick under way.  A callback that
schedules into that very slot adds to the vector that `tick` has left there, and
not to the one it goes through.
-/
import LearnCpp.Io.TimerWheel
import Mathlib.Data.List.Nodup

namespace LearnCpp.Io.TimerWheel

open Lib

/-- The slot that `schedule_after` files a callback in. -/
def Timer.slot (n tickInterval : ℕ) (x : Timer) : ℕ := (x.calledAt + x.k tickInterval) % n

/-- Those of the callbacks `xs` that are filed in the slot `j`. -/
def filedIn (n tickInterval j : ℕ) (xs : List Timer) : List Timer :=
  xs.filter (·.slot n tickInterval = j)

/-- The callbacks run so far. -/
def State.done (s : State) : List Timer := s.ran.map Prod.fst

/-- The delays of the calls of `schedule_after`. -/
def delays (as : List Action) : List ℕ :=
  as.filterMap fun
    | .scheduleAfter delay => some delay
    | _ => none

/-- What the wheel owes its callers, who have taken the steps `as`: it takes every call of
`schedule_after` and, when it is idle, of `tick`, which returns; no callback is lost, none runs
twice, each has run by the end of the `n`-th tick after its call, and those of one slot run in
the order of the calls. -/
structure Dutiful (n tickInterval : ℕ) (as : List Action) (s : State) : Prop where
  taken : s.scheduled.map Timer.delay = delays as
  starts : s.toRun = [] → (next .tick s).isSome
  returns : (schedule next (List.replicate s.toRun.length .run) s).toRun = []
  booked : (s.scheduled, s.ticks) =
    (trace next (fun a _ => [a]) as (init n tickInterval)).foldl book ([], 0)
  distinct : s.scheduled.map Timer.ticket = List.range (delays as).length
  once : s.done.Nodup
  within : ∀ x ∈ s.scheduled, x.calledAt + n < s.ticks ∨ (x.calledAt + n = s.ticks ∧ s.toRun = []) →
    x ∈ s.done
  inOrder : ∀ j, filedIn n s.tickInterval j s.done <+: filedIn n s.tickInterval j s.scheduled

section
variable {n tickInterval : ℕ} {s s' : State}

@[simp] theorem filedIn_append (j : ℕ) (xs ys : List Timer) :
    filedIn n tickInterval j (xs ++ ys) = filedIn n tickInterval j xs ++ filedIn n tickInterval j ys :=
  List.filter_append ..

theorem filedIn_singleton (j : ℕ) (x : Timer) :
    filedIn n tickInterval j [x] = if x.slot n tickInterval = j then [x] else [] := by
  simp [filedIn, List.filter_singleton]

theorem Inv.running_slot (h : Inv n tickInterval s) {x : Timer} (hx : x ∈ s.toRun) :
    x.slot n tickInterval = s.currentSlot := by
  rw [Timer.slot, ← Timer.due_mod, h.running x hx, h.current]

/-! ## The invariant -/

/-- The callbacks of each slot, in the order of the calls. -/
structure Ordered (n tickInterval : ℕ) (s : State) : Prop where
  inv : Inv n tickInterval s
  lanes : ∀ j, filedIn n tickInterval j s.scheduled =
    filedIn n tickInterval j s.done ++ (if s.currentSlot = j then s.toRun else []) ++ s.slot j
  tickets : s.scheduled.map Timer.ticket = List.range s.scheduled.length

theorem init_ordered : Ordered n tickInterval (init n tickInterval) where
  inv := init_inv
  lanes := fun j => by
    have hslot : (init n tickInterval).slot j = [] := by
      rw [State.slot, init, List.getElem?_replicate]
      split <;> rfl
    rw [hslot, List.append_nil]
    show [] = [] ++ if 0 = j then [] else []
    rw [ite_self, List.append_nil]
  tickets := rfl

theorem Ordered.scheduleAfter (h : Ordered n tickInterval s) {delay : ℕ}
    (hstep : scheduleAfter delay s = some s') : Ordered n tickInterval s' := by
  have hinv := h.inv.scheduleAfter hstep
  rw [TimerWheel.scheduleAfter] at hstep
  split at hstep
  next hzero => cases hstep
  next hpos =>
  rw [not_or] at hpos
  obtain rfl := Option.some.inj hstep
  have hlt : (s.currentSlot + ticksOf delay s.tickInterval) % s.slots.length < s.slots.length :=
    Nat.mod_lt _ (List.length_pos_of_ne_nil hpos.2)
  refine ⟨hinv, fun j => ?_, ?_⟩
  · show filedIn n tickInterval j (s.scheduled ++ [_]) = filedIn n tickInterval j s.done ++ _ ++
      (s.slots.modify _ (· ++ [_]))[j]?.getD []
    rw [filedIn_append, h.lanes, slot_modify hlt, h.inv.slot_eq, Timer.due_mod,
      filedIn_singleton, List.append_assoc]
    rfl
  · show (s.scheduled ++ [_]).map Timer.ticket = List.range (s.scheduled ++ [_]).length
    rw [List.map_append, h.tickets, List.length_append, List.length_singleton, List.range_succ]
    rfl

theorem Ordered.tick (h : Ordered n tickInterval s) (hidle : s.toRun = [])
    (hstep : tick s = some s') : Ordered n tickInterval s' := by
  have hinv := h.inv.tick hidle hstep
  rw [TimerWheel.tick] at hstep
  split at hstep
  next hzero => cases hstep
  next hpos =>
  obtain rfl := Option.some.inj hstep
  refine ⟨hinv, fun j => ?_, h.tickets⟩
  show filedIn n tickInterval j s.scheduled = filedIn n tickInterval j s.done ++
    (if _ = j then s.slot _ else []) ++ (s.slots.set _ [])[j]?.getD []
  rw [h.lanes, hidle, ite_self, List.append_nil, slot_set]
  split
  next heq =>
    subst heq
    rw [List.append_nil]
  next hne => rw [List.append_nil]

theorem Ordered.run (h : Ordered n tickInterval s) {x : Timer} {toRun : List Timer}
    (hrun : s.toRun = x :: toRun)
    (hstep : next .run s = some s') : Ordered n tickInterval s' := by
  have hinv := h.inv.next hstep
  have hslot := h.inv.running_slot (x := x) (by rw [hrun]; exact List.mem_cons_self)
  rw [TimerWheel.next, hrun] at hstep
  obtain rfl := Option.some.inj hstep
  refine ⟨hinv, fun j => ?_, h.tickets⟩
  show filedIn n tickInterval j s.scheduled =
    filedIn n tickInterval j ((s.ran ++ [(x, s.ticks)]).map Prod.fst) ++ _ ++ s.slot j
  rw [h.lanes, hrun, List.map_append, filedIn_append]
  congr 1
  rw [List.append_assoc]
  congr 1
  show (if s.currentSlot = j then x :: toRun else []) = filedIn n tickInterval j [x] ++
    if s.currentSlot = j then toRun else []
  rw [← hslot, filedIn_singleton]
  split
  next => rfl
  next => rfl

theorem Ordered.next (h : Ordered n tickInterval s) {a : Action} (hstep : next a s = some s') :
    Ordered n tickInterval s' := by
  cases a with
  | scheduleAfter delay => exact h.scheduleAfter hstep
  | tick =>
      rw [TimerWheel.next] at hstep
      split at hstep
      next hidle => exact h.tick hidle hstep
      next hbusy => cases hstep
  | run =>
      cases hrun : s.toRun with
      | nil =>
          rw [TimerWheel.next, hrun] at hstep
          cases hstep
      | cons x toRun => exact h.run hrun hstep

theorem after_ordered (as : List Action) : Ordered n tickInterval (after n tickInterval as) :=
  schedule_rule (Ordered n tickInterval) init_ordered (fun _ _ _ h => h.next) as

/-! ## Nothing is lost on the way in -/

theorem scheduled_of_next {a : Action} (hstep : next a s = some s') :
    s'.scheduled.map Timer.delay = s.scheduled.map Timer.delay ++ delays [a] := by
  rw [next_scheduled hstep, List.map_append]
  cases a with
  | scheduleAfter delay => rfl
  | tick => rfl
  | run => rfl

theorem Inv.delays_of_none (h : Inv n tickInterval s) (hn : 1 ≤ n) (hinterval : 0 < tickInterval)
    {a : Action} (hnext : TimerWheel.next a s = none) : delays [a] = [] := by
  cases a with
  | scheduleAfter delay =>
      have hslots : s.slots ≠ [] := List.ne_nil_of_length_pos (h.size.symm ▸ hn)
      have hpos : s.tickInterval ≠ 0 := h.interval ▸ hinterval.ne'
      rw [TimerWheel.next, TimerWheel.scheduleAfter, if_neg (not_or.mpr ⟨hpos, hslots⟩)] at hnext
      cases hnext
  | tick => rfl
  | run => rfl

theorem after_delays (hn : 1 ≤ n) (hinterval : 0 < tickInterval) (as : List Action) :
    (after n tickInterval as).scheduled.map Timer.delay = delays as := by
  induction as using List.reverseRecOn with
  | nil => rfl
  | append_singleton as a ih =>
      have hdelays : delays (as ++ [a]) = delays as ++ delays [a] := List.filterMap_append
      rw [after, schedule_concat, ← after, hdelays, ← ih]
      cases hnext : next a (after n tickInterval as) with
      | none =>
          rw [attempt_of_none hnext, (after_inv as).delays_of_none hn hinterval hnext, List.append_nil]
      | some s' => rw [attempt_of_some hnext, scheduled_of_next hnext]

theorem after_book (as : List Action) :
    ((after n tickInterval as).scheduled, (after n tickInterval as).ticks) =
      (trace next (fun a _ => [a]) as (init n tickInterval)).foldl book ([], 0) :=
  replay_of_inv (fun _ => True) (fun s : State => (s.scheduled, s.ticks)) (fun a _ => [a]) book
    (fun _ _ _ _ hstep => ⟨trivial, next_book hstep⟩) as trivial

/-! ## Once and in order -/

theorem Ordered.isPrefix (h : Ordered n tickInterval s) (j : ℕ) :
    filedIn n tickInterval j s.done <+: filedIn n tickInterval j s.scheduled := by
  rw [h.lanes, List.append_assoc]
  exact List.prefix_append ..

theorem Ordered.once (h : Ordered n tickInterval s) : s.done.Nodup := by
  have hdistinct : s.scheduled.Nodup := by
    refine List.Nodup.of_map Timer.ticket ?_
    rw [h.tickets]
    exact List.nodup_range
  refine List.nodup_iff_count_le_one.mpr fun x => ?_
  have hlane : ∀ xs : List Timer, (filedIn n tickInterval (x.slot n tickInterval) xs).count x = xs.count x := by
    intro xs
    exact List.count_filter (by simp)
  calc s.done.count x
      = (filedIn n tickInterval (x.slot n tickInterval) s.done).count x := (hlane _).symm
    _ ≤ (filedIn n tickInterval (x.slot n tickInterval) s.scheduled).count x :=
        (h.isPrefix _).sublist.count_le x
    _ = s.scheduled.count x := hlane _
    _ ≤ 1 := List.nodup_iff_count_le_one.mp hdistinct x

end

/-- **The wheel loses and repeats nothing**, however the calls go. -/
theorem dutiful {numSlots tickInterval : ℕ} (hslots : 1 ≤ numSlots) (hinterval : 0 < tickInterval)
    (as : List Action) :
    Dutiful numSlots tickInterval as (after numSlots tickInterval as) := by
  have h : Ordered numSlots tickInterval (after numSlots tickInterval as) := after_ordered as
  have htaken := after_delays hslots hinterval as
  refine ⟨htaken, fun hidle => ?_, (returns _ _ rfl).2, after_book as, ?_, h.once,
    fun x hx hpast => ?_, fun j => ?_⟩
  · obtain ⟨s', htick, -⟩ := h.inv.starts hslots hidle
    rw [htick]
    rfl
  · rw [← htaken, List.length_map]
    exact h.tickets
  · have hdue := x.due_le tickInterval hslots
    have hran : (x, x.due numSlots tickInterval) ∈ (after numSlots tickInterval as).ran := by
      refine h.inv.ran_due hx ?_
      rcases hpast with hlt | ⟨heq, hidle⟩
      · exact Or.inl (hdue.trans_lt hlt)
      · rcases hdue.lt_or_eq with hlt | hlast
        · exact Or.inl (heq ▸ hlt)
        · exact Or.inr ⟨hlast.trans heq, hidle⟩
    exact List.mem_map_of_mem hran
  · rw [h.inv.interval]
    exact h.isPrefix j

/-- Two slots, and a callback that schedules another one into the slot being run. -/
def intoItsSlot : List Action :=
  [.scheduleAfter 10, .tick, .scheduleAfter 20, .run, .tick, .tick, .run]

theorem dutiful_two : Dutiful 2 10 intoItsSlot (after 2 10 intoItsSlot) ∧
    (after 2 10 intoItsSlot).ran = [(⟨0, 0, 10⟩, 1), (⟨1, 1, 20⟩, 3)] := by
  refine ⟨dutiful (by decide) (by decide) intoItsSlot, ?_⟩
  rfl

end LearnCpp.Io.TimerWheel
