/-
# `LearnCpp.Io.TimerWheel` — a wheel that forgets how often it has to turn

`topics/io/timer_wheel.cpp`: `schedule_after` files a callback in the slot that
its delay leads to, and `tick` goes on to the next slot and runs what is filed
there.  A callback that `tick` runs may schedule others before the next one runs,
so the calls of callbacks are steps of their own; `tick` is not called again
before it has returned.

Let a wheel of `n` slots have started `a` ticks when a callback is scheduled for
the `k`-th tick from there.  Its slot is `(a + k) % n`, and nothing says in which
turn of the wheel: it runs in the first one,

    due   =   a + ((k − 1) % n + 1)   ≤   a + n

which is the tick it was scheduled for just when `k ≤ n`.
-/
import LearnCpp.Lib.Schedule

namespace LearnCpp.Io.TimerWheel

open Lib

/-- A call of `schedule_after`: its number, the ticks started before it and the
delay.  The record stands for the callback. -/
structure Timer where
  ticket : ℕ
  calledAt : ℕ
  delay : ℕ
  deriving DecidableEq

/-- `toRun` is what the tick under way has still to run.  `ticks` counts the ticks
started, `scheduled` the calls of `schedule_after`, and `ran` has the callbacks
run so far, each with the tick that ran it. -/
structure State where
  slots : List (List Timer)
  tickInterval : ℕ
  currentSlot : ℕ := 0
  toRun : List Timer := []
  ticks : ℕ := 0
  scheduled : List Timer := []
  ran : List (Timer × ℕ) := []
  deriving DecidableEq

inductive Action where
  | scheduleAfter (delay : ℕ)
  /-- The start of `tick`, up to the loop over `to_run`. -/
  | tick
  /-- The next call of the loop over `to_run`. -/
  | run
  deriving DecidableEq

/-- `ticks` in `schedule_after`. -/
def ticksOf (delay tickInterval : ℕ) : ℕ :=
  if delay / tickInterval = 0 then 1 else delay / tickInterval

/-- `schedule_after`, which divides by the interval and by the number of slots. -/
def scheduleAfter (delay : ℕ) (s : State) : Option State :=
  if s.tickInterval = 0 ∨ s.slots = [] then none
  else
    let x : Timer := ⟨s.scheduled.length, s.ticks, delay⟩
    let slot := (s.currentSlot + ticksOf delay s.tickInterval) % s.slots.length
    some { s with slots := s.slots.modify slot (· ++ [x]), scheduled := s.scheduled ++ [x] }

/-- `tick`, up to its loop. -/
def tick (s : State) : Option State :=
  if s.slots = [] then none
  else
    let currentSlot := (s.currentSlot + 1) % s.slots.length
    some { s with
      slots := s.slots.set currentSlot [], toRun := s.slots[currentSlot]?.getD []
      currentSlot := currentSlot, ticks := s.ticks + 1 }

def next : Action → State → Option State
  | .scheduleAfter delay, s => scheduleAfter delay s
  | .tick, s => if s.toRun = [] then tick s else none
  | .run, s =>
      match s.toRun with
      | x :: toRun => some { s with toRun := toRun, ran := s.ran ++ [(x, s.ticks)] }
      | [] => none

/-- What the callers know after a step: their callbacks, each with the ticks they had
started before, and the ticks they have started. -/
def book : List Timer × ℕ → Action → List Timer × ℕ
  | (xs, ticks), .scheduleAfter delay => (xs ++ [⟨xs.length, ticks, delay⟩], ticks)
  | (xs, ticks), .tick => (xs, ticks + 1)
  | (xs, ticks), .run => (xs, ticks)

/-- The constructor. -/
def init (numSlots tickInterval : ℕ) : State where
  slots := List.replicate numSlots []
  tickInterval := tickInterval

/-- The state after the steps `as`. -/
def after (numSlots tickInterval : ℕ) (as : List Action) : State :=
  schedule next as (init numSlots tickInterval)

/-- The tick a callback is scheduled for, counted from the call. -/
def Timer.k (tickInterval : ℕ) (x : Timer) : ℕ := max 1 (x.delay / tickInterval)

/-- What `schedule_after` is for: the `k`-th tick after the call runs the callback,
and no other one does. -/
structure OnTime (x : Timer) (s : State) : Prop where
  noOther : ∀ t, (x, t) ∈ s.ran → t = x.calledAt + x.k s.tickInterval
  runs : x.calledAt + x.k s.tickInterval < s.ticks ∨
    (x.calledAt + x.k s.tickInterval = s.ticks ∧ s.toRun = []) →
      (x, x.calledAt + x.k s.tickInterval) ∈ s.ran

/-- The tick that the slot of a callback comes up in. -/
def Timer.due (n tickInterval : ℕ) (x : Timer) : ℕ := x.calledAt + ((x.k tickInterval - 1) % n + 1)

section
variable (n tickInterval : ℕ) (x : Timer)

theorem ticksOf_eq (delay : ℕ) : ticksOf delay tickInterval = max 1 (delay / tickInterval) := by
  rw [ticksOf]
  split
  next hzero => rw [hzero, Nat.max_eq_left (Nat.zero_le 1)]
  next hpos => rw [Nat.max_eq_right (Nat.pos_of_ne_zero hpos)]

theorem Timer.k_pos : 1 ≤ x.k tickInterval := le_max_left ..

theorem Timer.calledAt_lt_due : x.calledAt < x.due n tickInterval := by
  rw [Timer.due]
  omega

theorem Timer.due_mod : x.due n tickInterval % n = (x.calledAt + x.k tickInterval) % n := by
  have hk := x.k_pos tickInterval
  rw [Timer.due, ← Nat.add_assoc, Nat.add_right_comm, Nat.add_mod_mod]
  congr 1
  omega

variable {n}

theorem Timer.due_le (hn : 0 < n) : x.due n tickInterval ≤ x.calledAt + n := by
  have hlt : (x.k tickInterval - 1) % n < n := Nat.mod_lt _ hn
  rw [Timer.due]
  omega

/-- One turn of the wheel is right for the callbacks scheduled within one. -/
theorem Timer.due_eq_iff (hn : 0 < n) :
    x.due n tickInterval = x.calledAt + x.k tickInterval ↔ x.k tickInterval ≤ n := by
  have hk := x.k_pos tickInterval
  rw [Timer.due]
  constructor
  · intro heq
    have hlt : (x.k tickInterval - 1) % n < n := Nat.mod_lt _ hn
    omega
  · intro hle
    rw [Nat.mod_eq_of_lt (by omega)]
    omega

theorem eq_of_mod_eq {due tick : ℕ} (hmod : due % n = tick % n) (hle : tick ≤ due)
    (hlt : due < tick + n) : due = tick := by
  have hzero : (due - tick) % n = 0 := Nat.sub_mod_eq_zero_of_mod_eq hmod
  rw [Nat.mod_eq_of_lt (by omega)] at hzero
  omega

end

/-! ## The invariant -/

/-- What is in the slot `j`. -/
def State.slot (s : State) (j : ℕ) : List Timer := s.slots[j]?.getD []

/-- Every callback is in its slot until the tick that the slot comes up in, then in
`to_run`, and then it has run in that tick. -/
structure Inv (n tickInterval : ℕ) (s : State) : Prop where
  size : s.slots.length = n
  interval : s.tickInterval = tickInterval
  current : s.currentSlot = s.ticks % n
  filed : ∀ j, ∀ x ∈ s.slot j, x.due n tickInterval % n = j ∧ s.ticks < x.due n tickInterval ∧
    x.due n tickInterval ≤ s.ticks + n
  running : ∀ x ∈ s.toRun, x.due n tickInterval = s.ticks
  ran : ∀ x t, (x, t) ∈ s.ran → t = x.due n tickInterval
  kept : ∀ x ∈ s.scheduled, (∃ j, x ∈ s.slot j) ∨ x ∈ s.toRun ∨ ∃ t, (x, t) ∈ s.ran

section
variable {n tickInterval : ℕ} {s s' : State}

theorem slot_modify {x : Timer} {i j : ℕ} (hi : i < s.slots.length) :
    (s.slots.modify i (· ++ [x]))[j]?.getD [] = s.slot j ++ if i = j then [x] else [] := by
  rw [List.getElem?_modify, State.slot]
  split
  next heq =>
    subst heq
    rw [List.getElem?_eq_getElem hi]
    rfl
  next hne =>
    rw [List.append_nil, Option.map_eq_map, Option.map_id_fun']
    rfl

theorem slot_set {i j : ℕ} : (s.slots.set i [])[j]?.getD [] = if i = j then [] else s.slot j := by
  rw [List.getElem?_set, State.slot]
  split
  next heq => split <;> rfl
  next hne => rfl

theorem mem_slot_modify {x y : Timer} {i j : ℕ} (hi : i < s.slots.length) :
    x ∈ ((s.slots.modify i (· ++ [y]))[j]?.getD []) ↔ x ∈ s.slot j ∨ i = j ∧ x = y := by
  rw [slot_modify hi, List.mem_append]
  split <;> simp_all

theorem mem_slot_set {x : Timer} {i j : ℕ} :
    x ∈ ((s.slots.set i [])[j]?.getD []) ↔ x ∈ s.slot j ∧ i ≠ j := by
  rw [slot_set]
  split <;> simp_all

theorem init_inv : Inv n tickInterval (init n tickInterval) where
  size := List.length_replicate
  interval := rfl
  current := (Nat.zero_mod n).symm
  filed := fun j x hx => by
    simp [State.slot, init, List.getElem?_replicate] at hx
    split at hx <;> simp at hx
  running := fun _ hx => absurd hx List.not_mem_nil
  ran := fun _ _ hx => absurd hx List.not_mem_nil
  kept := fun _ hx => absurd hx List.not_mem_nil

theorem Inv.slot_eq (h : Inv n tickInterval s) (delay : ℕ) :
    (s.currentSlot + ticksOf delay s.tickInterval) % s.slots.length =
      (⟨s.scheduled.length, s.ticks, delay⟩ : Timer).due n tickInterval % n := by
  rw [h.current, h.size, ticksOf_eq, h.interval, Nat.mod_add_mod, Timer.due_mod, Timer.k]

theorem Inv.scheduleAfter (h : Inv n tickInterval s) {delay : ℕ}
    (hstep : scheduleAfter delay s = some s') : Inv n tickInterval s' := by
  rw [TimerWheel.scheduleAfter] at hstep
  split at hstep
  next hzero => cases hstep
  next hpos =>
  rw [not_or] at hpos
  obtain rfl := Option.some.inj hstep
  have hn : 0 < n := h.size ▸ List.length_pos_of_ne_nil hpos.2
  set x : Timer := ⟨s.scheduled.length, s.ticks, delay⟩ with hx
  have hslot := h.slot_eq delay
  have hlt : (s.currentSlot + ticksOf delay s.tickInterval) % s.slots.length < s.slots.length :=
    Nat.mod_lt _ (List.length_pos_of_ne_nil hpos.2)
  refine ⟨by rw [List.length_modify]; exact h.size, h.interval, h.current, ?_, h.running, h.ran, ?_⟩
  · intro j y hy
    rcases (mem_slot_modify hlt).mp hy with hy | ⟨rfl, rfl⟩
    · exact h.filed j y hy
    · exact ⟨hslot.symm, x.calledAt_lt_due n tickInterval, x.due_le tickInterval hn⟩
  · intro y hy
    rcases List.mem_append.mp hy with hy | hy
    · refine (h.kept y hy).imp_left ?_
      rintro ⟨j, hj⟩
      exact ⟨j, (mem_slot_modify hlt).mpr (Or.inl hj)⟩
    · obtain rfl := List.mem_singleton.mp hy
      exact Or.inl ⟨_, (mem_slot_modify hlt).mpr (Or.inr ⟨rfl, rfl⟩)⟩

/-- A callback is taken out of its slot in the tick that it is due in: the slot of a
tick comes up again only `n` ticks later. -/
theorem Inv.tick (h : Inv n tickInterval s) (hidle : s.toRun = [])
    (hstep : tick s = some s') : Inv n tickInterval s' := by
  rw [TimerWheel.tick] at hstep
  split at hstep
  next hzero => cases hstep
  next hpos =>
  obtain rfl := Option.some.inj hstep
  have hn : 0 < n := h.size ▸ List.length_pos_of_ne_nil hpos
  have hcurrent : (s.currentSlot + 1) % s.slots.length = (s.ticks + 1) % n := by
    rw [h.current, h.size, Nat.mod_add_mod]
  refine ⟨by rw [List.length_set]; exact h.size, h.interval, hcurrent, ?_, ?_, h.ran, ?_⟩
  · intro j x hx
    obtain ⟨hx, hj⟩ := mem_slot_set.mp hx
    obtain ⟨hmod, hlater, hsoon⟩ := h.filed j x hx
    have hne : x.due n tickInterval ≠ s.ticks + 1 := by
      intro heq
      rw [hcurrent, ← heq, hmod] at hj
      exact hj rfl
    refine ⟨hmod, ?_, ?_⟩
    · show s.ticks + 1 < x.due n tickInterval
      omega
    · show x.due n tickInterval ≤ s.ticks + 1 + n
      omega
  · intro x hx
    obtain ⟨hmod, hlater, hsoon⟩ := h.filed _ x hx
    rw [hcurrent] at hmod
    have hlt : x.due n tickInterval < s.ticks + 1 + n := by omega
    exact eq_of_mod_eq hmod hlater hlt
  · intro x hx
    rcases h.kept x hx with ⟨j, hj⟩ | hrunning | hran
    · rcases eq_or_ne j ((s.currentSlot + 1) % s.slots.length) with rfl | hne
      · exact Or.inr (Or.inl hj)
      · exact Or.inl ⟨j, mem_slot_set.mpr ⟨hj, hne.symm⟩⟩
    · rw [hidle] at hrunning
      exact absurd hrunning List.not_mem_nil
    · exact Or.inr (Or.inr hran)

theorem Inv.next (h : Inv n tickInterval s) {a : Action} (hstep : next a s = some s') :
    Inv n tickInterval s' := by
  cases a with
  | scheduleAfter delay => exact h.scheduleAfter hstep
  | tick =>
      rw [TimerWheel.next] at hstep
      split at hstep
      next hidle => exact h.tick hidle hstep
      next hbusy => cases hstep
  | run =>
      rw [TimerWheel.next] at hstep
      split at hstep
      next x toRun hrun =>
        obtain rfl := Option.some.inj hstep
        have hdue := h.running x (by rw [hrun]; exact List.mem_cons_self)
        refine ⟨h.size, h.interval, h.current, h.filed, ?_, ?_, ?_⟩
        · intro y hy
          exact h.running y (by rw [hrun]; exact List.mem_cons_of_mem x hy)
        · intro y t hy
          rcases List.mem_append.mp hy with hy | hy
          · exact h.ran y t hy
          · cases List.mem_singleton.mp hy
            exact hdue.symm
        · intro y hy
          rcases h.kept y hy with hfiled | hrunning | ⟨t, ht⟩
          · exact Or.inl hfiled
          · rw [hrun] at hrunning
            rcases List.mem_cons.mp hrunning with rfl | hrunning
            · exact Or.inr (Or.inr ⟨s.ticks, List.mem_append_right _ List.mem_cons_self⟩)
            · exact Or.inr (Or.inl hrunning)
          · exact Or.inr (Or.inr ⟨t, List.mem_append_left _ ht⟩)
      next => cases hstep

theorem after_inv (as : List Action) : Inv n tickInterval (after n tickInterval as) :=
  schedule_rule (Inv n tickInterval) init_inv (fun _ _ _ h => h.next) as

/-! ## The ticks come -/

theorem returns : ∀ (toRun : List Timer) (s : State), s.toRun = toRun →
    (schedule next (List.replicate toRun.length .run) s).ticks = s.ticks ∧
    (schedule next (List.replicate toRun.length .run) s).toRun = []
  | [], s, hrun => ⟨rfl, hrun⟩
  | x :: toRun, s, hrun => by
      have hnext : next .run s = some { s with toRun := toRun, ran := s.ran ++ [(x, s.ticks)] } := by
        rw [next, hrun]
      rw [List.length_cons, List.replicate_succ, schedule_cons_of_some hnext]
      exact returns toRun { s with toRun := toRun, ran := s.ran ++ [(x, s.ticks)] } rfl

theorem Inv.starts (h : Inv n tickInterval s) (hn : 0 < n) (hidle : s.toRun = []) :
    ∃ s', TimerWheel.next .tick s = some s' ∧ s'.ticks = s.ticks + 1 := by
  have hslots : s.slots ≠ [] := List.ne_nil_of_length_pos (h.size.symm ▸ hn)
  rw [TimerWheel.next, if_pos hidle, TimerWheel.tick, if_neg hslots]
  exact ⟨_, rfl, rfl⟩

theorem exists_ticks (hn : 0 < n) (h : Inv n tickInterval s) :
    ∀ m, ∃ as, (schedule next as s).ticks = s.ticks + m ∧ (schedule next as s).toRun = [] := by
  intro m
  induction m with
  | zero => exact ⟨_, returns s.toRun s rfl⟩
  | succ m ih =>
      obtain ⟨as, hticks, hidle⟩ := ih
      have has : Inv n tickInterval (schedule next as s) :=
        schedule_rule (Inv n tickInterval) h (fun _ _ _ h => h.next) as
      obtain ⟨s', htick, hcount⟩ := has.starts hn hidle
      obtain ⟨hbs, hdone⟩ := returns _ s' rfl
      refine ⟨as ++ .tick :: List.replicate s'.toRun.length .run, ?_⟩
      rw [schedule_append, schedule_cons_of_some htick]
      refine ⟨?_, hdone⟩
      rw [hbs, hcount, hticks]
      rfl

theorem next_book {a : Action} (hstep : next a s = some s') :
    (s'.scheduled, s'.ticks) = book (s.scheduled, s.ticks) a := by
  cases a with
  | scheduleAfter delay =>
      rw [next, scheduleAfter] at hstep
      split at hstep
      next => cases hstep
      next =>
        obtain rfl := Option.some.inj hstep
        rfl
  | tick =>
      rw [next, tick] at hstep
      split at hstep
      next =>
        split at hstep
        next => cases hstep
        next =>
          obtain rfl := Option.some.inj hstep
          rfl
      next => cases hstep
  | run =>
      rw [next] at hstep
      split at hstep
      next =>
        obtain rfl := Option.some.inj hstep
        rfl
      next => cases hstep

theorem next_scheduled {a : Action} (hstep : next a s = some s') :
    s'.scheduled = s.scheduled ++ match a with
      | .scheduleAfter delay => [⟨s.scheduled.length, s.ticks, delay⟩]
      | _ => [] := by
  have hbook := congrArg Prod.fst (next_book hstep)
  cases a with
  | scheduleAfter delay => exact hbook
  | tick | run => exact hbook.trans (List.append_nil _).symm

theorem scheduled_mono {x : Timer} {a : Action} (hx : x ∈ s.scheduled) (hstep : next a s = some s') :
    x ∈ s'.scheduled := by
  rw [next_scheduled hstep]
  exact List.mem_append_left _ hx

theorem Inv.ran_due (h : Inv n tickInterval s) {x : Timer} (hx : x ∈ s.scheduled)
    (hpast : x.due n tickInterval < s.ticks ∨ (x.due n tickInterval = s.ticks ∧ s.toRun = [])) :
    (x, x.due n tickInterval) ∈ s.ran := by
  rcases h.kept x hx with ⟨j, hj⟩ | hrunning | ⟨t, ht⟩
  · obtain ⟨_, hlater, _⟩ := h.filed j x hj
    omega
  · have hnow := h.running x hrunning
    rcases hpast with hlt | ⟨_, hidle⟩
    · omega
    · rw [hidle] at hrunning
      exact absurd hrunning List.not_mem_nil
  · rwa [h.ran x t ht] at ht

end

/-! ## When a callback runs on time -/

/-- **A callback runs in the tick it is scheduled for**, however the calls after it
go, just when that tick is within one turn of the wheel. -/
theorem onTime_iff {numSlots tickInterval : ℕ} (hslots : 1 ≤ numSlots) {as : List Action} {x : Timer}
    (hx : x ∈ (after numSlots tickInterval as).scheduled) :
    (∀ post, OnTime x (after numSlots tickInterval (as ++ post))) ↔
      max 1 (x.delay / tickInterval) ≤ numSlots := by
  have hkept : ∀ post, x ∈ (after numSlots tickInterval (as ++ post)).scheduled := by
    intro post
    rw [after, schedule_append]
    exact schedule_rule (fun s : State => x ∈ s.scheduled) hx (fun _ _ _ => scheduled_mono) post
  rw [← Timer.k, ← x.due_eq_iff tickInterval hslots]
  constructor
  · intro hall
    -- go on until the callback has run
    have hbefore : Inv numSlots tickInterval (after numSlots tickInterval as) := after_inv as
    obtain ⟨post, hticks, hidle⟩ := exists_ticks hslots hbefore (x.calledAt + numSlots)
    rw [after, ← schedule_append, ← after] at hticks hidle
    have hinv : Inv numSlots tickInterval (after numSlots tickInterval (as ++ post)) := after_inv _
    have hdue := x.due_le tickInterval hslots
    have hran := hinv.ran_due (hkept post) (by
      rcases Nat.lt_or_ge (x.due numSlots tickInterval) (after numSlots tickInterval (as ++ post)).ticks with
        hlt | hge
      · exact Or.inl hlt
      · exact Or.inr ⟨by omega, hidle⟩)
    have honTime := (hall post).noOther _ hran
    rwa [hinv.interval] at honTime
  · intro hdue post
    have hinv : Inv numSlots tickInterval (after numSlots tickInterval (as ++ post)) := after_inv _
    refine ⟨fun t ht => ?_, fun hpast => ?_⟩
    · rw [hinv.interval, ← hdue]
      exact hinv.ran x t ht
    · rw [hinv.interval, ← hdue] at hpast ⊢
      exact hinv.ran_due (hkept post) hpast

/-- Two slots, and a callback for the second tick. -/
theorem onTime_iff_two :
    (∀ post, OnTime ⟨0, 0, 20⟩ (after 2 10 ([.scheduleAfter 20] ++ post))) ↔ max 1 (20 / 10) ≤ 2 :=
  onTime_iff (by decide) (by decide)

/-- Two slots, and a callback for the third tick: the first one runs it. -/
theorem not_onTime :
    ¬ ∀ numSlots tickInterval as x, 1 ≤ numSlots → 0 < tickInterval →
      x ∈ (after numSlots tickInterval as).scheduled → OnTime x (after numSlots tickInterval as) := by
  intro h
  have hearly := (h 2 10 [.scheduleAfter 30, .tick, .run] ⟨0, 0, 30⟩ (by decide) (by decide)
    (by decide)).noOther 1 (by decide)
  exact absurd hearly (by decide)

end LearnCpp.Io.TimerWheel
