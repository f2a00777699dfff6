/-
# `LearnCpp.Reconciler.Bench` — the calls that `runBench` makes

`runBench` never looks at the reconciler it drives, so what it does is a list of
calls: for each event the timers that have come due, then the event, and at the
end some more timers to let everything expire.  `benchCalls` is that list.

The wheel classes are only right when they are driven like this.  What they
need is `Paced`: timers come one window apart, and every event comes before the
next timer is due.  `benchCalls_paced` proves it of `runBench`, for events in any
order of time.
-/
import Mathlib.Data.List.Basic
import LearnCpp.Lib.Run
import LearnCpp.Reconciler.Basic

namespace LearnCpp.Reconciler

variable {P : Type}

/-- Rounds of a loop over one 64-bit counter: a loop that has not left after
this many never does. -/
def rounds : ℕ := 2 ^ 64

/-- `while (limit >= next_timer) { r.onTimer(next_timer); next_timer += window_width; }` -/
def fireUntil (W limit : UInt64) : ℕ → UInt64 → Option (List (Call P) × UInt64)
  | 0, _ => none
  | fuel + 1, next =>
      if limit ≥ next then do
        let (timers, next') ← fireUntil W limit fuel (next + W)
        some (.timer next :: timers, next')
      else some ([], next)

/-- The loop over the events, from a clock `now` and the timer that is due next. -/
def feedEvents (W : UInt64) :
    List (Event P) → UInt64 → UInt64 → Option (List (Call P) × UInt64 × UInt64)
  | [], now, next => some ([], now, next)
  | ev :: events, now, next => do
      let now := if ev.exec.ts > now then ev.exec.ts else now
      let (timers, next) ← fireUntil W now rounds next
      let (calls, now, next) ← feedEvents W events now next
      some (timers ++ .feed ev.feed ev.exec :: calls, now, next)

/-- The calls of `runBench`, or `none` if it does not return. -/
def benchCalls (W : UInt64) (events : List (Event P)) : Option (List (Call P)) := do
  let (calls, now, next) ← feedEvents W events 0 W
  if W = 0 then none
  else
    let flushTo := ((now / W) + 3) * W
    let (timers, _) ← fireUntil W flushTo rounds next
    some (calls ++ timers)

/-- No event lies within four windows of the end of time. -/
def InTime (W : UInt64) (events : List (Event P)) : Prop :=
  ∀ ev ∈ events, ev.exec.ts.toNat + 4 * W.toNat < 2 ^ 64

instance (W : UInt64) (events : List (Event P)) : Decidable (InTime W events) :=
  inferInstanceAs (Decidable (∀ ev ∈ events, ev.exec.ts.toNat + 4 * W.toNat < 2 ^ 64))

/-! ## Pacing -/

/-- How a call relates to the timer value before it. -/
def PacedCall (W lt : UInt64) : Call P → Prop
  | .timer now => now.toNat = lt.toNat + W.toNat ∧ now.toNat + W.toNat < 2 ^ 64
  | .feed _ exec => exec.ts.toNat < lt.toNat + W.toNat ∧ exec.ts.toNat + W.toNat < 2 ^ 64

/-- Timers come one window apart, and every event before the next timer is due. -/
def Paced (W : UInt64) : UInt64 → List (Call P) → Prop
  | _, [] => True
  | lt, c :: calls => PacedCall W lt c ∧ Paced W (lastTimerFrom lt [c]) calls

theorem Paced.append {W : UInt64} : ∀ {as bs : List (Call P)} {lt : UInt64},
    Paced W lt as → Paced W (lastTimerFrom lt as) bs → Paced W lt (as ++ bs)
  | [], _, _, _, hb => hb
  | _ :: _, _, _, ha, hb => ⟨ha.1, ha.2.append hb⟩

theorem Paced.call {W : UInt64} {c : Call P} {pre calls : List (Call P)} {lt : UInt64}
    (h : Paced W lt calls) (hpre : pre ++ [c] <+: calls) : PacedCall W (lastTimerFrom lt pre) c := by
  obtain ⟨post, rfl⟩ := hpre
  induction pre generalizing lt with
  | nil => exact h.1
  | cons _ _ ih => exact ih h.2

theorem fireUntil_paced {W : UInt64} (limit : UInt64) (hW : 1 ≤ W.toNat)
    (hlimit : limit.toNat + W.toNat < 2 ^ 64) :
    ∀ (fuel : ℕ) (next lt : UInt64), 0 < fuel → limit.toNat + 2 ≤ next.toNat + fuel →
      next.toNat = lt.toNat + W.toNat →
      ∃ (timers : List (Call P)) (next' : UInt64), fireUntil W limit fuel next = some (timers, next') ∧
        Paced W lt timers ∧ next'.toNat = (lastTimerFrom lt timers).toNat + W.toNat ∧
        limit.toNat < next'.toNat ∧ (next' = next ∨ next'.toNat ≤ limit.toNat + W.toNat)
  | 0, _, _, h0, _, _ => absurd h0 (Nat.lt_irrefl 0)
  | fuel + 1, next, lt, _, hfuel, hnext => by
      unfold fireUntil
      by_cases hle : limit ≥ next
      · rw [if_pos hle]
        rw [ge_iff_le, UInt64.le_iff_toNat_le] at hle
        have hadd : (next + W).toNat = next.toNat + W.toNat := toNat_windowEnd (by omega)
        obtain ⟨timers, next', hrun, hpaced, hnext', hlt, hor⟩ :=
          fireUntil_paced limit hW hlimit fuel (next + W) next (by omega) (by omega) hadd
        refine ⟨.timer next :: timers, next', by rw [hrun]; rfl, ⟨⟨hnext, by omega⟩, hpaced⟩,
          hnext', hlt, Or.inr ?_⟩
        rcases hor with rfl | hor <;> omega
      · rw [if_neg hle]
        rw [ge_iff_le, UInt64.le_iff_toNat_le] at hle
        exact ⟨[], next, rfl, trivial, hnext, by omega, Or.inl rfl⟩

theorem feedEvents_paced {W : UInt64} (hW : 1 ≤ W.toNat) :
    ∀ (events : List (Event P)) (now next lt : UInt64),
      (∀ ev ∈ events, ev.exec.ts.toNat + 4 * W.toNat < 2 ^ 64) → now.toNat + 4 * W.toNat < 2 ^ 64 →
      next.toNat = lt.toNat + W.toNat → next.toNat ≤ now.toNat + W.toNat →
      ∃ calls now' next', feedEvents W events now next = some (calls, now', next') ∧
        Paced W lt calls ∧ next'.toNat = (lastTimerFrom lt calls).toNat + W.toNat ∧
        now'.toNat + 4 * W.toNat < 2 ^ 64 ∧ next'.toNat ≤ now'.toNat + W.toNat ∧
        now.toNat ≤ now'.toNat ∧ ∀ ev ∈ events, ev.exec.ts.toNat ≤ now'.toNat
  | [], now, next, _, _, hnow, hnext, hle =>
      ⟨[], now, next, rfl, trivial, hnext, hnow, hle, Nat.le_refl _,
        fun _ hev => absurd hev List.not_mem_nil⟩
  | ev :: events, now, next, lt, hts, hnow, hnext, hle => by
      -- the clock moves on to the event if it is later
      obtain ⟨clock, hclock, hev, hadv, hclockT⟩ : ∃ clock : UInt64,
          (if ev.exec.ts > now then ev.exec.ts else now) = clock ∧
          ev.exec.ts.toNat ≤ clock.toNat ∧ now.toNat ≤ clock.toNat ∧
          clock.toNat + 4 * W.toNat < 2 ^ 64 := by
        have := hts ev List.mem_cons_self
        by_cases hgt : ev.exec.ts > now
        · have hgt' := UInt64.lt_iff_toNat_lt.mp hgt
          exact ⟨_, if_pos hgt, Nat.le_refl _, by omega, this⟩
        · have hgt' : ¬ now.toNat < ev.exec.ts.toNat := fun h => hgt (UInt64.lt_iff_toNat_lt.mpr h)
          exact ⟨_, if_neg hgt, by omega, Nat.le_refl _, hnow⟩
      obtain ⟨timers, next₁, hfire, hpaced, hnext₁, hlt, hor⟩ :=
        fireUntil_paced (P := P) clock hW (by omega) rounds next lt (by decide)
          (by unfold rounds; omega) hnext
      have hle₁ : next₁.toNat ≤ clock.toNat + W.toNat := by
        rcases hor with rfl | hor <;> omega
      obtain ⟨calls, now', next', hrest, hpaced', hnext', hnow', hle', hmono, hall⟩ :=
        feedEvents_paced hW events clock next₁ (lastTimerFrom lt timers)
          (fun ev' hev' => hts ev' (List.mem_cons_of_mem _ hev')) hclockT hnext₁ hle₁
      refine ⟨timers ++ .feed ev.feed ev.exec :: calls, now', next', ?_, ?_, ?_, hnow', hle',
        hadv.trans hmono, List.forall_mem_cons.mpr ⟨hev.trans hmono, hall⟩⟩
      · simp only [feedEvents, hclock, hfire, hrest, Option.bind_eq_bind, Option.bind_some]
      · exact hpaced.append ⟨⟨by omega, by omega⟩, hpaced'⟩
      · simpa [lastTimerFrom] using hnext'

/-- The flush goes to between two and three windows past the clock. -/
theorem flushTo_spec {W now : UInt64} (hW : 1 ≤ W.toNat) (hnow : now.toNat + 4 * W.toNat < 2 ^ 64) :
    now.toNat + 2 * W.toNat < ((now / W + 3) * W).toNat ∧
      ((now / W + 3) * W).toNat ≤ now.toNat + 3 * W.toNat := by
  have hdiv := Nat.div_add_mod now.toNat W.toNat
  have hmod := Nat.mod_lt now.toNat hW
  have hq : now.toNat / W.toNat ≤ now.toNat := Nat.div_le_self _ _
  have hval : (now.toNat / W.toNat + 3) * W.toNat =
      W.toNat * (now.toNat / W.toNat) + 3 * W.toNat := by
    rw [Nat.add_mul, Nat.mul_comm (now.toNat / W.toNat)]
  have hflush : ((now / W + 3) * W).toNat = W.toNat * (now.toNat / W.toNat) + 3 * W.toNat := by
    rw [UInt64.toNat_mul, UInt64.toNat_add, UInt64.toNat_div,
      show UInt64.toNat 3 = 3 from rfl, Nat.mod_eq_of_lt (show _ + 3 < 2 ^ 64 by omega), hval,
      Nat.mod_eq_of_lt (by omega)]
  rw [hflush]
  constructor <;> omega

/-- **`runBench` returns, paces its calls, and ends past every window**, when the
clock can move four windows on from 0 and from each event. -/
theorem benchCalls_spec {W : UInt64} (hW : 1 ≤ W) {events : List (Event P)}
    (hstart : 4 * W.toNat < 2 ^ 64) (htime : InTime W events) :
    ∃ calls, benchCalls W events = some calls ∧ Paced W 0 calls ∧
      ∀ ev ∈ events, ev.exec.ts.toNat + W.toNat ≤ (lastTimer calls).toNat := by
  have hW' : 1 ≤ W.toNat := UInt64.le_iff_toNat_le.mp hW
  have h0 : (0 : UInt64).toNat = 0 := rfl
  obtain ⟨calls, now, next, hfeed, hpaced, hnext, hnow, hle, -, hall⟩ :=
    feedEvents_paced hW' events 0 W 0 htime (by omega) (by omega) (by omega)
  obtain ⟨hlow, hhigh⟩ := flushTo_spec hW' hnow
  obtain ⟨timers, next', hfire, hpaced', hnext', hpast, -⟩ :=
    fireUntil_paced (P := P) ((now / W + 3) * W) hW' (by omega) rounds next _ (by decide)
      (by unfold rounds; omega) hnext
  refine ⟨calls ++ timers, ?_, hpaced.append hpaced', fun ev hev => ?_⟩
  · have hW0 : W ≠ 0 := by rintro rfl; exact absurd hW (by decide)
    simp only [benchCalls, hfeed, Option.bind_eq_bind, Option.bind_some, if_neg hW0, hfire]
  · -- the timer that did not fire is past the flush, so the last that did is a window before it
    have hlast : lastTimer (calls ++ timers) = lastTimerFrom (lastTimerFrom 0 calls) timers := by
      simp only [lastTimer, lastTimerFrom, List.foldl_append]
    have hev' := hall ev hev
    rw [hlast]
    omega

theorem InTime.start {W : UInt64} {events : List (Event P)} (htime : InTime W events)
    (hev : events ≠ []) : 4 * W.toNat < 2 ^ 64 := by
  obtain ⟨ev, hmem⟩ := List.exists_mem_of_ne_nil _ hev
  have := htime ev hmem
  omega

/-- **`runBench` returns, and paces its calls**, when it has an event to start with. -/
theorem benchCalls_paced {W : UInt64} (hW : 1 ≤ W) {events : List (Event P)}
    (hev : events ≠ []) (htime : InTime W events) :
    ∃ calls, benchCalls W events = some calls ∧ Paced W 0 calls := by
  obtain ⟨calls, hcalls, hpaced, -⟩ := benchCalls_spec hW (htime.start hev) htime
  exact ⟨calls, hcalls, hpaced⟩

/-! ## What is fed -/

theorem fireUntil_timers {W limit : UInt64} : ∀ {fuel : ℕ} {next next' : UInt64}
    {timers : List (Call P)}, fireUntil W limit fuel next = some (timers, next') →
      ∀ c ∈ timers, ∃ now, c = .timer now ∧ now ≤ limit
  | fuel + 1, next, next', timers, h => by
      unfold fireUntil at h
      split at h
      · next hle =>
          obtain ⟨⟨rest, next₁⟩, hrest, h⟩ := Option.bind_eq_some_iff.mp h
          obtain ⟨rfl, -⟩ := Prod.mk.inj (Option.some.inj h)
          intro c hc
          rcases List.mem_cons.mp hc with rfl | hc
          · exact ⟨next, rfl, hle⟩
          · exact fireUntil_timers hrest c hc
      · obtain ⟨rfl, -⟩ := Prod.mk.inj (Option.some.inj h)
        exact fun c hc => absurd hc List.not_mem_nil

theorem fireUntil_event {W limit : UInt64} {fuel : ℕ} {next next' : UInt64} {timers : List (Call P)}
    (h : fireUntil W limit fuel next = some (timers, next')) :
    timers.filterMap Call.event = [] := by
  rw [List.filterMap_eq_nil_iff]
  intro c hc
  obtain ⟨now, rfl, -⟩ := fireUntil_timers h c hc
  rfl

theorem feedEvents_event {W : UInt64} : ∀ {events : List (Event P)} {now next : UInt64}
    {calls : List (Call P)} {now' next' : UInt64},
    feedEvents W events now next = some (calls, now', next') → calls.filterMap Call.event = events
  | [], now, next, calls, _, _, h => by
      obtain ⟨rfl, -⟩ := Prod.mk.inj (Option.some.inj h)
      rfl
  | ev :: events, now, next, calls, _, _, h => by
      obtain ⟨⟨timers, next₁⟩, hfire, h⟩ := Option.bind_eq_some_iff.mp h
      obtain ⟨⟨rest, now₁, next₂⟩, hrest, h⟩ := Option.bind_eq_some_iff.mp h
      obtain ⟨rfl, -⟩ := Prod.mk.inj (Option.some.inj h)
      rw [List.filterMap_append, fireUntil_event hfire, List.nil_append,
        List.filterMap_cons_some (show Call.event (.feed ev.feed ev.exec) = some ev from rfl),
        feedEvents_event hrest]

theorem benchCalls_event {W : UInt64} {events : List (Event P)} {calls : List (Call P)}
    (h : benchCalls W events = some calls) : calls.filterMap Call.event = events := by
  obtain ⟨⟨fed, now, next⟩, hfeed, h⟩ := Option.bind_eq_some_iff.mp h
  dsimp only at h
  split at h
  · exact absurd h (by simp)
  · obtain ⟨⟨timers, next'⟩, hfire, h⟩ := Option.bind_eq_some_iff.mp h
    obtain rfl := Option.some.inj h
    rw [List.filterMap_append, feedEvents_event hfeed, fireUntil_event hfire, List.append_nil]

theorem mem_of_benchCalls {W : UInt64} {events : List (Event P)} {calls : List (Call P)}
    (h : benchCalls W events = some calls) {f : Feed} {exec : Execution P}
    (hc : .feed f exec ∈ calls) : ⟨f, exec⟩ ∈ events := by
  rw [← benchCalls_event h]
  exact List.mem_filterMap.mpr ⟨_, hc, rfl⟩

/-! ## Without events

`runBench` on no events only fires timers.  They need not be one window apart,
since `flush_to` and `next_timer` may wrap for a large window, but none is the
last clock value: `runBench` does not return from a loop up to that value. -/

/-- The loop never leaves while the timer that is due next stays among values up to the limit. -/
theorem fireUntil_stuck {W limit : UInt64} {stays : UInt64 → Prop}
    (hle : ∀ next, stays next → next ≤ limit) (hnext : ∀ next, stays next → stays (next + W)) :
    ∀ (fuel : ℕ) (next : UInt64), stays next →
      (fireUntil W limit fuel next : Option (List (Call P) × UInt64)) = none
  | 0, _, _ => rfl
  | fuel + 1, next, h => by
      rw [fireUntil, if_pos (hle next h), fireUntil_stuck hle hnext fuel _ (hnext next h)]
      rfl

theorem fireUntil_of_max (W : UInt64) (fuel : ℕ) (next : UInt64) :
    (fireUntil W 0xffffffffffffffff fuel next : Option (List (Call P) × UInt64)) = none := by
  refine @fireUntil_stuck P W _ (fun _ => True) (fun next _ => ?_) (fun _ _ => trivial) fuel next trivial
  rw [UInt64.le_iff_toNat_le, show UInt64.toNat 0xffffffffffffffff = 2 ^ 64 - 1 from rfl]
  exact Nat.le_sub_one_of_lt next.toNat_lt

theorem benchCalls_nil {W : UInt64} {calls : List (Call P)}
    (h : benchCalls W ([] : List (Event P)) = some calls) :
    ∀ c ∈ calls, ∃ now, c = .timer now ∧ now.toNat < 2 ^ 64 - 1 := by
  unfold benchCalls at h
  simp only [feedEvents, Option.bind_eq_bind, Option.bind_some, List.nil_append] at h
  split at h
  · exact absurd h (by simp)
  · obtain ⟨⟨timers, next'⟩, hfire, h⟩ := Option.bind_eq_some_iff.mp h
    obtain rfl := Option.some.inj h
    intro c hc
    obtain ⟨now, rfl, hle⟩ := fireUntil_timers hfire c hc
    refine ⟨now, rfl, Nat.lt_of_le_of_ne (Nat.le_sub_one_of_lt now.toNat_lt) fun hnow => ?_⟩
    -- such a timer would need the last clock value as the limit
    rw [UInt64.le_iff_toNat_le] at hle
    have hlimit : (0 / W + 3) * W = 0xffffffffffffffff := by
      rw [← UInt64.toNat_inj, show UInt64.toNat 0xffffffffffffffff = 2 ^ 64 - 1 from rfl]
      have := ((0 / W + 3) * W).toNat_lt
      omega
    rw [hlimit, fireUntil_of_max] at hfire
    exact absurd hfire (by simp)

theorem benchCalls_nil_eq_none {W : UInt64}
    (hflush : (fireUntil W ((0 / W + 3) * W) rounds W : Option (List (Call P) × UInt64)) = none) :
    benchCalls W ([] : List (Event P)) = none := by
  unfold benchCalls
  simp only [feedEvents, Option.bind_eq_bind, Option.bind_some, hflush, Option.bind_none, ite_self]

end LearnCpp.Reconciler
