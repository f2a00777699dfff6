/-
# `LearnCpp.Reconciler.Cadence` — when it does not matter how often the timer is called

An entry whose window is over is dropped by the next timer, not by the next
event.  Until then it takes events in, and raises no alert for them.  So how
often `onTimer` is called matters to an id that is fed again after its window,
and in no other way.

`windows` is the reference: windows that close by themselves, on time, with no
timers at all.  A run in which no event finds an entry whose window is over
(`NoStaleJoin`) raises the alerts of the reference, wherever its timers are.
-/
import LearnCpp.Reconciler.UnorderedScan

namespace LearnCpp.Reconciler

open Lib

variable {P : Type}

/-- The time that a call carries. -/
def Call.time : Call P → UInt64
  | .feed _ exec => exec.ts
  | .timer now => now

/-- Events come in order of time, and a timer between the events around it.
Timers with no event between them come in any order. -/
def Call.InOrder : Call P → Call P → Prop
  | .timer _, .timer _ => True
  | c, d => c.time ≤ d.time

instance : DecidableRel (Call.InOrder : Call P → Call P → Prop)
  | .timer _, .timer _ => inferInstanceAs (Decidable True)
  | .timer now, .feed _ exec => inferInstanceAs (Decidable (now ≤ exec.ts))
  | .feed _ exec, .timer now => inferInstanceAs (Decidable (exec.ts ≤ now))
  | .feed _ a, .feed _ b => inferInstanceAs (Decidable (a.ts ≤ b.ts))

theorem Call.InOrder.le {c : Call P} {f : Feed} {exec : Execution P}
    (h : c.InOrder (.feed f exec)) : c.time ≤ exec.ts := by
  cases c with
  | feed g x => exact h
  | timer now => exact h

/-- The calls feed these events, in this order, with timers between them. -/
structure Interleaves (W : UInt64) (events : List (Event P)) (calls : List (Call P)) : Prop where
  feeds : calls.filterMap Call.event = events
  inOrder : calls.Pairwise Call.InOrder
  noWrap : ∀ ev ∈ events, ev.exec.ts.toNat + W.toNat < 2 ^ 64

namespace UnorderedScan

variable [BEq P]

/-! ## The reference -/

/-- The windows that are open, and the alerts so far. -/
structure Windows (P : Type) where
  byId : UInt64 → Option (Entry P) := fun _ => none
  alerts : UInt64 := 0

/-- The windows that are over have closed when an event comes. -/
def Windows.onEvent (W : UInt64) (ev : Event P) (w : Windows P) : Windows P :=
  let byId := expire (Entry.deadline W) ev.exec.ts.toNat w.byId
  let r := ((byId ev.exec.id).getD {}).receive W ev.feed ev.exec
  { byId := Function.update byId ev.exec.id (some r.1)
    alerts := if r.2 then w.alerts + 1 else w.alerts }

def windows (W : UInt64) (events : List (Event P)) : Windows P :=
  exec (Windows.onEvent W) events {}

/-- An event does not find an entry of its id whose window is over. -/
def JoinsOpen (W : UInt64) (s : State P) : Call P → Prop
  | .feed _ exec => ∀ ent ∈ s.byId exec.id, ent.isExpired W exec.ts = false
  | .timer _ => True

instance (W : UInt64) (s : State P) : DecidablePred (JoinsOpen W s)
  | .feed _ exec =>
      inferInstanceAs (Decidable (∀ ent ∈ s.byId exec.id, ent.isExpired W exec.ts = false))
  | .timer _ => inferInstanceAs (Decidable True)

/-- No event of the run does. -/
def NoStaleJoin (W : UInt64) (calls : List (Call P)) : Prop :=
  ∀ pre c, pre ++ [c] <+: calls → JoinsOpen W (after W pre) c

instance (W : UInt64) (calls : List (Call P)) : Decidable (NoStaleJoin W calls) :=
  decidable_of_iff _ (forall_isPrefix_concat (p := fun pre c => JoinsOpen W (after W pre) c)).symm

/-! ## A run against the reference -/

/-- At every time from now on, the run and the reference have the same entries left. -/
structure Keeps (W : UInt64) (calls : List (Call P)) (s : State P) (w : Windows P) : Prop where
  left : ∀ t : ℕ, (∀ c ∈ calls, c.time.toNat ≤ t) →
    expire (Entry.deadline W) t s.byId = expire (Entry.deadline W) t w.byId
  alerts : s.alerts = w.alerts
  lastTimer : ∀ t : ℕ, (∀ c ∈ calls, c.time.toNat ≤ t) → s.lastTimer.toNat ≤ t

omit [BEq P] in
theorem onTimer_keeps {W : UInt64} {pre : List (Call P)} {s : State P} {w : Windows P}
    (h : Keeps W pre s w) (now : UInt64) : Keeps W (pre ++ [.timer now]) (onTimer W now s) w := by
  refine ⟨fun t ht => ?_, h.alerts, fun t ht => ht (.timer now) (by simp)⟩
  have hnow : now.toNat ≤ t := ht (.timer now) (by simp)
  rw [onTimer_byId, expire_expire _ hnow]
  exact h.left t fun c hc => ht c (List.mem_append_left _ hc)

theorem onFeed_keeps {W : UInt64} (hW : 1 ≤ W.toNat) {pre : List (Call P)} {s : State P}
    {w : Windows P} (h : Keeps W pre s w) {f : Feed} {exec : Execution P}
    (hwrap : exec.ts.toNat + W.toNat < 2 ^ 64) (hbefore : ∀ c ∈ pre, c.time ≤ exec.ts)
    (hjoin : ∀ ent, s.byId exec.id = some ent → ent.isExpired W exec.ts = false) :
    Keeps W (pre ++ [.feed f exec]) (onFeed W f exec s) (w.onEvent W ⟨f, exec⟩) := by
  have hbefore : ∀ c ∈ pre, c.time.toNat ≤ exec.ts.toNat :=
    fun c hc => UInt64.le_iff_toNat_le.mp (hbefore c hc)
  -- the latest timer was not after the event, so the event is not late
  have hlate : late W exec.ts s.lastTimer = false := by
    have := h.lastTimer _ hbefore
    rw [late_eq_false hwrap]
    omega
  -- what it finds is not over, so it is what the reference has left
  have hent : s.byId exec.id = expire (Entry.deadline W) exec.ts.toNat w.byId exec.id := by
    rw [← h.left _ hbefore]
    cases hs : s.byId exec.id with
    | none => simp [expire, hs]
    | some ent =>
        have hopen := hjoin ent hs
        rw [Entry.isExpired_eq_false] at hopen
        exact ((expire_eq_some _).mpr ⟨hs, hopen⟩).symm
  rw [onFeed, hlate, if_neg Bool.false_ne_true, Windows.onEvent]
  refine ⟨fun t ht => ?_, by simp only [hent, h.alerts], fun t ht => ?_⟩
  · have hts : exec.ts.toNat ≤ t := ht (.feed f exec) (by simp)
    simp only [hent]
    refine expire_update_congr _ ?_ _ _
    rw [expire_expire _ hts]
    exact h.left t fun c hc => ht c (List.mem_append_left _ hc)
  · exact h.lastTimer t fun c hc => ht c (List.mem_append_left _ hc)

/-- **A run without stale joins is the reference**, wherever its timers are. -/
theorem after_keeps {W : UInt64} (hW : 1 ≤ W.toNat) {events : List (Event P)} {calls : List (Call P)}
    (h : Interleaves W events calls) (hjoin : NoStaleJoin W calls) :
    ∀ pre, pre <+: calls → Keeps W pre (after W pre) (windows W (pre.filterMap Call.event)) := by
  intro pre
  induction pre using List.reverseRecOn with
  | nil => exact fun _ => ⟨fun _ _ => rfl, rfl, fun _ _ => Nat.zero_le _⟩
  | append_singleton pre c ih =>
      intro hp
      have ih := ih (isPrefix_of_concat hp)
      rw [after_concat, List.filterMap_append]
      cases c with
      | timer now =>
          rw [List.filterMap_cons_none rfl, List.filterMap_nil, List.append_nil]
          exact onTimer_keeps ih now
      | feed f exec =>
          change Keeps W _ _ (windows W (pre.filterMap Call.event ++ [⟨f, exec⟩]))
          rw [windows, exec_concat]
          refine onFeed_keeps hW ih ?_ ?_ (hjoin pre _ hp)
          · refine h.noWrap ⟨f, exec⟩ ?_
            rw [← h.feeds]
            exact List.mem_filterMap.mpr ⟨.feed f exec, hp.subset (by simp), rfl⟩
          · intro c hc
            have hpair := h.inOrder.sublist hp.sublist
            exact ((List.pairwise_append.mp hpair).2.2 c hc _ List.mem_cons_self).le

/-! ## Main result -/

/-- **Timer cadence is transparent where nothing is joined late.**  Two runs that
feed the same events, with timers between them in any two ways, end with the
same alerts, if in neither an event finds an entry whose window is over. -/
theorem alerts_eq_of_interleaves {W : UInt64} (hW : 1 ≤ W) {events : List (Event P)}
    {calls calls' : List (Call P)} (h : Interleaves W events calls) (h' : Interleaves W events calls')
    (hjoin : NoStaleJoin W calls) (hjoin' : NoStaleJoin W calls') :
    (after W calls).alerts = (after W calls').alerts := by
  have hW' : 1 ≤ W.toNat := UInt64.le_iff_toNat_le.mp hW
  have hkeep := (after_keeps hW' h hjoin calls (List.prefix_refl calls)).alerts
  have hkeep' := (after_keeps hW' h' hjoin' calls' (List.prefix_refl calls')).alerts
  rw [h.feeds] at hkeep
  rw [h'.feeds] at hkeep'
  exact hkeep.trans hkeep'.symm

/-- Events for which the runs below differ: the second comes after the window of the first. -/
def rejoinEvents : List (Event ℕ) :=
  [⟨.one, { id := 7, price := 100, size := 1, ts := 1 }⟩,
   ⟨.one, { id := 7, price := 100, size := 1, ts := 12 }⟩,
   ⟨.two, { id := 7, price := 101, size := 1, ts := 13 }⟩]

/-- The events alone, and with a timer at the end of the first window. -/
def bareCalls : List (Call ℕ) := rejoinEvents.map fun ev => .feed ev.feed ev.exec
def timedCalls : List (Call ℕ) := bareCalls.take 1 ++ .timer 11 :: bareCalls.drop 1

theorem cadence_matters_after_window :
    (bareCalls.filterMap Call.event = rejoinEvents ∧ bareCalls.Pairwise Call.InOrder) ∧
      (timedCalls.filterMap Call.event = rejoinEvents ∧ timedCalls.Pairwise Call.InOrder) ∧
      (∀ ev ∈ rejoinEvents, 1 ≤ ev.exec.ts ∧ ev.exec.ts.toNat + UInt64.toNat 10 < 2 ^ 64) ∧
      (after 10 bareCalls).alerts = 0 ∧ (after 10 timedCalls).alerts = 1 := by
  decide

/-- Two ids, each fed again only after a timer has closed its window. -/
def reopenCalls : List (Call ℕ) :=
  [.feed .one { id := 7, price := 100, size := 1, ts := 1 },
   .feed .two { id := 8, price := 100, size := 1, ts := 4 },
   .timer 11,
   .feed .one { id := 7, price := 100, size := 1, ts := 12 },
   .feed .two { id := 7, price := 101, size := 1, ts := 13 }]

/-- The same events with more timers, not all in order. -/
def reopenCallsSlow : List (Call ℕ) :=
  reopenCalls.take 1 ++ [.timer 3, .timer 2] ++ (reopenCalls.take 2).drop 1 ++
    [.timer 12] ++ reopenCalls.drop 3 ++ [.timer 40]

theorem alerts_eq_of_interleaves_reopen :
    (after 10 reopenCalls).alerts = (after 10 reopenCallsSlow).alerts :=
  alerts_eq_of_interleaves (by decide)
    (⟨rfl, by decide, by decide⟩ : Interleaves 10 (reopenCalls.filterMap Call.event) reopenCalls)
    ⟨by decide, by decide, by decide⟩ (by decide) (by decide)

end UnorderedScan

end LearnCpp.Reconciler
