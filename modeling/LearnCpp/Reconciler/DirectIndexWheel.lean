/-
# `LearnCpp.Reconciler.DirectIndexWheel` — slots with a timer wheel

`ReconcilerDirectIndexWheel`: an id is filed in the wheel once for each window,
when its slot is activated, and its slot is cleared only while its own bucket is
searched.  So no bucket holds a stale id (`Wheel.Filed`), and when a bucket is
cleared every id in it is due at that very tick.

Under paced calls the class refines `DirectIndex`, as the heap class does under
any calls; `runBench` paces its calls.
-/
import LearnCpp.Lib.Wheel
import LearnCpp.Reconciler.Bench
import LearnCpp.Reconciler.DirectIndexHeap

namespace LearnCpp.Reconciler

open Lib

variable {P : Type} [BEq P]

namespace DirectIndexWheel

structure State (P : Type) where
  entries : List (SlotEntry P)
  wheel : List (List UInt64)
  alerts : UInt64 := 0
  lastTimer : UInt64 := 0

variable (W maxId tickMod : UInt64)

/-- `entries_(max_id + 1), wheel_(tick_mod)` -/
def construct : State P :=
  { entries := List.replicate (maxId + 1).toNat {}, wheel := List.replicate tickMod.toNat [] }

/-- The body of the loop over a bucket: clear the slot of the id if it is due. -/
def expireId (t id : UInt64) (entries : List (SlotEntry P)) : Option (List (SlotEntry P)) :=
  eraseSlot maxId (fun ent => decide (ent.expireAt ≤ t)) id entries

def onTimer (now : UInt64) (s : State P) : Option (State P) := do
  let (wheel, entries) ←
    Wheel.ticks tickMod (expireId maxId) now rounds (s.lastTimer + 1) s.wheel s.entries
  some { s with wheel := wheel, entries := entries, lastTimer := now }

/-- `scheduleExpiry(exec.id, ent.expire_at)`, for a slot that is not active yet. -/
def file (exec : Execution P) (ent : SlotEntry P) (wheel : List (List UInt64)) :
    Option (List (List UInt64)) :=
  if ent.active then some wheel else Wheel.schedule tickMod (exec.ts + W) exec.id wheel

def onFeed (f : Feed) (exec : Execution P) (s : State P) : Option (State P) :=
  if late W exec.ts s.lastTimer then some s
  else if exec.id > maxId then some s
  else do
    let ent ← s.entries[exec.id.toNat]?
    let wheel ← file W tickMod exec ent s.wheel
    let r := ent.receive W f exec
    some { s with
      entries := s.entries.set exec.id.toNat r.1
      wheel := wheel
      alerts := if r.2 then s.alerts + 1 else s.alerts }

/-- One call. -/
def step : Call P → State P → Option (State P)
  | .feed f exec => onFeed W maxId tickMod f exec
  | .timer now => onTimer maxId tickMod now

/-- The state after a sequence of calls on a freshly constructed object. -/
def after (calls : List (Call P)) : Option (State P) :=
  run (step W maxId tickMod) calls (construct maxId tickMod)

/-- At no tick of `onTimer(now)` does the bucket that is searched, and then
cleared, hold an id whose `expire_at` is later than the tick. -/
def ClearsOnlyDue (now : UInt64) (s : State P) : Prop :=
  Wheel.EachTick tickMod (expireId maxId) now
    (fun t wheel entries => ∀ id ∈ Wheel.bucket wheel (Wheel.slot tickMod t),
      ∀ ent, entries[id.toNat]? = some ent → ent.expireAt ≤ t)
    rounds (s.lastTimer + 1) s.wheel s.entries

/-! ## Refinement of the windows -/

/-- The slots are the windows, and the wheel is ready for the tick after the
latest timer, with no stale ids in it. -/
structure Refines (s : State P) (m : DirectIndex.State P) : Prop where
  slots : Slots maxId s.entries
  ready : Wheel.Ready SlotEntry.deadline tickMod (s.lastTimer.toNat + 1) s.wheel (active s.entries)
  filed : Wheel.Filed SlotEntry.deadline tickMod s.wheel (active s.entries)
  byId : active s.entries = m.byId
  alerts : s.alerts = m.alerts
  lastTimer : s.lastTimer = m.lastTimer

variable {W maxId tickMod} {s : State P} {m : DirectIndex.State P}

omit [BEq P] in
theorem expireId_evicts :
    Wheel.EvictsDue (Slots (P := P) maxId) active SlotEntry.deadline (expireId maxId) := by
  intro t id entries hslots
  simp only [SlotEntry.deadline, ← UInt64.le_iff_toNat_le]
  exact hslots.eraseSlot (fun ent => decide (ent.expireAt ≤ t)) id

omit [BEq P] in
/-- **The loop over the ticks returns, closes the windows that are over, and
clears only what is due**, when the timer moves on. -/
theorem onTimer_refines (hmod : 0 < tickMod.toNat) (h : Refines maxId tickMod s m) {now : UInt64}
    (hnow : now.toNat < 2 ^ 64 - 1) (hmono : s.lastTimer.toNat ≤ now.toNat) :
    ClearsOnlyDue maxId tickMod now s ∧
      ∃ s', onTimer maxId tickMod now s = some s' ∧
        Refines maxId tickMod s' (DirectIndex.onTimer now m) := by
  have hsucc : (s.lastTimer + 1).toNat = s.lastTimer.toNat + 1 :=
    Wheel.toNat_succ hnow (UInt64.le_iff_toNat_le.mpr hmono)
  refine ⟨?_, ?_⟩
  · have hdue := Wheel.eachTick_due (t := s.lastTimer + 1) (Slots (P := P) maxId) active hmod
      expireId_evicts hnow h.slots (hsucc ▸ h.ready) h.filed rounds
    refine hdue.imp fun t wheel entries hq id hid ent hent => ?_
    obtain ⟨ent', hact, hdeadline⟩ := hq id hid
    rw [(Slots.active_eq_some.mp hact).1, Option.some.injEq] at hent
    exact UInt64.le_iff_toNat_le.mpr (Nat.le_of_eq (hent ▸ hdeadline))
  · obtain ⟨wheel', entries', hticks, hslots, hview, hready, hfiled⟩ :=
      Wheel.ticks_expire (t := s.lastTimer + 1) (Slots (P := P) maxId) active hmod
        expireId_evicts hnow (by omega) h.slots (hsucc ▸ h.ready)
    refine ⟨{ s with wheel := wheel', entries := entries', lastTimer := now }, ?_,
      ⟨hslots, hready, hfiled h.filed, ?_, h.alerts, rfl⟩⟩
    · simp only [onTimer, rounds, hticks, Option.bind_eq_bind, Option.bind_some]
    · rw [hview, h.byId]
      rfl

/-- **An accepted event within a window of the timer** opens or joins a window,
and the id of a window that is opened is filed. -/
theorem onFeed_refines (hmod : 2 * W.toNat ≤ tickMod.toNat) (h : Refines maxId tickMod s m) {f : Feed}
    {exec : Execution P} (hlate : late W exec.ts s.lastTimer = false) (hid : exec.id ≤ maxId)
    (hpaced : PacedCall W s.lastTimer (.feed f exec)) :
    let r := ((m.byId exec.id).getD {}).receive W f exec
    ∃ s', onFeed W maxId tickMod f exec s = some s' ∧
      Refines maxId tickMod s' { m with
        byId := Function.update m.byId exec.id (some r.1)
        alerts := if r.2 then m.alerts + 1 else m.alerts } := by
  intro r
  obtain ⟨hnear, hwrap⟩ := hpaced
  have hend : (exec.ts + W).toNat = exec.ts.toNat + W.toNat := toNat_windowEnd hwrap
  have hlate' : s.lastTimer.toNat < (exec.ts + W).toNat := by
    rw [hend]
    exact (late_eq_false hwrap).mp hlate
  have hget := h.slots.get hid
  rw [h.byId] at hget
  obtain ⟨hslots, hview⟩ := h.slots.set_active hid (SlotEntry.receive_active W f exec _ : r.1.active)
  have hexp := SlotEntry.receive_expireAt W f exec ((m.byId exec.id).getD {})
  -- filed anew, or filed already under the same deadline
  obtain ⟨wheel', hwheel, hready, hfiled⟩ : ∃ wheel',
      file W tickMod exec ((m.byId exec.id).getD {}) s.wheel = some wheel' ∧
      Wheel.Ready SlotEntry.deadline tickMod (s.lastTimer.toNat + 1) wheel'
        (Function.update (active s.entries) exec.id (some r.1)) ∧
      Wheel.Filed SlotEntry.deadline tickMod wheel'
        (Function.update (active s.entries) exec.id (some r.1)) := by
    have hactive := congrFun h.byId exec.id
    cases hent : m.byId exec.id with
    | none =>
        rw [hent] at hexp hactive
        have hdeadline : (exec.ts + W).toNat = r.1.deadline := by
          simp only [r, hent]
          exact congrArg UInt64.toNat hexp.symm
        obtain ⟨wheel', hsched, hbucket, hready⟩ := h.ready.schedule (k := exec.id) (e := r.1)
          (by omega) (exec.ts + W) hdeadline (by omega)
        exact ⟨wheel', hsched, hready, h.filed.schedule hactive hdeadline hbucket⟩
    | some ent =>
        rw [hent] at hexp hactive
        have hact := (Slots.active_eq_some.mp hactive).2
        rw [Option.getD_some, if_pos hact] at hexp
        have hdeadline : r.1.deadline = ent.deadline := by
          simp only [r, hent]
          exact congrArg UInt64.toNat hexp
        exact ⟨s.wheel, if_pos hact, h.ready.update hactive hdeadline,
          h.filed.update hactive hdeadline⟩
  refine ⟨{ s with
      entries := s.entries.set exec.id.toNat r.1
      wheel := wheel'
      alerts := if r.2 then s.alerts + 1 else s.alerts }, ?_,
    ⟨hslots, hview ▸ hready, hview ▸ hfiled, hview.trans (by rw [h.byId]), by rw [h.alerts],
      h.lastTimer⟩⟩
  simp only [onFeed, hlate, Bool.false_eq_true, if_false, if_neg (UInt64.not_lt.mpr hid), hget,
    Option.bind_eq_bind, Option.bind_some, hwheel]
  rfl

theorem step_refines (hW : 1 ≤ W.toNat) (hmod : 2 * W.toNat ≤ tickMod.toNat)
    (h : Refines maxId tickMod s m) {c : Call P} (hpaced : PacedCall W s.lastTimer c) :
    ∃ s', step W maxId tickMod c s = some s' ∧
      Refines maxId tickMod s' (DirectIndex.step W maxId c m) := by
  cases c with
  | timer now =>
      obtain ⟨hnext, hwrap⟩ := hpaced
      have hmod' : 0 < tickMod.toNat := by omega
      exact (onTimer_refines hmod' h (by omega) (by omega)).2
  | feed f exec =>
      refine DirectIndex.onFeed_refines h ?_ fun hlate hid =>
        onFeed_refines hmod h (h.lastTimer ▸ hlate) hid hpaced
      rintro (hlate | hid)
      · simp only [step, onFeed, h.lastTimer, hlate, if_true]
      · simp only [step, onFeed, hid, if_true, ite_self]

theorem construct_refines (W : UInt64) (hmax : maxId.toNat < 2 ^ 64 - 1) :
    Refines maxId tickMod (construct maxId tickMod : State P) (DirectIndex.after W maxId []) := by
  obtain ⟨hslots, hnone⟩ := Slots.init (P := P) hmax
  refine ⟨hslots, ⟨List.length_replicate, ?_, ?_⟩, ?_, hnone, rfl, rfl⟩
  · intro id ent hent
    rw [construct, hnone] at hent
    cases hent
  · intro id ent hent
    rw [construct, hnone] at hent
    cases hent
  · intro b id hid
    rw [construct, Wheel.bucket_replicate] at hid
    cases hid

/-- **Every paced run of the wheel class is a run of the windows.** -/
theorem after_refines (hW : 1 ≤ W.toNat) (hmod : 2 * W.toNat ≤ tickMod.toNat)
    (hmax : maxId.toNat < 2 ^ 64 - 1) {calls : List (Call P)} (hpaced : Paced W 0 calls) :
    ∀ pre, pre <+: calls → ∃ s, after W maxId tickMod pre = some s ∧
      Refines maxId tickMod s (DirectIndex.after W maxId pre) := by
  refine run_rule (fun pre s => Refines maxId tickMod s (DirectIndex.after W maxId pre))
    (construct_refines W hmax) ?_
  intro pre c s hp h
  rw [DirectIndex.after_concat]
  refine step_refines hW hmod h ?_
  rw [h.lastTimer, DirectIndex.after_lastTimer]
  exact hpaced.call hp

variable (W) in
theorem after_timers (hmod : 0 < tickMod.toNat) (hmax : maxId.toNat < 2 ^ 64 - 1)
    {calls : List (Call P)} (hcalls : ∀ c ∈ calls, ∃ now, c = .timer now ∧ now.toNat < 2 ^ 64 - 1) :
    ∀ pre, pre <+: calls → ∃ s, after W maxId tickMod pre = some s ∧
      s.wheel = List.replicate tickMod.toNat [] ∧ Slots maxId s.entries ∧
      (active s.entries = fun _ => none) ∧ s.alerts = 0 := by
  obtain ⟨hslots, hnone⟩ := Slots.init (P := P) hmax
  refine run_rule (fun _ (s : State P) => s.wheel = List.replicate tickMod.toNat [] ∧
    Slots maxId s.entries ∧ (active s.entries = fun _ => none) ∧ s.alerts = 0)
    ⟨rfl, hslots, hnone, rfl⟩ ?_
  rintro pre c s hp ⟨hwheel, hslots, hnone, halerts⟩
  obtain ⟨now, rfl, hnow⟩ := hcalls c (hp.subset (by simp))
  refine ⟨{ s with lastTimer := now }, ?_, hwheel, hslots, hnone, halerts⟩
  have hticks := Wheel.ticks_empty tickMod (expireId maxId) hmod hnow (s.lastTimer + 1) s.entries
  rw [← hwheel] at hticks
  simp only [step, onTimer, rounds, hticks, Option.bind_eq_bind, Option.bind_some]

/-! ## Main result -/

/-- **Driven by `runBench`, the wheel and the heap are the same.**  With at least
two windows to a turn of the wheel, the two classes hold the same slots and have
raised the same alerts after every event and every timer; no active slot
outlives its expiry time; and no bucket is cleared that holds an id which
expires after the tick. -/
theorem bench_agrees_with_heap (pq : MinQueue Exp Exp.due) {W maxId tickMod : UInt64} (hW : 1 ≤ W)
    (hmax : maxId.toNat < 2 ^ 64 - 1) (hmod : 2 * W.toNat ≤ tickMod.toNat)
    (events : List (Event P)) (htime : InTime W events) :
    (events ≠ [] → (benchCalls W events).isSome) ∧
      ∀ calls, benchCalls W events = some calls → ∀ pre, pre <+: calls →
        ∃ s h, after W maxId tickMod pre = some s ∧ DirectIndexHeap.after pq W maxId pre = some h ∧
          s.entries = h.entries ∧ s.alerts = h.alerts ∧
          (∀ ent ∈ s.entries, ent.active = true → lastTimer pre < ent.expireAt) ∧
          ∀ now, pre ++ [.timer now] <+: calls → ClearsOnlyDue maxId tickMod now s := by
  have hW' : 1 ≤ W.toNat := UInt64.le_iff_toNat_le.mp hW
  have hmod' : 0 < tickMod.toNat := by omega
  refine ⟨fun hne => ?_, fun calls hcalls pre hpre => ?_⟩
  · obtain ⟨calls, hcalls, -⟩ := benchCalls_paced hW hne htime
    exact hcalls ▸ rfl
  · obtain ⟨h, hh, hheap⟩ := DirectIndexHeap.after_refines pq W hmax pre
    -- what is active is a window, so it is not over at the latest timer
    have hlater : ∀ ent ∈ h.entries, ent.active = true → lastTimer pre < ent.expireAt := by
      intro ent hent hact
      obtain ⟨id, hid⟩ := hheap.slots.exists_active hent hact
      rw [← DirectIndex.after_lastTimer W maxId pre]
      exact (DirectIndex.after_inv W maxId pre).later id ent (hheap.byId ▸ hid)
    rcases eq_or_ne events [] with rfl | hne
    · have htimers := benchCalls_nil hcalls
      obtain ⟨s, hs, hwheel, hslots, hnone, halerts⟩ := after_timers W hmod' hmax htimers pre hpre
      obtain ⟨hbyId, halerts'⟩ := DirectIndex.after_timers W maxId
        fun c hc => (htimers c (hpre.subset hc)).imp fun _ h => h.1
      have hentries : s.entries = h.entries :=
        hslots.ext hheap.slots (hnone.trans (hbyId.symm.trans hheap.byId.symm))
      refine ⟨s, h, hs, hh, hentries, halerts.trans (halerts'.symm.trans hheap.alerts.symm),
        hentries ▸ hlater, fun now hnow => ?_⟩
      obtain ⟨_, ⟨⟩, hlt⟩ := htimers (.timer now) (hnow.subset (by simp))
      have hempty := Wheel.eachTick_empty (expireId maxId) hmod' hlt rounds (s.lastTimer + 1) s.entries
      rw [← hwheel] at hempty
      refine hempty.imp fun t wheel entries hbucket id hid => ?_
      rw [hbucket] at hid
      cases hid
    · obtain ⟨calls', hcalls', hpaced⟩ := benchCalls_paced hW hne htime
      obtain rfl := Option.some.inj (hcalls'.symm.trans hcalls)
      obtain ⟨s, hs, hwheel⟩ := after_refines hW' hmod hmax hpaced pre hpre
      have hentries : s.entries = h.entries :=
        hwheel.slots.ext hheap.slots (hwheel.byId.trans hheap.byId.symm)
      refine ⟨s, h, hs, hh, hentries, hwheel.alerts.trans hheap.alerts.symm, hentries ▸ hlater, ?_⟩
      intro now hnow
      obtain ⟨hnext, hwrap⟩ := hpaced.call hnow
      rw [← lastTimer, ← DirectIndex.after_lastTimer W maxId pre,
        ← hwheel.lastTimer] at hnext
      exact (onTimer_refines hmod' hwheel (by omega) (by omega)).1

/-- An id whose window ends and opens again, and an event out of range. -/
def reopenEvents : List (Event ℕ) :=
  [⟨.one, { id := 2, price := 100, size := 1, ts := 17 }⟩,
   ⟨.two, { id := 2, price := 101, size := 1, ts := 12 }⟩,
   ⟨.one, { id := 7, price := 100, size := 1, ts := 0 }⟩,
   ⟨.two, { id := 2, price := 101, size := 1, ts := 45 }⟩]

theorem bench_agrees_with_heap_reopen :
    (reopenEvents ≠ [] → (benchCalls 10 reopenEvents).isSome) ∧
      ∀ calls, benchCalls 10 reopenEvents = some calls → ∀ pre, pre <+: calls →
        ∃ s h, after 10 4 20 pre = some s ∧
          DirectIndexHeap.after (MinQueue.ofList Exp Exp.due) 10 4 pre = some h ∧
          s.entries = h.entries ∧ s.alerts = h.alerts ∧
          (∀ ent ∈ s.entries, ent.active = true → lastTimer pre < ent.expireAt) ∧
          ∀ now, pre ++ [.timer now] <+: calls → ClearsOnlyDue 4 20 now s :=
  bench_agrees_with_heap (MinQueue.ofList Exp Exp.due) (by decide) (by decide) (by decide)
    reopenEvents (by decide)

end DirectIndexWheel

end LearnCpp.Reconciler
