/-
# `LearnCpp.Reconciler.DirectIndexHeap` — slots with heap expiry

`ReconcilerDirectIndexHeap`: a record is pushed once for each window, when its
slot is activated.  The class refines `DirectIndex` under any calls.

Against `UnorderedHeap` it comes out differently, because the two tell a new
entry in different ways.  An entry of the latter whose events all had timestamp
0 still looks new (`first_ts == 0 && last_ts == 0`), and the next event moves
its window (`ReAnchors`).  That is the only difference: `agrees_with_unordered_iff`.
-/
import LearnCpp.Reconciler.UnorderedHeap
import LearnCpp.Reconciler.DirectIndex

namespace LearnCpp.Reconciler

open Lib

variable {P : Type} [BEq P]

/-- An entry of the map class as a slot. -/
def HeapEntry.toSlot {P : Type} (ent : HeapEntry P) : SlotEntry P :=
  { toFeeds := ent.toFeeds, active := true, alerted := ent.alerted, firstTs := ent.firstTs,
    expireAt := ent.expireAt }

theorem HeapEntry.deadline_toSlot {P : Type} (ent : HeapEntry P) :
    ent.deadline = ent.toSlot.deadline := rfl

/-- A fresh entry and a slot that is not active receive alike. -/
theorem HeapEntry.receive_toSlot_fresh (W : UInt64) (f : Feed) (exec : Execution P) :
    let r := ({} : HeapEntry P).receive W f exec
    ({} : SlotEntry P).receive W f exec = (r.1.toSlot, r.2) := by
  simp [receive, SlotEntry.receive, SlotEntry.activate, Entry.stamp, toSlot]

/-- So do a live entry and its slot, unless the event moves the window. -/
theorem HeapEntry.receive_toSlot {W : UInt64} {f : Feed} {exec : Execution P} {ent : HeapEntry P}
    (hanch : ent.Anchored W) (hkeep : ent.firstTs = 0 → ent.lastTs = 0 → exec.ts = 0) :
    let r := ent.receive W f exec
    ent.toSlot.receive W f exec = (r.1.toSlot, r.2) := by
  have hfirst : (ent.stamp exec.ts).firstTs = ent.firstTs := by
    by_cases hnew : ent.firstTs = 0 ∧ ent.lastTs = 0
    · rw [Entry.stamp, if_pos hnew, hkeep hnew.1 hnew.2, hnew.1]
    · rw [Entry.stamp, if_neg hnew]
  have hexp : ent.firstTs + W = ent.expireAt := hanch.symm
  have hfeeds : (ent.stamp exec.ts).toFeeds = ent.toFeeds := rfl
  have halerted : (ent.stamp exec.ts).alerted = ent.alerted := rfl
  simp [receive, SlotEntry.receive, SlotEntry.activate, toSlot, hfirst, hexp, hfeeds, halerted]

namespace DirectIndexHeap

structure State (P : Type) (pq : MinQueue Exp Exp.due) where
  entries : List (SlotEntry P)
  expiry : pq.Q := pq.empty
  alerts : UInt64 := 0
  lastTimer : UInt64 := 0

variable (pq : MinQueue Exp Exp.due) (W maxId : UInt64)

/-- `entries_(max_id + 1)` -/
def construct : State P pq := { entries := List.replicate (maxId + 1).toNat {} }

/-- The body of the pop loop: clear the slot of the id if it has this record's expiry time. -/
def evictRecord (r : Exp) (entries : Option (List (SlotEntry P))) : Option (List (SlotEntry P)) :=
  entries.bind (eraseSlot maxId (fun ent => decide (ent.expireAt = r.expireAt)) r.id)

def onTimer (now : UInt64) (s : State P pq) : Option (State P pq) := do
  let (expiry, entries) := pq.drain (Exp.isDue now) (evictRecord maxId) s.expiry (some s.entries)
  let entries ← entries
  some { s with lastTimer := now, expiry := expiry, entries := entries }

def onFeed (f : Feed) (exec : Execution P) (s : State P pq) : Option (State P pq) :=
  if late W exec.ts s.lastTimer then some s
  else if exec.id > maxId then some s
  else do
    let ent ← s.entries[exec.id.toNat]?
    let r := ent.receive W f exec
    some { s with
      entries := s.entries.set exec.id.toNat r.1
      expiry := if ent.active then s.expiry else pq.push ⟨exec.ts + W, exec.id⟩ s.expiry
      alerts := if r.2 then s.alerts + 1 else s.alerts }

/-- One call. -/
def step : Call P → State P pq → Option (State P pq)
  | .feed f exec => onFeed pq W maxId f exec
  | .timer now => onTimer pq maxId now

/-- The state after a sequence of calls on a freshly constructed object. -/
def after (calls : List (Call P)) : Option (State P pq) :=
  run (step pq W maxId) calls (construct pq maxId)

/-! ## Refinement of the windows -/

/-- The slots are the windows, and every window has its own record. -/
structure Refines (s : State P pq) (m : DirectIndex.State P) : Prop where
  slots : Slots maxId s.entries
  covers : Covers SlotEntry.deadline Exp.due Exp.id (pq.contents s.expiry) (active s.entries)
  byId : active s.entries = m.byId
  alerts : s.alerts = m.alerts
  lastTimer : s.lastTimer = m.lastTimer

variable {pq W maxId} {s : State P pq} {m : DirectIndex.State P}

omit [BEq P] in
/-- **The pop loop returns, and closes the windows that are over.** -/
theorem onTimer_refines (h : Refines pq maxId s m) (now : UInt64) :
    ∃ s', onTimer pq maxId now s = some s' ∧ Refines pq maxId s' (DirectIndex.onTimer now m) := by
  obtain ⟨popped, q', hrun, hexp, hcov, -⟩ :=
    drain_eq_expire SlotEntry.deadline pq (Exp.isDue_iff now) h.covers
  obtain ⟨entries', hfold, hslots, hview⟩ := foldl_bind_refines
    (Slots (P := P) maxId) active
    (fun r : Exp => evict (fun ent => decide (ent.deadline = r.due)) r.id) popped
    (fun r _ entries hentries => by
      have := hentries.eraseSlot (fun ent => decide (ent.expireAt = r.expireAt)) r.id
      simpa only [SlotEntry.deadline, Exp.due, UInt64.toNat_inj] using this)
    s.entries h.slots
  rw [hexp] at hview
  refine ⟨{ s with lastTimer := now, expiry := q', entries := entries' }, ?_,
    ⟨hslots, hview ▸ hcov, ?_, h.alerts, rfl⟩⟩
  · simp only [onTimer, evictRecord, hrun]
    rw [hfold]
    rfl
  · rw [hview, h.byId]
    rfl

/-- **An accepted event** opens or joins a window, and a window that is opened
gets its record. -/
theorem onFeed_refines (h : Refines pq maxId s m) {f : Feed} {exec : Execution P}
    (hlate : late W exec.ts s.lastTimer = false) (hid : exec.id ≤ maxId) :
    let r := ((m.byId exec.id).getD {}).receive W f exec
    ∃ s', onFeed pq W maxId f exec s = some s' ∧
      Refines pq maxId s' { m with
        byId := Function.update m.byId exec.id (some r.1)
        alerts := if r.2 then m.alerts + 1 else m.alerts } := by
  intro r
  have hget := h.slots.get hid
  rw [h.byId] at hget
  obtain ⟨hslots, hview⟩ := h.slots.set_active hid (SlotEntry.receive_active W f exec _ : r.1.active)
  refine ⟨{ s with
      entries := s.entries.set exec.id.toNat r.1
      expiry := if ((m.byId exec.id).getD {}).active then s.expiry
        else pq.push ⟨exec.ts + W, exec.id⟩ s.expiry
      alerts := if r.2 then s.alerts + 1 else s.alerts }, ?_,
    ⟨hslots, ?_, hview.trans (by rw [h.byId]), by rw [h.alerts], h.lastTimer⟩⟩
  · simp only [onFeed, hlate, Bool.false_eq_true, if_false, if_neg (UInt64.not_lt.mpr hid), hget,
      Option.bind_eq_bind, Option.bind_some]
    rfl
  · have hexp := SlotEntry.receive_expireAt W f exec ((m.byId exec.id).getD {})
    rw [hview]
    cases hent : m.byId exec.id with
    | none =>
        rw [hent] at hexp
        have hexp : _ = exec.ts + W := hexp
        refine h.covers.update SlotEntry.deadline ?_ ?_
        · intro rec hrec
          exact (pq.mem_push).mpr (Or.inr hrec)
        · exact ⟨_, (pq.mem_push).mpr (Or.inl rfl), congrArg UInt64.toNat hexp.symm, rfl⟩
    | some ent =>
        have hact := (Slots.active_eq_some.mp (h.byId ▸ hent)).2
        rw [hent, Option.getD_some, if_pos hact] at hexp
        obtain ⟨rec, hrec, hdue, hkey⟩ := h.covers _ _ (h.byId ▸ hent)
        rw [Option.getD_some, if_pos hact]
        exact h.covers.update SlotEntry.deadline (List.Subset.refl _)
          ⟨rec, hrec, hdue.trans (congrArg UInt64.toNat hexp.symm), hkey⟩

theorem step_refines (h : Refines pq maxId s m) : ∀ c : Call P,
    ∃ s', step pq W maxId c s = some s' ∧ Refines pq maxId s' (DirectIndex.step W maxId c m)
  | .timer now => onTimer_refines h now
  | .feed f exec => by
      refine DirectIndex.onFeed_refines h ?_ fun hlate hid =>
        onFeed_refines h (h.lastTimer ▸ hlate) hid
      rintro (hlate | hid)
      · simp only [step, onFeed, h.lastTimer, hlate, if_true]
      · simp only [step, onFeed, hid, if_true, ite_self]

variable (pq W) in
/-- **Every run of the heap class is a run of the windows.** -/
theorem after_refines (hmax : maxId.toNat < 2 ^ 64 - 1) (calls : List (Call P)) :
    ∃ s, after pq W maxId calls = some s ∧
      Refines pq maxId s (DirectIndex.after W maxId calls) := by
  obtain ⟨hslots, hnone⟩ := Slots.init (P := P) hmax
  refine run_rule (fun pre s => Refines pq maxId s (DirectIndex.after W maxId pre))
    ⟨hslots, ?_, hnone, rfl, rfl⟩ ?_ calls (List.prefix_refl calls)
  · intro id ent hent
    rw [construct, hnone] at hent
    cases hent
  · intro pre c s _ h
    rw [DirectIndex.after_concat]
    exact step_refines h c

/-! ## Against the map

Here the entry of an id opens its window at its first accepted event, and the
window stays where it is.  In `UnorderedHeap` it may move, once. -/

/-- The start of the window of an id, while it is live. -/
def windowStart (s : State P pq) (id : UInt64) : Option UInt64 :=
  (active s.entries id).map SlotEntry.firstTs

/-- The same, for the map class. -/
def mapWindowStart (m : UnorderedHeap.State P pq) (id : UInt64) : Option UInt64 :=
  (m.byId id).map fun ent => ent.firstTs

/-- A call leaves every window that stays open where it is, and anchors a window
that it opens at the timestamp of its event. -/
def AnchorsWindow (c : Call P) (before after : UInt64 → Option UInt64) : Prop :=
  ∀ id w, after id = some w → before id = some w ∨
    (before id = none ∧ ∃ f exec, c = .feed f exec ∧ exec.id = id ∧ w = exec.ts)

/-- An accepted event finds an entry that looks new although it is not, and has
another timestamp than the 0 that the entry was created with. -/
def ReAnchors (W : UInt64) (exec : Execution P) (m : UnorderedHeap.State P pq) : Prop :=
  late W exec.ts m.lastTimer = false ∧ exec.ts ≠ 0 ∧
    ∃ ent, m.byId exec.id = some ent ∧ ent.firstTs = 0 ∧ ent.lastTs = 0

/-- The windows, of the one and of the other, are the same. -/
structure Sim (m : DirectIndex.State P) (u : UnorderedHeap.State P pq) : Prop where
  byId : ∀ id, m.byId id = (u.byId id).map HeapEntry.toSlot
  alerts : m.alerts = u.alerts
  lastTimer : m.lastTimer = u.lastTimer

theorem step_sim {m : DirectIndex.State P} {u : UnorderedHeap.State P pq}
    (hu : UnorderedHeap.Inv pq W u) (hsim : Sim m u) {c : Call P}
    (hc : ∀ f exec, c = .feed f exec → exec.id ≤ maxId ∧ ¬ ReAnchors W exec u) :
    Sim (DirectIndex.step W maxId c m) (UnorderedHeap.step pq W c u) := by
  cases c with
  | timer now =>
      refine ⟨fun id => ?_, hsim.alerts, rfl⟩
      have hbyId : m.byId = fun id => (u.byId id).map HeapEntry.toSlot := funext hsim.byId
      rw [UnorderedHeap.step, (UnorderedHeap.onTimer_spec pq hu).1]
      simp only [DirectIndex.step, DirectIndex.onTimer, hbyId]
      exact (map_expire HeapEntry.deadline (fun _ ent _ => ent.deadline_toSlot) now.toNat id).symm
  | feed f exec =>
      obtain ⟨hid, hkeep⟩ := hc f exec rfl
      simp only [DirectIndex.step, DirectIndex.onFeed, UnorderedHeap.step, UnorderedHeap.onFeed]
      rw [hsim.lastTimer]
      cases hlate : late W exec.ts u.lastTimer with
      | true => simpa using hsim
      | false =>
          rw [if_neg (by simpa using UInt64.not_lt.mpr hid)]
          have hrec : ((m.byId exec.id).getD {}).receive W f exec =
              ((((u.byId exec.id).getD {}).receive W f exec).1.toSlot,
                (((u.byId exec.id).getD {}).receive W f exec).2) := by
            rw [hsim.byId]
            cases hent : u.byId exec.id with
            | none => exact HeapEntry.receive_toSlot_fresh W f exec
            | some ent =>
                refine HeapEntry.receive_toSlot (hu.anchored _ _ hent) fun hfirst hlast => ?_
                by_contra hts
                exact hkeep ⟨hlate, hts, ent, hent, hfirst, hlast⟩
          refine ⟨fun id => ?_, ?_, rfl⟩
          · by_cases hne : id = exec.id
            · subst hne; simp [hrec]
            · simpa [Function.update_of_ne hne] using hsim.byId id
          · simp only [hrec, hsim.alerts]
            rfl

theorem after_sim {calls : List (Call P)} (hids : ∀ id ∈ fedIds calls, id ≤ maxId)
    (hkeep : ∀ pre f exec, pre ++ [.feed f exec] <+: calls →
      ¬ ReAnchors W exec (UnorderedHeap.after pq W pre)) :
    ∀ pre, pre <+: calls → Sim (DirectIndex.after W maxId pre) (UnorderedHeap.after pq W pre) := by
  refine exec_rule (fun pre m => Sim m (UnorderedHeap.after pq W pre)) ⟨fun _ => rfl, rfl, rfl⟩ ?_
  intro pre c hp hsim
  rw [UnorderedHeap.after_concat]
  refine step_sim (UnorderedHeap.after_inv pq W pre) hsim ?_
  rintro f exec rfl
  exact ⟨hids _ (mem_fedIds.mpr ⟨f, exec, hp.subset (by simp), rfl⟩), hkeep pre f exec hp⟩

variable (W maxId) in
theorem step_anchors {m : DirectIndex.State P} (hm : DirectIndex.Inv m) (c : Call P) :
    AnchorsWindow c (fun id => (m.byId id).map SlotEntry.firstTs)
      (fun id => ((DirectIndex.step W maxId c m).byId id).map SlotEntry.firstTs) := by
  intro id w hw
  obtain ⟨ent, hent, rfl⟩ := Option.map_eq_some_iff.mp hw
  dsimp only
  cases c with
  | timer now =>
      left
      rw [((expire_eq_some _).mp hent).1]
      rfl
  | feed f exec =>
      simp only [DirectIndex.step, DirectIndex.onFeed] at hent
      split at hent
      · left; rw [hent]; rfl
      · dsimp only at hent
        rcases update_eq_some.mp hent with ⟨rfl, rfl⟩ | ⟨-, hkept⟩
        · rw [SlotEntry.receive_firstTs]
          cases hold : m.byId exec.id with
          | none => exact Or.inr ⟨rfl, f, exec, rfl, rfl, rfl⟩
          | some old =>
              left
              rw [Option.getD_some, if_pos (hm.active _ _ hold)]
              rfl
        · left
          rw [hkept]
          rfl

/-- **When the two agree.**  They return the same alerts after every call, and
anchor every window at the event that opened it, if and only if no accepted
event finds an entry whose events so far all had timestamp 0, with another
timestamp itself. -/
theorem agrees_with_unordered_iff (pq : MinQueue Exp Exp.due) {W maxId : UInt64}
    (hmax : maxId.toNat < 2 ^ 64 - 1) (calls : List (Call P)) (hids : ∀ id ∈ fedIds calls, id ≤ maxId) :
    (∀ pre c, pre ++ [c] <+: calls →
      ∃ s s', after pq W maxId pre = some s ∧ after pq W maxId (pre ++ [c]) = some s' ∧
        s'.alerts = (UnorderedHeap.after pq W (pre ++ [c])).alerts ∧
        AnchorsWindow c (windowStart s) (windowStart s') ∧
        AnchorsWindow c (mapWindowStart (UnorderedHeap.after pq W pre))
          (mapWindowStart (UnorderedHeap.after pq W (pre ++ [c])))) ↔
      ∀ pre f exec, pre ++ [.feed f exec] <+: calls →
        ¬ ReAnchors W exec (UnorderedHeap.after pq W pre) := by
  constructor
  · -- the event moves the start of a window that is open
    rintro hagree pre f exec hp ⟨hlate, hts, ent, hent, hfirst, hlast⟩
    obtain ⟨-, -, -, -, -, -, hanchors⟩ := hagree pre _ hp
    have hbefore : mapWindowStart (UnorderedHeap.after pq W pre) exec.id = some 0 := by
      rw [mapWindowStart, hent, ← hfirst]
      rfl
    have hafter : mapWindowStart (UnorderedHeap.after pq W (pre ++ [.feed f exec])) exec.id
        = some exec.ts := by
      simp [mapWindowStart, UnorderedHeap.step, UnorderedHeap.onFeed, hlate, hent, HeapEntry.receive,
        Entry.stamp, hfirst, hlast]
    rcases hanchors exec.id exec.ts hafter with h | ⟨h, -⟩
    · rw [hbefore, Option.some.injEq] at h
      exact hts h.symm
    · rw [hbefore] at h
      cases h
  · intro hkeep pre c hp
    have hsim := after_sim hids hkeep
    obtain ⟨s, hs, href⟩ := after_refines pq W hmax pre
    obtain ⟨s', hs', href'⟩ := after_refines pq W hmax (pre ++ [c])
    have hstart : ∀ {s : State P pq} {m : DirectIndex.State P}, Refines pq maxId s m →
        windowStart s = fun id => (m.byId id).map SlotEntry.firstTs := by
      intro s m h
      funext id
      rw [windowStart, h.byId]
    have hmapStart : ∀ {m : DirectIndex.State P} {u : UnorderedHeap.State P pq}, Sim m u →
        mapWindowStart u = fun id => (m.byId id).map SlotEntry.firstTs := by
      intro m u h
      funext id
      rw [mapWindowStart, h.byId, Option.map_map]
      rfl
    have hanchors := step_anchors W maxId (DirectIndex.after_inv W maxId pre) c
    rw [← DirectIndex.after_concat] at hanchors
    refine ⟨s, s', hs, hs', href'.alerts.trans (hsim _ hp).alerts, ?_, ?_⟩
    · rw [hstart href, hstart href']
      exact hanchors
    · rw [hmapStart (hsim _ (isPrefix_of_concat hp)), hmapStart (hsim _ hp)]
      exact hanchors

/-- An id is created at time 0 and gets only one event within its window. -/
def keptCalls : List (Call ℕ) :=
  [.feed .one { id := 1, price := 100, size := 1, ts := 0 },
   .feed .two { id := 2, price := 100, size := 1, ts := 3 },
   .timer 10,
   .feed .two { id := 1, price := 101, size := 1, ts := 12 }]

theorem agrees_with_unordered_kept :
    (∀ pre c, pre ++ [c] <+: keptCalls →
      ∃ s s', after (MinQueue.ofList Exp Exp.due) 10 4 pre = some s ∧
        after (MinQueue.ofList Exp Exp.due) 10 4 (pre ++ [c]) = some s' ∧
        s'.alerts = (UnorderedHeap.after (MinQueue.ofList Exp Exp.due) 10 (pre ++ [c])).alerts ∧
        AnchorsWindow c (windowStart s) (windowStart s') ∧
        AnchorsWindow c (mapWindowStart (UnorderedHeap.after (MinQueue.ofList Exp Exp.due) 10 pre))
          (mapWindowStart (UnorderedHeap.after (MinQueue.ofList Exp Exp.due) 10 (pre ++ [c])))) ↔
      ∀ pre f exec, pre ++ [.feed f exec] <+: keptCalls →
        ¬ ReAnchors 10 exec (UnorderedHeap.after (MinQueue.ofList Exp Exp.due) 10 pre) :=
  agrees_with_unordered_iff (MinQueue.ofList Exp Exp.due) (by decide) keptCalls (by decide)

/-- An entry created at time 0, and a disagreeing execution after its window. -/
def timeZeroCalls : List (Call ℕ) :=
  [.feed .one { id := 1, price := 100, size := 1, ts := 0 },
   .feed .two { id := 1, price := 101, size := 1, ts := 12 }]

theorem window_moved_from_time_zero :
    (∀ id ∈ fedIds timeZeroCalls, id ≤ (4 : UInt64)) ∧
      (after (MinQueue.ofList Exp Exp.due) 10 4 timeZeroCalls).map State.alerts = some 0 ∧
      (UnorderedHeap.after (MinQueue.ofList Exp Exp.due) 10 timeZeroCalls).alerts = 1 ∧
      mapWindowStart (UnorderedHeap.after (MinQueue.ofList Exp Exp.due) 10 timeZeroCalls) 1 = some 12 := by
  decide

end DirectIndexHeap

end LearnCpp.Reconciler
