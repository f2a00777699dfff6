/-
# `LearnCpp.Reconciler.DirectIndex` — a slot for every id, and what the slots are for

`ReconcilerDirectIndexHeap` and `ReconcilerDirectIndexWheel` keep one slot for
each id up to `max_id`.  A slot is occupied while it is `active`; the first
accepted event of an id activates its slot and fixes when it expires.  The code
of the slots is the same in both, and is here.

`DirectIndex` is what both are meant to be: a map from ids to windows, where a
timer drops the windows that are over and an event opens or joins a window.  It
has no slots and no records.  Each class is proved to refine it, the heap class
under any calls and the wheel class under paced ones, so they agree with each
other.
-/
import LearnCpp.Lib.Run
import LearnCpp.Lib.Expiry
import LearnCpp.Reconciler.Basic

namespace LearnCpp.Reconciler

open Lib

variable {P : Type}

/-! ## Slots -/

namespace SlotEntry

/-- The expiry time a slot carries, as a number. -/
def deadline (ent : SlotEntry P) : ℕ := ent.expireAt.toNat

/-- `if (!ent.active) { active = true; first_ts = ts; expire_at = ts + window_width_; }` -/
def activate (W ts : UInt64) (ent : SlotEntry P) : SlotEntry P :=
  if ent.active then ent
  else { ent with active := true, firstTs := ts, expireAt := ts + W }

/-- What an accepted event does to its slot, and whether it raises an alert. -/
def receive [BEq P] (W : UInt64) (f : Feed) (exec : Execution P) (ent : SlotEntry P) :
    SlotEntry P × Bool :=
  let ent := ent.activate W exec.ts
  let ent := { ent with toFeeds := ent.store f exec }
  let hit := !ent.alerted && ent.anyMismatch && decide (exec.ts < ent.expireAt)
  ({ ent with alerted := ent.alerted || hit }, hit)

theorem receive_active [BEq P] (W : UInt64) (f : Feed) (exec : Execution P) (ent : SlotEntry P) :
    (ent.receive W f exec).1.active = true := by
  cases h : ent.active <;> simp [receive, activate, h]

theorem receive_expireAt [BEq P] (W : UInt64) (f : Feed) (exec : Execution P) (ent : SlotEntry P) :
    (ent.receive W f exec).1.expireAt = if ent.active then ent.expireAt else exec.ts + W := by
  cases h : ent.active <;> simp [receive, activate, h]

theorem receive_firstTs [BEq P] (W : UInt64) (f : Feed) (exec : Execution P) (ent : SlotEntry P) :
    (ent.receive W f exec).1.firstTs = if ent.active then ent.firstTs else exec.ts := by
  cases h : ent.active <;> simp [receive, activate, h]

end SlotEntry

/-- The slots as a map of the active ones. -/
def active (entries : List (SlotEntry P)) : UInt64 → Option (SlotEntry P) :=
  fun id => entries[id.toNat]?.filter SlotEntry.active

/-- `if (id <= max_id_ && entries_[id].active && test) entries_[id] = Entry{};` -/
def eraseSlot (maxId : UInt64) (test : SlotEntry P → Bool) (id : UInt64)
    (entries : List (SlotEntry P)) : Option (List (SlotEntry P)) :=
  if id > maxId then some entries
  else do
    let ent ← entries[id.toNat]?
    if ent.active && test ent then some (entries.set id.toNat {}) else some entries

/-- There is a slot for every id up to `max_id`, and a slot that is not active is blank. -/
structure Slots (maxId : UInt64) (entries : List (SlotEntry P)) : Prop where
  length : entries.length = maxId.toNat + 1
  blank : ∀ ent ∈ entries, ent.active = false → ent = {}

namespace Slots

variable {maxId : UInt64} {entries : List (SlotEntry P)}

theorem active_eq_some {id : UInt64} {ent : SlotEntry P} :
    active entries id = some ent ↔ entries[id.toNat]? = some ent ∧ ent.active = true := by
  rw [active, Option.filter_eq_some_iff]

theorem init (hmax : maxId.toNat < 2 ^ 64 - 1) :
    Slots maxId (List.replicate (maxId + 1).toNat ({} : SlotEntry P)) ∧
      active (List.replicate (maxId + 1).toNat ({} : SlotEntry P)) = fun _ => none := by
  have hsucc : (maxId + 1).toNat = maxId.toNat + 1 := by
    rw [UInt64.toNat_add, show UInt64.toNat 1 = 1 from rfl, Nat.mod_eq_of_lt (by omega)]
  refine ⟨⟨by rw [List.length_replicate, hsucc], ?_⟩, ?_⟩
  · intro ent hent _
    exact List.eq_of_mem_replicate hent
  · funext id
    apply Option.eq_none_iff_forall_ne_some.mpr
    intro ent hent
    obtain ⟨hget, hact⟩ := active_eq_some.mp hent
    rw [List.eq_of_mem_replicate (List.mem_of_getElem? hget)] at hact
    cases hact

variable (h : Slots maxId entries)
include h

theorem lt_length {id : UInt64} (hid : id ≤ maxId) : id.toNat < entries.length := by
  rw [h.length]
  exact Nat.lt_succ_of_le (UInt64.le_iff_toNat_le.mp hid)

theorem get {id : UInt64} (hid : id ≤ maxId) :
    entries[id.toNat]? = some ((active entries id).getD {}) := by
  have hlt := h.lt_length hid
  have hget := List.getElem?_eq_getElem hlt
  cases hact : entries[id.toNat].active with
  | true => rw [active_eq_some.mpr ⟨hget, hact⟩]; exact hget
  | false =>
      have hblank := h.blank _ (List.getElem_mem hlt) hact
      rw [hblank] at hget
      rw [active, hget]
      rfl

theorem set {id : UInt64} (hid : id ≤ maxId) {ent : SlotEntry P} (hblank : ent.active = false → ent = {}) :
    Slots maxId (entries.set id.toNat ent) ∧
      active (entries.set id.toNat ent) =
        Function.update (active entries) id ((some ent).filter SlotEntry.active) := by
  refine ⟨⟨by rw [List.length_set, h.length], ?_⟩, ?_⟩
  · intro ent' hent' hact'
    rcases List.mem_or_eq_of_mem_set hent' with hmem | rfl
    · exact h.blank ent' hmem hact'
    · exact hblank hact'
  · funext id'
    rcases eq_or_ne id' id with rfl | hne
    · rw [Function.update_self, active, List.getElem?_set_self (h.lt_length hid)]
    · rw [Function.update_of_ne hne, active, active, List.getElem?_set_ne]
      exact fun heq => hne (UInt64.toNat_inj.mp heq).symm

theorem set_active {id : UInt64} (hid : id ≤ maxId) {ent : SlotEntry P} (hact : ent.active = true) :
    Slots maxId (entries.set id.toNat ent) ∧
      active (entries.set id.toNat ent) = Function.update (active entries) id (some ent) := by
  have hblank : ent.active = false → ent = {} :=
    fun hno => absurd (hact.symm.trans hno) Bool.true_eq_false.mp
  have hset := h.set hid hblank
  rwa [Option.filter_some, if_pos hact] at hset

theorem set_blank {id : UInt64} (hid : id ≤ maxId) :
    Slots maxId (entries.set id.toNat {}) ∧
      active (entries.set id.toNat {}) = Function.update (active entries) id none :=
  h.set hid fun _ => rfl

/-- **Erasing a slot under a test** is `evict` on the map. -/
theorem eraseSlot (test : SlotEntry P → Bool) (id : UInt64) :
    ∃ entries', Reconciler.eraseSlot maxId test id entries = some entries' ∧
      Slots maxId entries' ∧ active entries' = evict test id (active entries) := by
  rw [Reconciler.eraseSlot]
  by_cases hid : id > maxId
  · -- no slot, so nothing is active
    have hnone : active entries id = none := by
      rw [active, List.getElem?_eq_none (by
        rw [h.length]; exact UInt64.lt_iff_toNat_lt.mp hid)]
      rfl
    refine ⟨entries, if_pos hid, h, (evict_eq_self fun ent hent => ?_).symm⟩
    rw [hnone] at hent
    cases hent
  · have hle : id ≤ maxId := UInt64.not_lt.mp hid
    rw [if_neg hid, h.get hle]
    cases hact : active entries id with
    | none =>
        refine ⟨entries, rfl, h, (evict_eq_self fun ent hent => ?_).symm⟩
        rw [hact] at hent
        cases hent
    | some ent =>
        have hent := (active_eq_some.mp hact).2
        cases htest : test ent with
        | true =>
            obtain ⟨hslots, hview⟩ := h.set_blank hle
            refine ⟨_, by simp [hent, htest], hslots, ?_⟩
            rw [hview, evict_eq_update]
            rw [hact]
            rintro _ ⟨⟩
            exact htest
        | false =>
            refine ⟨entries, by simp [htest], h, (evict_eq_self ?_).symm⟩
            rw [hact]
            rintro _ ⟨⟩
            exact htest

omit h in
theorem index {i : ℕ} (hi : i ≤ maxId.toNat) : (UInt64.ofNat i).toNat = i := by
  rw [UInt64.toNat_ofNat', Nat.mod_eq_of_lt (Nat.lt_of_le_of_lt hi maxId.toNat_lt)]

theorem exists_active {ent : SlotEntry P} (hent : ent ∈ entries) (hact : ent.active = true) :
    ∃ id, active entries id = some ent := by
  obtain ⟨i, hi, rfl⟩ := List.mem_iff_getElem.mp hent
  have hle : i ≤ maxId.toNat := by rw [h.length] at hi; exact Nat.le_of_lt_succ hi
  refine ⟨UInt64.ofNat i, active_eq_some.mpr ⟨?_, hact⟩⟩
  rw [index hle]
  exact List.getElem?_eq_getElem hi

theorem ext {entries' : List (SlotEntry P)} (h' : Slots maxId entries')
    (hview : active entries = active entries') : entries = entries' := by
  apply List.ext_getElem?
  intro i
  by_cases hi : i ≤ maxId.toNat
  · have hid : UInt64.ofNat i ≤ maxId := by
      rw [UInt64.le_iff_toNat_le, index hi]; exact hi
    have hget := h.get hid
    rw [hview, ← h'.get hid, index hi] at hget
    exact hget
  · rw [List.getElem?_eq_none (by rw [h.length]; omega),
      List.getElem?_eq_none (by rw [h'.length]; omega)]

end Slots

/-! ## The windows -/

namespace DirectIndex

variable [BEq P]

/-- The windows that are open, one for an id at most. -/
structure State (P : Type) where
  byId : UInt64 → Option (SlotEntry P) := fun _ => none
  alerts : UInt64 := 0
  lastTimer : UInt64 := 0

variable (W maxId : UInt64)

/-- A timer closes the windows that are over. -/
def onTimer (now : UInt64) (s : State P) : State P :=
  { s with byId := expire SlotEntry.deadline now.toNat s.byId, lastTimer := now }

/-- An event is dropped if it is late or out of range; otherwise it opens or joins a window. -/
def onFeed (f : Feed) (exec : Execution P) (s : State P) : State P :=
  if late W exec.ts s.lastTimer ∨ exec.id > maxId then s
  else
    let r := ((s.byId exec.id).getD {}).receive W f exec
    { s with
      byId := Function.update s.byId exec.id (some r.1)
      alerts := if r.2 then s.alerts + 1 else s.alerts }

def step : Call P → State P → State P
  | .feed f exec => onFeed W maxId f exec
  | .timer now => onTimer now

/-- The state after a sequence of calls from nothing. -/
def after (calls : List (Call P)) : State P := exec (step W maxId) calls {}

@[simp] theorem after_concat (calls : List (Call P)) (c : Call P) :
    after W maxId (calls ++ [c]) = step W maxId c (after W maxId calls) :=
  exec_concat ..

/-- Every window is active, and not over at the latest timer. -/
structure Inv (s : State P) : Prop where
  active : ∀ id ent, s.byId id = some ent → ent.active = true
  later : ∀ id ent, s.byId id = some ent → s.lastTimer < ent.expireAt

variable {W maxId}

/-- A class follows the windows on an event, if it leaves out those that are late or out of
range, and follows the windows on the others. -/
theorem onFeed_refines {σ : Type} {R : σ → State P → Prop} {fed : Option σ} {s : σ} {m : State P}
    {f : Feed} {exec : Execution P} (h : R s m)
    (hdropped : late W exec.ts m.lastTimer ∨ exec.id > maxId → fed = some s)
    (haccepted : late W exec.ts m.lastTimer = false → exec.id ≤ maxId →
      ∃ s', fed = some s' ∧ R s' { m with
        byId := Function.update m.byId exec.id
          (some (((m.byId exec.id).getD {}).receive W f exec).1)
        alerts := if (((m.byId exec.id).getD {}).receive W f exec).2 then m.alerts + 1
          else m.alerts }) :
    ∃ s', fed = some s' ∧ R s' (onFeed W maxId f exec m) := by
  rw [onFeed]
  split
  next hdrop => exact ⟨s, hdropped hdrop, h⟩
  next hkeep =>
    obtain ⟨hlate, hid⟩ := not_or.mp hkeep
    exact haccepted (Bool.eq_false_iff.mpr hlate) (UInt64.not_lt.mp hid)

theorem onFeed_inv {f : Feed} {exec : Execution P} {s : State P} (h : Inv s) :
    Inv (onFeed W maxId f exec s) := by
  unfold onFeed
  split
  · exact h
  · next hdrop =>
      obtain ⟨hlate, -⟩ := not_or.mp hdrop
      refine ⟨?_, ?_⟩
      · intro id ent hent
        rcases update_eq_some.mp hent with ⟨rfl, rfl⟩ | ⟨-, hold⟩
        · exact SlotEntry.receive_active W f exec _
        · exact h.active id ent hold
      · intro id ent hent
        rcases update_eq_some.mp hent with ⟨rfl, rfl⟩ | ⟨-, hold⟩
        · rw [SlotEntry.receive_expireAt]
          -- a window that is joined keeps its end; one that is opened is not late
          cases hl : s.byId exec.id with
          | none =>
              have := of_decide_eq_false (Bool.not_eq_true _ ▸ hlate)
              exact UInt64.not_le.mp this
          | some ent' =>
              rw [Option.getD_some, if_pos (h.active _ _ hl)]
              exact h.later _ _ hl
        · exact h.later id ent hold

theorem step_inv {s : State P} (h : Inv s) : ∀ c : Call P, Inv (step W maxId c s)
  | .feed _ _ => onFeed_inv h
  | .timer now => by
      refine ⟨fun id ent hent => ?_, fun id ent hent => ?_⟩
      · exact h.active id ent ((expire_eq_some _).mp hent).1
      · exact UInt64.lt_iff_toNat_lt.mpr ((expire_eq_some _).mp hent).2

variable (W maxId)

/-- **No window outlives its end.** -/
theorem after_inv (calls : List (Call P)) : Inv (after W maxId calls) :=
  exec_rule (fun _ => Inv) ⟨fun _ _ h => (by cases h), fun _ _ h => (by cases h)⟩
    (fun _ c _ h => step_inv h c) calls (List.prefix_refl calls)

theorem after_timers : ∀ {calls : List (Call P)}, (∀ c ∈ calls, ∃ now, c = .timer now) →
    (after W maxId calls).byId = (fun _ => none) ∧ (after W maxId calls).alerts = 0 := by
  intro calls hcalls
  refine exec_rule_of (fun s : State P => (s.byId = fun _ => none) ∧ s.alerts = 0) hcalls ⟨rfl, rfl⟩ ?_
  rintro c s ⟨now, rfl⟩ ⟨hbyId, halerts⟩
  refine ⟨?_, halerts⟩
  simp only [step, onTimer, hbyId]
  rfl

theorem after_lastTimer (calls : List (Call P)) :
    (after W maxId calls).lastTimer = lastTimer calls := by
  induction calls using List.reverseRecOn with
  | nil => rfl
  | append_singleton calls c ih =>
      rw [after_concat]
      cases c with
      | feed f exec =>
          rw [lastTimer_feed, ← ih]
          simp only [step, onFeed]
          split <;> rfl
      | timer now => rw [lastTimer_timer]; rfl

end DirectIndex

end LearnCpp.Reconciler
