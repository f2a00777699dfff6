/-
# `LearnCpp.Reconciler.Drain` — what is left when `runBench` returns

Whatever a class still holds waits for a time: a record of the heap for the
window end it names, a slot for its `expire_at`.  Such a time is `Pending`: it
is the window end of an event that was fed, and no timer has reached it.  One
event adds its own window end at most, and one timer removes those that it
reaches.

`runBench` flushes past the window end of every event, so at its end nothing is
pending (`not_pending`), and the two classes are empty.  On no events the only
question is whether the flush ends: with `window_width` 2^62 its limit is the
last multiple below 2^64, and `next_timer` goes round for ever.
-/
import LearnCpp.Reconciler.UnorderedHeap
import LearnCpp.Reconciler.DirectIndexWheel

namespace LearnCpp.Reconciler

open Lib

variable {P : Type}

/-- The window end of an event that was fed, not yet reached by a timer. -/
structure Pending (W : UInt64) (calls : List (Call P)) (t : UInt64) : Prop where
  later : lastTimer calls < t
  fed : ∃ f exec, .feed f exec ∈ calls ∧ t = exec.ts + W

namespace Pending

variable {W t : UInt64} {calls : List (Call P)} {f : Feed} {exec : Execution P}

theorem feed (h : Pending W calls t) : Pending W (calls ++ [.feed f exec]) t := by
  obtain ⟨f', exec', hmem, ht⟩ := h.fed
  refine ⟨?_, f', exec', List.mem_append_left _ hmem, ht⟩
  rw [lastTimer_feed]
  exact h.later

theorem timer (h : Pending W calls t) {now : UInt64} (hnow : now < t) :
    Pending W (calls ++ [.timer now]) t := by
  obtain ⟨f, exec, hmem, ht⟩ := h.fed
  refine ⟨?_, f, exec, List.mem_append_left _ hmem, ht⟩
  rw [lastTimer_timer]
  exact hnow

theorem of_feed (hlate : late W exec.ts (lastTimer calls) = false) :
    Pending W (calls ++ [.feed f exec]) (exec.ts + W) := by
  refine ⟨?_, f, exec, by simp, rfl⟩
  rw [lastTimer_feed]
  exact UInt64.not_le.mp (of_decide_eq_false hlate)

end Pending

/-- **When `runBench` returns, nothing is pending.** -/
theorem not_pending {W : UInt64} (hW : 1 ≤ W) {events : List (Event P)} (htime : InTime W events)
    {calls : List (Call P)} (hcalls : benchCalls W events = some calls) (t : UInt64) :
    ¬ Pending W calls t := by
  rintro ⟨hlater, f, exec, hmem, rfl⟩
  have hev := mem_of_benchCalls hcalls hmem
  have hts : exec.ts.toNat + 4 * W.toNat < 2 ^ 64 := htime _ hev
  obtain ⟨calls', hcalls', -, hpast⟩ := benchCalls_spec hW (by omega) htime
  obtain rfl := Option.some.inj (hcalls'.symm.trans hcalls)
  have hend : (exec.ts + W).toNat = exec.ts.toNat + W.toNat := toNat_windowEnd (by omega)
  have hlast : exec.ts.toNat + W.toNat ≤ (lastTimer calls').toNat := hpast _ hev
  rw [UInt64.lt_iff_toNat_lt, hend] at hlater
  omega

variable [BEq P]

/-! ## The heap class -/

namespace UnorderedHeap

variable (pq : MinQueue Exp Exp.due) {W : UInt64} {calls : List (Call P)} {s : State P pq}

/-- Every record waits for a pending time. -/
def AllPending (W : UInt64) (calls : List (Call P)) (s : State P pq) : Prop :=
  ∀ r ∈ pq.contents s.expiry, Pending W calls r.expireAt

/-- The record that an event pushes is the one of its own window, or of the
window its entry has already. -/
theorem onFeed_pending (hinv : Inv pq W s) (hlast : s.lastTimer = lastTimer calls)
    (h : AllPending pq W calls s) {f : Feed} {exec : Execution P} :
    AllPending pq W (calls ++ [.feed f exec]) (onFeed pq W f exec s) := by
  unfold onFeed
  split
  · intro r hr
    exact (h r hr).feed
  · next hlate =>
      rw [Bool.not_eq_true, hlast] at hlate
      intro r hr
      rcases pq.mem_push.mp hr with rfl | hold
      · cases hent : s.byId exec.id with
        | none => exact Pending.of_feed hlate
        | some ent =>
            obtain ⟨r, hr, hdue, -⟩ := hinv.covers exec.id ent hent
            have hrec : r.expireAt = ent.firstTs + W :=
              (UInt64.toNat_inj.mp hdue).trans (hinv.anchored exec.id ent hent)
            simp only [HeapEntry.receive, Entry.stamp, Option.getD_some]
            split
            · exact Pending.of_feed hlate
            · exact hrec ▸ (h r hr).feed
      · exact (h r hold).feed

omit [BEq P] in
theorem onTimer_pending (h : AllPending pq W calls s) {now : UInt64} :
    AllPending pq W (calls ++ [.timer now]) (onTimer pq now s) := by
  intro r hr
  have hmono : ∀ a b : Exp, a.due ≤ b.due → b.isDue now = true → a.isDue now = true := by
    intro a b hab hb
    rw [Exp.isDue_iff] at hb ⊢
    exact hab.trans hb
  obtain ⟨hold, hnot⟩ := pq.mem_drain hmono hr
  rw [← Bool.not_eq_true, Exp.isDue_iff, Nat.not_le] at hnot
  exact (h r hold).timer (UInt64.lt_iff_toNat_lt.mpr hnot)

theorem after_pending (W : UInt64) (calls : List (Call P)) :
    AllPending pq W calls (after pq W calls) := by
  refine exec_rule (AllPending pq W) ?_ (fun pre c _ h => ?_) calls (List.prefix_refl calls)
  · intro r hr
    rw [pq.contents_empty] at hr
    cases hr
  · cases c with
    | feed f exec => exact onFeed_pending pq (after_inv pq W pre) (after_lastTimer pq W pre) h
    | timer now => exact onTimer_pending pq h

theorem after_empty (hnone : ∀ t, ¬ Pending W calls t) :
    (∀ id, (after pq W calls).byId id = none) ∧ pq.contents (after pq W calls).expiry = [] := by
  have hrecs : pq.contents (after pq W calls).expiry = [] :=
    List.eq_nil_iff_forall_not_mem.mpr fun r hr => hnone _ (after_pending pq W calls r hr)
  refine ⟨fun id => Option.eq_none_iff_forall_ne_some.mpr fun ent hent => ?_, hrecs⟩
  obtain ⟨r, hr, -⟩ := (after_inv pq W calls).covers id ent hent
  rw [hrecs] at hr
  cases hr

end UnorderedHeap

/-! ## The windows, and the wheel class -/

namespace DirectIndex

variable {W maxId : UInt64} {calls : List (Call P)} {s : State P}

/-- Every window waits for a pending time. -/
def AllPending (W : UInt64) (calls : List (Call P)) (s : State P) : Prop :=
  ∀ id ent, s.byId id = some ent → Pending W calls ent.expireAt

theorem onFeed_pending (hinv : Inv s) (hlast : s.lastTimer = lastTimer calls)
    (h : AllPending W calls s) {f : Feed} {exec : Execution P} :
    AllPending W (calls ++ [.feed f exec]) (onFeed W maxId f exec s) := by
  unfold onFeed
  split
  · intro id ent hent
    exact (h id ent hent).feed
  · next hdrop =>
      obtain ⟨hlate, -⟩ := not_or.mp hdrop
      rw [Bool.not_eq_true, hlast] at hlate
      intro id ent hent
      rcases update_eq_some.mp hent with ⟨rfl, rfl⟩ | ⟨-, hold⟩
      · rw [SlotEntry.receive_expireAt]
        cases hl : s.byId exec.id with
        | none => exact Pending.of_feed hlate
        | some ent =>
            rw [Option.getD_some, if_pos (hinv.active _ _ hl)]
            exact (h _ _ hl).feed
      · exact (h id ent hold).feed

theorem after_pending (W maxId : UInt64) (calls : List (Call P)) :
    AllPending W calls (after W maxId calls) := by
  refine exec_rule (AllPending W) ?_ (fun pre c _ h => ?_) calls (List.prefix_refl calls)
  · intro id ent hent
    cases hent
  · cases c with
    | feed f exec => exact onFeed_pending (after_inv W maxId pre) (after_lastTimer W maxId pre) h
    | timer now =>
        intro id ent hent
        obtain ⟨hold, hlt⟩ := (expire_eq_some _).mp hent
        exact (h id ent hold).timer (UInt64.lt_iff_toNat_lt.mpr hlt)

end DirectIndex

namespace DirectIndexWheel

variable {W maxId tickMod : UInt64} {calls : List (Call P)} {s : State P}

omit [BEq P] in
theorem Refines.empty {m : DirectIndex.State P} (h : Refines maxId tickMod s m)
    (hnone : ∀ id, m.byId id = none) :
    (∀ ent ∈ s.entries, ent.active = false) ∧ ∀ b ∈ s.wheel, b = [] := by
  have hactive : ∀ id ent, active s.entries id ≠ some ent := by
    intro id ent hent
    rw [h.byId, hnone id] at hent
    cases hent
  refine ⟨fun ent hent => ?_, fun b hb => ?_⟩
  · rw [← Bool.not_eq_true]
    intro hact
    obtain ⟨id, hid⟩ := h.slots.exists_active hent hact
    exact hactive id ent hid
  · -- an id in a bucket would have an open window
    refine List.eq_nil_iff_forall_not_mem.mpr fun id hid => ?_
    obtain ⟨i, hi, rfl⟩ := List.mem_iff_getElem.mp hb
    obtain ⟨ent, hent, -⟩ := h.filed i id (by simpa [Wheel.bucket, hi] using hid)
    exact hactive id ent hent

end DirectIndexWheel

/-! ## Main result -/

/-- **`runBench` drains the reconciler.**  It returns when there is an event, or
when four windows fit below 2^64; and whenever it returns, the heap class has no
entry and no record, and the wheel class no active slot and no id in a bucket. -/
theorem bench_drains (pq : MinQueue Exp Exp.due) {W : UInt64} (hW : 1 ≤ W) (events : List (Event P))
    (htime : InTime W events) :
    (events ≠ [] ∨ 4 * W.toNat < 2 ^ 64 → (benchCalls W events).isSome) ∧
      ∀ calls, benchCalls W events = some calls →
        ((∀ id, (UnorderedHeap.after pq W calls).byId id = none) ∧
          pq.contents (UnorderedHeap.after pq W calls).expiry = []) ∧
        ∀ maxId tickMod : UInt64, maxId.toNat < 2 ^ 64 - 1 → 2 * W.toNat ≤ tickMod.toNat →
          ∃ s, DirectIndexWheel.after W maxId tickMod calls = some s ∧
            (∀ ent ∈ s.entries, ent.active = false) ∧ ∀ b ∈ s.wheel, b = [] := by
  have hW' : 1 ≤ W.toNat := UInt64.le_iff_toNat_le.mp hW
  refine ⟨fun hstart => ?_, fun calls hcalls => ⟨?_, fun maxId tickMod hmax hmod => ?_⟩⟩
  · obtain ⟨calls, hcalls, -⟩ := benchCalls_spec hW (hstart.elim htime.start id) htime
    exact hcalls ▸ rfl
  · exact UnorderedHeap.after_empty pq (not_pending hW htime hcalls)
  · have hnone : ∀ id, (DirectIndex.after W maxId calls).byId id = none := by
      intro id
      refine Option.eq_none_iff_forall_ne_some.mpr fun ent hent => ?_
      exact not_pending hW htime hcalls _ (DirectIndex.after_pending W maxId calls id ent hent)
    by_cases hstart : 4 * W.toNat < 2 ^ 64
    · obtain ⟨calls', hcalls', hpaced, -⟩ := benchCalls_spec hW hstart htime
      obtain rfl := Option.some.inj (hcalls'.symm.trans hcalls)
      obtain ⟨s, hs, hrefines⟩ :=
        DirectIndexWheel.after_refines hW' hmod hmax hpaced _ (List.prefix_refl _)
      exact ⟨s, hs, hrefines.empty hnone⟩
    · -- no event is in time, so only timers fire
      obtain rfl : events = [] := by
        by_contra hne
        exact hstart (htime.start hne)
      have hmod' : 0 < tickMod.toNat := by omega
      obtain ⟨s, hs, hwheel, hslots, hactive, -⟩ := DirectIndexWheel.after_timers W hmod' hmax
        (benchCalls_nil hcalls) _ (List.prefix_refl _)
      refine ⟨s, hs, fun ent hent => ?_, fun b hb => ?_⟩
      · rw [← Bool.not_eq_true]
        intro hact
        obtain ⟨id, hid⟩ := hslots.exists_active hent hact
        rw [hactive] at hid
        cases hid
      · rw [hwheel] at hb
        exact List.eq_of_mem_replicate hb

theorem bench_drains_reopen :
    (DirectIndexWheel.reopenEvents ≠ [] ∨ 4 * UInt64.toNat 10 < 2 ^ 64 →
        (benchCalls 10 DirectIndexWheel.reopenEvents).isSome) ∧
      ∀ calls, benchCalls 10 DirectIndexWheel.reopenEvents = some calls →
        ((∀ id, (UnorderedHeap.after (MinQueue.ofList Exp Exp.due) 10 calls).byId id = none) ∧
          (MinQueue.ofList Exp Exp.due).contents
            (UnorderedHeap.after (MinQueue.ofList Exp Exp.due) 10 calls).expiry = []) ∧
        ∀ maxId tickMod : UInt64, maxId.toNat < 2 ^ 64 - 1 → 2 * UInt64.toNat 10 ≤ tickMod.toNat →
          ∃ s, DirectIndexWheel.after 10 maxId tickMod calls = some s ∧
            (∀ ent ∈ s.entries, ent.active = false) ∧ ∀ b ∈ s.wheel, b = [] :=
  bench_drains (MinQueue.ofList Exp Exp.due) (by decide) DirectIndexWheel.reopenEvents (by decide)

omit [BEq P] in
/-- A window of 2^62 goes round in four steps, and never gets past the last of them. -/
theorem fireUntil_quarter (fuel : ℕ) :
    (fireUntil 0x4000000000000000 0xc000000000000000 fuel 0x4000000000000000 :
      Option (List (Call P) × UInt64)) = none := by
  refine @fireUntil_stuck P _ _ (fun next => next.toNat % 2 ^ 62 = 0) (fun next h => ?_)
    (fun next h => ?_) fuel _ (by decide)
  · rw [UInt64.le_iff_toNat_le, show UInt64.toNat 0xc000000000000000 = 3 * 2 ^ 62 from rfl]
    have := next.toNat_lt
    omega
  · rw [UInt64.toNat_add, show UInt64.toNat 0x4000000000000000 = 2 ^ 62 from rfl]
    omega

/-- With a window of 2^62 and no events the flush goes round for ever; and with
the last `max_id` there are no slots, so the first event leaves them. -/
theorem bench_not_drained :
    (InTime 0x4000000000000000 ([] : List (Event ℕ)) ∧
      benchCalls 0x4000000000000000 ([] : List (Event ℕ)) = none) ∧
    ∃ (events : List (Event ℕ)) (calls : List (Call ℕ)), InTime 10 events ∧
      benchCalls 10 events = some calls ∧
      DirectIndexWheel.after 10 0xffffffffffffffff 20 calls = none := by
  exact ⟨⟨by decide, benchCalls_nil_eq_none (fireUntil_quarter rounds)⟩,
    [⟨.one, { id := 0, price := 100, size := 1, ts := 5 }⟩], _, by decide, rfl, rfl⟩

end LearnCpp.Reconciler
