/-
# `LearnCpp.Reconciler.Completeness` — no mismatch is missed, in any order

From any reachable state of `ReconcilerUnorderedScan`, a list of events is fed
with no timer in between.  The events are fresh: none is late, no feed sends an id
twice, no id has an entry yet, and the events of one id lie less than a window
apart.  Then `alerts()` grows by the number of ids whose events differ, whatever
the order they come in.

The window of an entry starts at the event that happens to come first, and the
alert fires at the second or the third.  Neither shows in the end: at every point
the entry of an id holds exactly what has come of it, and

    its alert is out   ↔   two of the executions it holds do not match

since a window that starts at one event of the id is open at all of them.
-/
import LearnCpp.Reconciler.UnorderedScan

namespace LearnCpp.Reconciler.UnorderedScan

open Lib

variable {P : Type} [BEq P]

/-- Two of the listed executions of the id differ in price or size.  They are of two
feeds, and their prices are compared in the order of the feeds. -/
def Differ (events : List (Event P)) (id : UInt64) : Prop :=
  ∃ a ∈ events, ∃ b ∈ events, a.feed.before b.feed = true ∧ a.exec.id = id ∧ b.exec.id = id ∧
    ((a.exec.price == b.exec.price) = false ∨ a.exec.size ≠ b.exec.size)

instance (events : List (Event P)) : DecidablePred (Differ events) :=
  fun id => inferInstanceAs (Decidable (∃ a ∈ events, ∃ b ∈ events,
    a.feed.before b.feed = true ∧ a.exec.id = id ∧ b.exec.id = id ∧
      ((a.exec.price == b.exec.price) = false ∨ a.exec.size ≠ b.exec.size)))

/-- The events are not late, each feed sends an id once, no id has an entry, and the
events of an id lie less than a window apart. -/
structure Fresh (W : UInt64) (s : State P) (events : List (Event P)) : Prop where
  notLate : ∀ ev ∈ events, s.lastTimer.toNat < ev.exec.ts.toNat + W.toNat
  noWrap : ∀ ev ∈ events, ev.exec.ts.toNat + W.toNat < 2 ^ 64
  once : (events.map Event.key).Nodup
  noEntry : ∀ ev ∈ events, s.byId ev.exec.id = none
  span : ∀ ev ∈ events, ∀ ev' ∈ events, ev.exec.id = ev'.exec.id →
    ev.exec.ts.toNat < ev'.exec.ts.toNat + W.toNat

variable {W : UInt64} {s₀ s : State P} {events pre : List (Event P)} {ev : Event P} {ent : Entry P}
  {id : UInt64}

omit [BEq P] in
theorem Fresh.not_late (h : Fresh W s events) (hev : ev ∈ events) :
    late W ev.exec.ts s.lastTimer = false := by
  rw [late_eq_false (h.noWrap ev hev)]
  exact h.notLate ev hev

/-- Where `==` is symmetric, as it is on `double`, these are any two executions of the id. -/
theorem Fresh.differ_iff (h : Fresh W s events) (hsymm : ∀ a b : P, (a == b) = (b == a)) :
    Differ events id ↔ ∃ a ∈ events, ∃ b ∈ events, a ≠ b ∧ a.exec.id = id ∧ b.exec.id = id ∧
      ((a.exec.price == b.exec.price) = false ∨ a.exec.size ≠ b.exec.size) := by
  constructor
  · rintro ⟨a, ha, b, hb, hbefore, hrest⟩
    refine ⟨a, ha, b, hb, ?_, hrest⟩
    rintro rfl
    exact Feed.ne_of_before hbefore rfl
  · rintro ⟨a, ha, b, hb, hne, hida, hidb, hdiffer⟩
    have hfeed : a.feed ≠ b.feed := by
      intro heq
      refine hne (List.inj_on_of_nodup_map h.once ha hb ?_)
      rw [Event.key, Event.key, heq, hida, hidb]
    rcases Feed.before_or_before hfeed with hbefore | hbefore
    · exact ⟨a, ha, b, hb, hbefore, hida, hidb, hdiffer⟩
    · rw [hsymm, ne_comm] at hdiffer
      exact ⟨b, hb, a, ha, hbefore, hidb, hida, hdiffer⟩

/-! ## The entry of one id -/

/-- The entry holds what has come of the id, its window starts at an event of the id,
and its alert is out if two executions that it holds do not match. -/
structure Recorded (events pre : List (Event P)) (id : UInt64) (ent : Entry P) : Prop where
  get_iff : ∀ g x, ent.get g = some x ↔ ⟨g, x⟩ ∈ pre ∧ x.id = id
  first : ent.firstTs = 0 ∧ ent.lastTs = 0 ∨
    ∃ ev ∈ events, ev.exec.id = id ∧ ev.exec.ts = ent.firstTs
  alerted : ent.alerted = ent.anyMismatch

theorem Recorded.fresh (events : List (Event P)) (id : UInt64) : Recorded events [] id {} where
  get_iff := fun g x => by
    rw [Feeds.get_default]
    exact ⟨fun hsome => absurd hsome.symm (Option.some_ne_none x), fun hboth => absurd hboth.1 List.not_mem_nil⟩
  first := Or.inl ⟨rfl, rfl⟩
  alerted := rfl

theorem Recorded.other (h : Recorded events pre id ent) (hid : ev.exec.id ≠ id) :
    Recorded events (pre ++ [ev]) id ent where
  get_iff := fun g x => by
    rw [h.get_iff, List.mem_append, List.mem_singleton]
    constructor
    · rintro ⟨hmem, hx⟩
      exact ⟨Or.inl hmem, hx⟩
    · rintro ⟨hmem | rfl, hx⟩
      · exact ⟨hmem, hx⟩
      · exact absurd hx hid
  first := h.first
  alerted := h.alerted

omit [BEq P] in
theorem stamp_first (hev : ev ∈ events)
    (h : ent.firstTs = 0 ∧ ent.lastTs = 0 ∨
      ∃ ev' ∈ events, ev'.exec.id = ev.exec.id ∧ ev'.exec.ts = ent.firstTs) :
    ∃ ev' ∈ events, ev'.exec.id = ev.exec.id ∧ ev'.exec.ts = (ent.stamp ev.exec.ts).firstTs := by
  rw [Entry.stamp]
  split
  next => exact ⟨ev, hev, rfl, rfl⟩
  next hstamped => exact h.resolve_left hstamped

omit [BEq P] in
theorem Recorded.get_eq_none [BEq P] (h : Recorded events pre ev.exec.id ent)
    (hnew : ev.key ∉ pre.map Event.key) : ent.get ev.feed = none := by
  rw [Option.eq_none_iff_forall_ne_some]
  intro x hx
  obtain ⟨hmem, hid⟩ := (h.get_iff _ _).mp hx
  exact hnew (List.mem_map.mpr ⟨_, hmem, by rw [Event.key, Event.key, hid]⟩)

theorem Recorded.get_iff_concat (h : Recorded events pre ev.exec.id ent)
    (hnew : ev.key ∉ pre.map Event.key) (g : Feed) (x : Execution P) :
    (if g = ev.feed then some ev.exec else ent.get g) = some x ↔
      ⟨g, x⟩ ∈ pre ++ [ev] ∧ x.id = ev.exec.id := by
  rw [List.mem_append, List.mem_singleton]
  split
  next hg =>
    subst hg
    constructor
    · intro hx
      obtain rfl := Option.some.inj hx
      exact ⟨Or.inr rfl, rfl⟩
    · rintro ⟨hmem | heq, hid⟩
      · exact absurd (List.mem_map.mpr ⟨_, hmem, by rw [Event.key, Event.key, hid]⟩) hnew
      · rw [← heq]
  next hg =>
    rw [h.get_iff]
    constructor
    · rintro ⟨hmem, hid⟩
      exact ⟨Or.inl hmem, hid⟩
    · rintro ⟨hmem | heq, hid⟩
      · exact ⟨hmem, hid⟩
      · exact absurd (congrArg Event.feed heq) hg

omit [BEq P] in
theorem Fresh.isExpired_eq_false (h : Fresh W s events) (hev : ev ∈ events)
    (hfirst : ∃ ev' ∈ events, ev'.exec.id = ev.exec.id ∧ ev'.exec.ts = ent.firstTs) :
    ent.isExpired W ev.exec.ts = false := by
  obtain ⟨ev', hev', hid, hts⟩ := hfirst
  rw [Entry.isExpired_eq_false, Entry.deadline, ← hts, toNat_windowEnd (h.noWrap ev' hev')]
  exact h.span ev hev ev' hev' hid.symm

theorem Recorded.receive (hfresh : Fresh W s events) (hev : ev ∈ events)
    (hnew : ev.key ∉ pre.map Event.key) (h : Recorded events pre ev.exec.id ent) :
    let r := ent.receive W ev.feed ev.exec
    Recorded events (pre ++ [ev]) ev.exec.id r.1 ∧ (ent.alerted = true → r.1.alerted = true) ∧
      (r.2 = true ↔ ent.alerted = false ∧ r.1.alerted = true) := by
  intro r
  have hget : ∀ g, r.1.get g = if g = ev.feed then some ev.exec else ent.get g :=
    fun g => Feeds.get_store _ ev.feed g ev.exec
  have hfirst : ∃ ev' ∈ events, ev'.exec.id = ev.exec.id ∧ ev'.exec.ts = r.1.firstTs :=
    stamp_first hev h.first
  have halerted : r.1.alerted = (ent.alerted || r.2) := Entry.receive_alerted W ev.feed ev.exec ent
  have hhit : r.2 = true ↔ ent.alerted = false ∧ r.1.anyMismatch = true := by
    have hdecide : r.2 = true ↔ ent.alerted = false ∧ r.1.anyMismatch = true ∧
        r.1.isExpired W ev.exec.ts = false := Entry.receive_hit W ev.feed ev.exec ent
    rwa [and_iff_left (hfresh.isExpired_eq_false hev hfirst)] at hdecide
  have hkeep : ent.anyMismatch = true → r.1.anyMismatch = true :=
    Feeds.anyMismatch_store (h.get_eq_none hnew)
  -- the alert that was out stays out, and the mismatch behind it stays too
  have hout : r.1.alerted = r.1.anyMismatch := by
    rw [halerted, h.alerted]
    rw [h.alerted] at hhit
    cases hmis : ent.anyMismatch with
    | true => rw [hkeep hmis, Bool.true_or]
    | false =>
        rw [Bool.false_or, Bool.eq_iff_iff, hhit]
        exact and_iff_right hmis
  refine ⟨⟨fun g x => ?_, Or.inr hfirst, hout⟩, fun hold => ?_, ?_⟩
  · rw [hget]
    exact h.get_iff_concat hnew g x
  · rw [halerted, hold, Bool.true_or]
  · rw [hhit, hout]

theorem Recorded.alerted_iff (h : Recorded events pre id ent) (hperm : pre.Perm events) :
    ent.alerted = true ↔ Differ events id := by
  rw [h.alerted, Feeds.anyMismatch_iff]
  constructor
  · rintro ⟨g₁, g₂, x, y, hbefore, hx, hy, hxy⟩
    obtain ⟨hmemx, hidx⟩ := (h.get_iff g₁ x).mp hx
    obtain ⟨hmemy, hidy⟩ := (h.get_iff g₂ y).mp hy
    exact ⟨⟨g₁, x⟩, hperm.subset hmemx, ⟨g₂, y⟩, hperm.subset hmemy, hbefore, hidx, hidy,
      (eqExec_eq_false (hidx.trans hidy.symm)).mp hxy⟩
  · rintro ⟨⟨g₁, x⟩, hx, ⟨g₂, y⟩, hy, hbefore, hidx, hidy, hxy⟩
    exact ⟨g₁, g₂, x, y, hbefore, (h.get_iff g₁ x).mpr ⟨hperm.symm.subset hx, hidx⟩,
      (h.get_iff g₂ y).mpr ⟨hperm.symm.subset hy, hidy⟩,
      (eqExec_eq_false (hidx.trans hidy.symm)).mpr hxy⟩

/-! ## The count -/

/-- The ids whose alert is out. -/
def alertedIds (ids : Finset UInt64) (byId : UInt64 → Option (Entry P)) : Finset UInt64 :=
  ids.filter fun id => ((byId id).getD {}).alerted = true

omit [BEq P] in
theorem alertedIds_update {ids : Finset UInt64} {byId : UInt64 → Option (Entry P)} (hid : id ∈ ids)
    (hkeep : ((byId id).getD {}).alerted = true → ent.alerted = true) :
    (alertedIds ids (Function.update byId id (some ent))).card
      = (alertedIds ids byId).card
        + if ((byId id).getD {}).alerted = false ∧ ent.alerted = true then 1 else 0 := by
  have hother : ∀ id', id' ≠ id →
      (Function.update byId id (some ent) id').getD {} = (byId id').getD {} := by
    intro id' hne
    rw [Function.update_of_ne hne]
  split
  next hhit =>
    have hinsert : alertedIds ids (Function.update byId id (some ent))
        = insert id (alertedIds ids byId) := by
      ext id'
      rw [Finset.mem_insert, alertedIds, alertedIds, Finset.mem_filter, Finset.mem_filter]
      rcases eq_or_ne id' id with rfl | hne
      · rw [Function.update_self]
        exact ⟨fun _ => Or.inl rfl, fun _ => ⟨hid, hhit.2⟩⟩
      · rw [hother id' hne]
        exact ⟨Or.inr, fun hmem => hmem.resolve_left hne⟩
    rw [hinsert, Finset.card_insert_of_notMem]
    intro hmem
    have hold := (Finset.mem_filter.mp hmem).2
    rw [hhit.1] at hold
    cases hold
  next hhit =>
    rw [Nat.add_zero]
    refine congrArg Finset.card (Finset.filter_congr fun id' _ => ?_)
    rcases eq_or_ne id' id with rfl | hne
    · rw [Function.update_self]
      refine ⟨fun hnow => ?_, hkeep⟩
      by_contra hold
      exact hhit ⟨Bool.not_eq_true _ ▸ hold, hnow⟩
    · rw [hother id' hne]

/-! ## The run -/

/-- What holds after the events of `pre`. -/
structure Inv (s₀ : State P) (events pre : List (Event P)) (s : State P) : Prop where
  lastTimer : s.lastTimer = s₀.lastTimer
  recorded : ∀ ev ∈ events, Recorded events pre ev.exec.id ((s.byId ev.exec.id).getD {})
  alerts : s.alerts = s₀.alerts + UInt64.ofNat (alertedIds (eventIds events) s.byId).card

theorem Fresh.inv (h : Fresh W s₀ events) : Inv s₀ events [] s₀ where
  lastTimer := rfl
  recorded := fun ev hev => by
    rw [h.noEntry ev hev]
    exact Recorded.fresh events ev.exec.id
  alerts := by
    have hnone : alertedIds (eventIds events) s₀.byId = ∅ := by
      refine Finset.filter_eq_empty_iff.mpr fun id hid => ?_
      obtain ⟨ev, hev, rfl⟩ := List.mem_map.mp (List.mem_toFinset.mp hid)
      rw [h.noEntry ev hev]
      exact Bool.false_ne_true
    rw [hnone]
    exact (UInt64.add_zero _).symm

theorem Inv.feed (h : Inv s₀ events pre s) (hfresh : Fresh W s₀ events) (hev : ev ∈ events)
    (hnew : ev.key ∉ pre.map Event.key) : Inv s₀ events (pre ++ [ev]) (step W ev.call s) := by
  obtain ⟨r, hr⟩ : ∃ r, ((s.byId ev.exec.id).getD {}).receive W ev.feed ev.exec = r := ⟨_, rfl⟩
  obtain ⟨hrec, hkeep, hhit⟩ := (h.recorded ev hev).receive hfresh hev hnew
  rw [hr] at hrec hkeep hhit
  have hlate : ¬ late W ev.exec.ts s.lastTimer = true := by
    rw [h.lastTimer, hfresh.not_late hev]
    exact Bool.false_ne_true
  have hstep : step W ev.call s = { s with
      byId := Function.update s.byId ev.exec.id (some r.1)
      alerts := if r.2 then s.alerts + 1 else s.alerts } := by
    rw [← hr]
    exact if_neg hlate
  have hbyId : (step W ev.call s).byId = Function.update s.byId ev.exec.id (some r.1) := by
    rw [hstep]
  have halerts : (step W ev.call s).alerts = if r.2 then s.alerts + 1 else s.alerts := by
    rw [hstep]
  refine ⟨?_, fun ev' hev' => ?_, ?_⟩
  · rw [hstep]
    exact h.lastTimer
  · rw [hbyId]
    rcases eq_or_ne ev'.exec.id ev.exec.id with heq | hne
    · rw [heq, Function.update_self]
      exact hrec
    · rw [Function.update_of_ne hne]
      exact (h.recorded ev' hev').other hne.symm
  · have hid : ev.exec.id ∈ eventIds events := List.mem_toFinset.mpr (List.mem_map_of_mem hev)
    have hcard := alertedIds_update hid hkeep
    rw [if_congr hhit.symm rfl rfl] at hcard
    rw [halerts, hbyId, hcard, h.alerts]
    split
    next => rw [UInt64.ofNat_add, ← UInt64.add_assoc]; rfl
    next => rfl

/-- **No mismatch is missed.**  In whatever order fresh events come, the alerts grow by
the number of ids whose events differ. -/
theorem alerts_complete {W : UInt64} {calls : List (Call P)} {events : List (Event P)}
    (h : Fresh W (after W calls) events) : ∀ order : List (Event P), order.Perm events →
      (after W (calls ++ order.map Event.call)).alerts
        = (after W calls).alerts + UInt64.ofNat ((eventIds events).filter (Differ events)).card := by
  intro order hperm
  have hrun : after W (calls ++ order.map Event.call)
      = exec (fun ev s => step W ev.call s) order (after W calls) := by
    rw [after, after, exec, exec, exec, List.foldl_append, List.foldl_map]
  have hinv : Inv (after W calls) events order (after W (calls ++ order.map Event.call)) := by
    rw [hrun]
    refine exec_rule (Inv (after W calls) events) h.inv ?_ order List.prefix_rfl
    intro pre ev hp hpre
    have hnodup : ((pre ++ [ev]).map Event.key).Nodup :=
      ((hperm.map Event.key).nodup_iff.mpr h.once).sublist (hp.sublist.map _)
    rw [List.map_append, List.map_singleton] at hnodup
    refine hpre.feed h (hperm.subset (hp.subset (List.mem_append_right _ (List.mem_singleton_self ev)))) ?_
    intro hmem
    exact (List.nodup_append.mp hnodup).2.2 _ hmem _ (List.mem_singleton_self _) rfl
  rw [hinv.alerts]
  congr 3
  refine Finset.filter_congr fun id hid => ?_
  obtain ⟨ev, hev, rfl⟩ := List.mem_map.mp (List.mem_toFinset.mp hid)
  exact (hinv.recorded ev hev).alerted_iff hperm

/-- An entry of another id, and a timer that leaves it. -/
def liveCalls : List (Call ℕ) :=
  [.feed .two { id := 1, price := 5, size := 1, ts := 2 }, .timer 4]

/-- Three executions of id 7, of which the last in time comes first, and two equal ones of id 8. -/
def freshEvents : List (Event ℕ) :=
  [⟨.one, { id := 7, price := 100, size := 1, ts := 14 }⟩,
   ⟨.three, { id := 8, price := 50, size := 2, ts := 6 }⟩,
   ⟨.two, { id := 7, price := 100, size := 1, ts := 5 }⟩,
   ⟨.three, { id := 7, price := 101, size := 1, ts := 9 }⟩,
   ⟨.one, { id := 8, price := 50, size := 2, ts := 12 }⟩]

theorem alerts_complete_two_ids :
    ((eventIds freshEvents).filter (Differ freshEvents)).card = 1 ∧
    (after 10 (liveCalls ++ freshEvents.reverse.map Event.call)).alerts
      = (after 10 liveCalls).alerts
        + UInt64.ofNat ((eventIds freshEvents).filter (Differ freshEvents)).card :=
  ⟨by decide, alerts_complete ⟨by decide, by decide, by decide, by decide, by decide⟩ _
    (List.reverse_perm _)⟩

end LearnCpp.Reconciler.UnorderedScan
