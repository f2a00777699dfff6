/-
# `LearnCpp.Reconciler.Injected` — every alert is paid for by an odd event

Call some of the events odd, such that any two events of one id that are not odd
agree.  Then a run of `ReconcilerUnorderedScan` raises no more alerts than odd
events were fed to it, whatever the timers do and whatever order the events are in.

An entry is *waiting* while it stores an odd event and has not alerted.  Only a
waiting entry can alert, and then it waits no more.  So with every call

    alerts()  +  waiting entries   ≤   odd events fed so far

since an event makes at most its own entry waiting, and an entry that was not
waiting before it only if the event is odd itself.
-/
import LearnCpp.Reconciler.UnorderedScan

namespace LearnCpp.Reconciler.UnorderedScan

open Lib

variable {P : Type}

/-- The entry stores an odd event, and its alert is not out. -/
def Waiting (odd : Event P → Prop) (ent : Entry P) : Prop :=
  ent.alerted = false ∧ ∃ g x, ent.get g = some x ∧ odd ⟨g, x⟩

/-- The entry of this id is waiting. -/
def WaitsAt (odd : Event P → Prop) (s : State P) (id : UInt64) : Prop :=
  ∃ ent, s.byId id = some ent ∧ Waiting odd ent

variable [BEq P] {odd : Event P → Prop} {W : UInt64} {f : Feed} {exec : Execution P}

/-- Two events of one id agree, unless one of them is odd. -/
def OddOnly (odd : Event P → Prop) (events : List (Event P)) : Prop :=
  ∀ a ∈ events, ∀ b ∈ events, ¬ odd a → ¬ odd b → a.exec.id = b.exec.id →
    eqExec a.exec b.exec = true

theorem receive_get (ent : Entry P) (g : Feed) :
    (ent.receive W f exec).1.get g = if g = f then some exec else ent.get g :=
  Feeds.get_store _ f g exec

omit [BEq P] in
theorem live_of_get {old : Option (Entry P)} {g : Feed} {x : Execution P}
    (hx : (old.getD {}).get g = some x) : ∃ ent, old = some ent ∧ ent.get g = some x := by
  cases old with
  | none => cases (Feeds.get_default g).symm.trans hx
  | some ent => exact ⟨ent, rfl, hx⟩

theorem waitsAt_of_receive {s : State P} (hodd : ¬ odd ⟨f, exec⟩)
    (h : Waiting odd (((s.byId exec.id).getD {}).receive W f exec).1) : WaitsAt odd s exec.id := by
  obtain ⟨halerted, g, x, hx, hxodd⟩ := h
  rw [Entry.receive_alerted, Bool.or_eq_false_iff] at halerted
  rw [receive_get] at hx
  split at hx
  next hg =>
    obtain rfl := Option.some.inj hx
    exact absurd (hg ▸ hxodd) hodd
  next =>
    obtain ⟨ent, hent, hget⟩ := live_of_get hx
    rw [hent, Option.getD_some] at halerted
    exact ⟨ent, hent, halerted.1, g, x, hget, hxodd⟩

/-! ## What is stored, and what is paid -/

/-- What holds after the calls of `pre`. -/
structure Paid (odd : Event P → Prop) [DecidablePred odd] (pre : List (Call P)) (s : State P) :
    Prop where
  stored : ∀ id ent g x, s.byId id = some ent → ent.get g = some x →
    x.id = id ∧ ⟨g, x⟩ ∈ pre.filterMap Call.event
  paid : ∃ waiting : Finset UInt64, (∀ id, WaitsAt odd s id → id ∈ waiting) ∧
    s.alerts.toNat + waiting.card ≤ (pre.filterMap Call.event).countP odd

variable [DecidablePred odd] {pre : List (Call P)} {s : State P}

/-- An entry that alerts was waiting, or the event is odd. -/
theorem Paid.hit (h : Paid odd pre s)
    (hodd : OddOnly odd ((pre ++ [Call.feed f exec]).filterMap Call.event))
    (hhit : (((s.byId exec.id).getD {}).receive W f exec).2 = true) :
    WaitsAt odd s exec.id ∨ odd ⟨f, exec⟩ := by
  obtain ⟨halerted, hmis, -⟩ := (Entry.receive_hit W f exec _).mp hhit
  obtain ⟨g₁, g₂, x, y, -, hx, hy, hxy⟩ := Feeds.anyMismatch_iff.mp hmis
  -- what the entry stores now was fed, and is the new event or was stored before
  have hfed : ∀ {g z}, (((s.byId exec.id).getD {}).receive W f exec).1.get g = some z →
      (z.id = exec.id ∧ ⟨g, z⟩ ∈ (pre ++ [Call.feed f exec]).filterMap Call.event) ∧
        (odd ⟨g, z⟩ → WaitsAt odd s exec.id ∨ odd ⟨f, exec⟩) := by
    intro g z hz
    rw [List.filterMap_append]
    rw [receive_get] at hz
    split at hz
    next hg =>
      obtain rfl := Option.some.inj hz
      subst hg
      exact ⟨⟨rfl, List.mem_append_right _ List.mem_cons_self⟩, Or.inr⟩
    next =>
      obtain ⟨ent, hent, hget⟩ := live_of_get hz
      obtain ⟨hid, hmem⟩ := h.stored _ ent g z hent hget
      rw [hent, Option.getD_some] at halerted
      exact ⟨⟨hid, List.mem_append_left _ hmem⟩,
        fun hzodd => Or.inl ⟨ent, hent, halerted, g, z, hget, hzodd⟩⟩
  obtain ⟨⟨hidx, hmemx⟩, hoddx⟩ := hfed hx
  obtain ⟨⟨hidy, hmemy⟩, hoddy⟩ := hfed hy
  by_contra hnone
  have hagree := hodd _ hmemx _ hmemy (fun hzodd => hnone (hoddx hzodd))
    (fun hzodd => hnone (hoddy hzodd)) (hidx.trans hidy.symm)
  rw [hxy] at hagree
  cases hagree

omit [BEq P] in
theorem Paid.skip (h : Paid odd pre s) (c : Call P) : Paid odd (pre ++ [c]) s where
  stored := fun id ent g x hent hx => by
    rw [List.filterMap_append]
    exact (h.stored id ent g x hent hx).imp_right (List.mem_append_left _)
  paid := by
    obtain ⟨waiting, hall, hle⟩ := h.paid
    refine ⟨waiting, hall, hle.trans ?_⟩
    rw [List.filterMap_append, List.countP_append]
    exact Nat.le_add_right _ _

omit [BEq P] in
theorem Paid.timer (h : Paid odd pre s) (now : UInt64) :
    Paid odd (pre ++ [.timer now]) (onTimer W now s) := by
  have hkept : ∀ {id ent}, (onTimer W now s).byId id = some ent → s.byId id = some ent :=
    fun hent => (Option.filter_eq_some_iff.mp hent).1
  have hskip := h.skip (.timer now)
  refine ⟨fun id ent g x hent => hskip.stored id ent g x (hkept hent), ?_⟩
  obtain ⟨waiting, hall, hle⟩ := hskip.paid
  exact ⟨waiting, fun id ⟨ent, hent, hwait⟩ => hall id ⟨ent, hkept hent, hwait⟩, hle⟩

theorem Paid.pays (h : Paid odd pre s)
    (hodd : OddOnly odd ((pre ++ [Call.feed f exec]).filterMap Call.event)) {r : Entry P × Bool}
    (hr : ((s.byId exec.id).getD {}).receive W f exec = r) :
    ∃ waiting : Finset UInt64,
      (∀ id, (id = exec.id ∧ Waiting odd r.1 ∨ id ≠ exec.id ∧ WaitsAt odd s id) → id ∈ waiting) ∧
      (if r.2 then s.alerts + 1 else s.alerts).toNat + waiting.card
        ≤ (pre.filterMap Call.event).countP odd + if odd ⟨f, exec⟩ then 1 else 0 := by
  have hhit := h.hit (W := W) hodd
  have hreceive := @waitsAt_of_receive P _ odd W f exec s
  obtain ⟨waiting, hall, hle⟩ := h.paid
  rw [hr] at hhit hreceive
  by_cases hr2 : r.2 = true
  · rw [if_pos hr2]
    -- the entry has alerted, so it does not wait
    have hspent : ¬ Waiting odd r.1 := by
      rintro ⟨hno, -⟩
      rw [← hr, Entry.receive_alerted, hr, hr2, Bool.or_true] at hno
      cases hno
    have hsucc : (s.alerts + 1).toNat ≤ s.alerts.toNat + 1 := by
      rw [UInt64.toNat_add]
      exact Nat.mod_le _ _
    rcases hhit hr2 with hwaits | hnew
    · refine ⟨waiting.erase exec.id, fun id hid => ?_, ?_⟩
      · obtain ⟨hne, hold⟩ := hid.resolve_left fun hself => hspent hself.2
        exact Finset.mem_erase.mpr ⟨hne, hall id hold⟩
      · have hcard := Finset.card_erase_add_one (hall _ hwaits)
        omega
    · refine ⟨waiting, fun id hid => ?_, ?_⟩
      · exact hall id (hid.resolve_left fun hself => hspent hself.2).2
      · rw [if_pos hnew]
        omega
  · rw [if_neg hr2]
    by_cases hnew : odd ⟨f, exec⟩
    · refine ⟨insert exec.id waiting, fun id hid => ?_, ?_⟩
      · rcases hid with ⟨rfl, -⟩ | ⟨-, hold⟩
        · exact Finset.mem_insert_self _ _
        · exact Finset.mem_insert_of_mem (hall id hold)
      · have hcard := Finset.card_insert_le exec.id waiting
        rw [if_pos hnew]
        omega
    · refine ⟨waiting, fun id hid => ?_, ?_⟩
      · rcases hid with ⟨rfl, hwait⟩ | ⟨-, hold⟩
        · exact hall _ (hreceive hnew hwait)
        · exact hall id hold
      · rw [if_neg hnew]
        exact hle

theorem Paid.feed (h : Paid odd pre s)
    (hodd : OddOnly odd ((pre ++ [Call.feed f exec]).filterMap Call.event)) :
    Paid odd (pre ++ [.feed f exec]) (onFeed W f exec s) := by
  rw [onFeed]
  split
  next => exact h.skip _
  next =>
    obtain ⟨r, hr⟩ : ∃ r, ((s.byId exec.id).getD {}).receive W f exec = r := ⟨_, rfl⟩
    obtain ⟨waiting, hall, hle⟩ := h.pays hodd hr
    rw [hr]
    refine ⟨fun id ent g x hent hx => ?_, waiting, ?_, ?_⟩
    · rw [List.filterMap_append]
      rcases update_eq_some.mp hent with ⟨rfl, rfl⟩ | ⟨-, hold⟩
      · rw [← hr, receive_get] at hx
        split at hx
        next hg =>
          obtain rfl := Option.some.inj hx
          subst hg
          exact ⟨rfl, List.mem_append_right _ List.mem_cons_self⟩
        next =>
          obtain ⟨ent, hent, hget⟩ := live_of_get hx
          exact (h.stored _ ent g x hent hget).imp_right (List.mem_append_left _)
      · exact (h.stored id ent g x hold hx).imp_right (List.mem_append_left _)
    · rintro id ⟨ent, hent, hwait⟩
      rcases update_eq_some.mp hent with ⟨rfl, rfl⟩ | ⟨hne, hold⟩
      · exact hall _ (Or.inl ⟨rfl, hwait⟩)
      · exact hall id (Or.inr ⟨hne, ent, hold, hwait⟩)
    · refine hle.trans (Nat.le_of_eq ?_)
      simp [List.filterMap_append, Call.event, List.countP_cons]

/-- **Alerts are paid for.**  If events of one id agree unless one of them is odd, no more
alerts are raised than odd events are fed. -/
theorem alerts_le_odd {calls : List (Call P)} (hodd : OddOnly odd (calls.filterMap Call.event)) :
    (after W calls).alerts.toNat ≤ (calls.filterMap Call.event).countP odd := by
  have hpaid : Paid odd calls (after W calls) := by
    refine exec_rule (Paid odd) ⟨?_, ∅, ?_, ?_⟩ ?_ calls List.prefix_rfl
    · intro _ _ _ _ hent
      cases hent
    · rintro id ⟨ent, hent, -⟩
      cases hent
    · exact Nat.le_refl 0
    · rintro pre c hp h
      cases c with
      | timer now => exact h.timer now
      | feed f exec =>
          have hsub := (hp.sublist.filterMap Call.event).subset
          exact h.feed fun a ha b hb => hodd a (hsub ha) b (hsub hb)
  obtain ⟨waiting, -, hle⟩ := hpaid.paid
  omega

end LearnCpp.Reconciler.UnorderedScan
