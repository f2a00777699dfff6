/-
# `LearnCpp.Reconciler.Alerts` — what an alert means

Two facts about `ReconcilerUnorderedScan`, for events in order of time and
timers at any points and with any values.

*Where an alert comes from.*  The executions that an entry stores were accepted,
are of its id, and arrived between its `first_ts` and now (`Stored`).  An alert
is raised only before `first_ts + window_width`, so any two of them are less than
one window apart.

*Between two alerts.*  An alert sets the `alerted` flag of its entry, and nothing
resets it: the next alert for the id needs a new entry, so a timer must have
evicted the old one.
-/
import LearnCpp.Reconciler.UnorderedScan

namespace LearnCpp.Reconciler.UnorderedScan

open Lib

variable {P : Type} [BEq P]

/-- An execution was fed and not dropped as late. -/
def Accepted (W : UInt64) (calls : List (Call P)) (f : Feed) (exec : Execution P) : Prop :=
  ∃ pre, pre ++ [.feed f exec] <+: calls ∧ late W exec.ts (lastTimer pre) = false

/-- Events come in order of time, none at time 0, and no window end wraps. -/
structure Chronological (W : UInt64) (calls : List (Call P)) : Prop where
  sorted : (calls.filterMap Call.event).Pairwise fun a b => a.exec.ts ≤ b.exec.ts
  pos : ∀ ev ∈ calls.filterMap Call.event, 1 ≤ ev.exec.ts
  noWrap : ∀ ev ∈ calls.filterMap Call.event, ev.exec.ts.toNat + W.toNat < 2 ^ 64

/-- The call after `pre` changes `alerts()`. -/
def Raises (W : UInt64) (pre : List (Call P)) (c : Call P) : Prop :=
  (after W (pre ++ [c])).alerts ≠ (after W pre).alerts

/-- The entry of the id stores two accepted executions of it, from different
feeds, that differ in price or size and lie less than a window apart. -/
def Conflict (W : UInt64) (calls : List (Call P)) (id : UInt64) : Prop :=
  ∃ ent, (after W calls).byId id = some ent ∧ ∃ g₁ g₂ x y, g₁ ≠ g₂ ∧
    ent.get g₁ = some x ∧ ent.get g₂ = some y ∧
    Accepted W calls g₁ x ∧ Accepted W calls g₂ y ∧ x.id = id ∧ y.id = id ∧
    ((x.price == y.price) = false ∨ x.size ≠ y.size) ∧
    x.ts.toNat < y.ts.toNat + W.toNat ∧ y.ts.toNat < x.ts.toNat + W.toNat

/-- Some timer of `mid`, called after `pre`, evicts the id. -/
def EvictedWithin (W : UInt64) (pre mid : List (Call P)) (id : UInt64) : Prop :=
  ∃ m₁ now m₂, mid = m₁ ++ .timer now :: m₂ ∧ ((after W (pre ++ m₁)).byId id).isSome ∧
    (after W (pre ++ m₁ ++ [.timer now])).byId id = none

/-! ## What a feed call does -/

theorem after_feed {W : UInt64} {pre : List (Call P)} {f : Feed} {exec : Execution P}
    (h : late W exec.ts (lastTimer pre) = false) :
    let r := (((after W pre).byId exec.id).getD {}).receive W f exec
    (after W (pre ++ [.feed f exec])).byId
        = Function.update (after W pre).byId exec.id (some r.1) ∧
      (after W (pre ++ [.feed f exec])).alerts
        = if r.2 then (after W pre).alerts + 1 else (after W pre).alerts := by
  rw [← after_lastTimer W pre] at h
  rw [after_concat, step, onFeed, if_neg (by simp [h])]
  exact ⟨rfl, rfl⟩

theorem after_late {W : UInt64} {pre : List (Call P)} {f : Feed} {exec : Execution P}
    (h : late W exec.ts (lastTimer pre) = true) :
    after W (pre ++ [.feed f exec]) = after W pre := by
  rw [← after_lastTimer W pre] at h
  rw [after_concat, step, onFeed, if_pos h]

theorem Raises.hit {W : UInt64} {pre : List (Call P)} {c : Call P} (h : Raises W pre c) :
    ∃ f exec, c = .feed f exec ∧ late W exec.ts (lastTimer pre) = false ∧
      ((((after W pre).byId exec.id).getD {}).receive W f exec).2 = true := by
  cases c with
  | timer now => exact absurd (by rw [after_concat]; rfl) h
  | feed f exec =>
      cases hlate : late W exec.ts (lastTimer pre) with
      | true => exact absurd (congrArg State.alerts (after_late hlate)) h
      | false =>
          refine ⟨f, exec, rfl, hlate, ?_⟩
          by_contra hhit
          have halerts := (after_feed (f := f) hlate).2
          rw [if_neg hhit] at halerts
          exact h halerts

/-! ## What an entry stores -/

omit [BEq P] in
theorem Accepted.mono {W : UInt64} {calls calls' : List (Call P)} (hsub : calls <+: calls') {f : Feed}
    {exec : Execution P} (h : Accepted W calls f exec) : Accepted W calls' f exec :=
  let ⟨pre, hpre, hlate⟩ := h
  ⟨pre, hpre.trans hsub, hlate⟩

omit [BEq P] in
theorem Accepted.mem {W : UInt64} {calls : List (Call P)} {f : Feed} {exec : Execution P}
    (h : Accepted W calls f exec) : ⟨f, exec⟩ ∈ calls.filterMap Call.event :=
  let ⟨_, hpre, _⟩ := h
  List.mem_filterMap.mpr ⟨.feed f exec, hpre.subset (by simp), rfl⟩

omit [BEq P] in
theorem Chronological.le {W : UInt64} {calls pre : List (Call P)} (h : Chronological W calls)
    {f g : Feed} {exec x : Execution P} (hp : pre ++ [.feed f exec] <+: calls)
    (hx : Accepted W (pre ++ [.feed f exec]) g x) : x.ts ≤ exec.ts := by
  have hsorted : ((pre ++ [Call.feed f exec]).filterMap Call.event).Pairwise
      fun a b => a.exec.ts ≤ b.exec.ts :=
    h.sorted.sublist (hp.sublist.filterMap _)
  have hmem := hx.mem
  rw [List.filterMap_append] at hsorted hmem
  rcases List.mem_append.mp hmem with hold | hnew
  · exact (List.pairwise_append.mp hsorted).2.2 _ hold ⟨f, exec⟩ List.mem_cons_self
  · obtain ⟨rfl, rfl⟩ := Event.mk.inj (List.mem_singleton.mp hnew)
    exact UInt64.le_refl _

/-- `first_ts` is the timestamp of an accepted event, and what is stored was
accepted, is of this id, and is not earlier. -/
structure Stored (W : UInt64) (calls : List (Call P)) (id : UInt64) (ent : Entry P) : Prop where
  first : ∃ g x, Accepted W calls g x ∧ x.ts = ent.firstTs
  feeds : ∀ g x, ent.get g = some x → Accepted W calls g x ∧ x.id = id ∧ ent.firstTs ≤ x.ts

omit [BEq P] in
theorem Stored.mono {W : UInt64} {calls calls' : List (Call P)} (hsub : calls <+: calls') {id : UInt64}
    {ent : Entry P} (h : Stored W calls id ent) : Stored W calls' id ent :=
  let ⟨g, x, hx, hts⟩ := h.first
  ⟨⟨g, x, hx.mono hsub, hts⟩, fun g x hget => (h.feeds g x hget).imp_left (Accepted.mono hsub)⟩

theorem Stored.receive {W : UInt64} {calls pre : List (Call P)} (h : Chronological W calls) {f : Feed}
    {exec : Execution P} (hp : pre ++ [.feed f exec] <+: calls)
    (hlate : late W exec.ts (lastTimer pre) = false) {old : Option (Entry P)}
    (hold : ∀ ent, old = some ent → Stored W pre exec.id ent) :
    Stored W (pre ++ [.feed f exec]) exec.id ((old.getD {}).receive W f exec).1 := by
  have hacc : Accepted W (pre ++ [.feed f exec]) f exec := ⟨pre, List.prefix_refl _, hlate⟩
  have hget : ∀ g, (((old.getD {}).receive W f exec).1).get g
      = if g = f then some exec else (old.getD {}).get g :=
    fun g => Feeds.get_store _ f g exec
  cases old with
  | none =>
      -- a fresh entry is stamped with this event, and stores nothing else
      have hfirst : ((({} : Entry P).receive W f exec).1).firstTs = exec.ts := by
        simp [Entry.receive, Entry.stamp]
      refine ⟨⟨f, exec, hacc, hfirst.symm⟩, fun g x hx => ?_⟩
      rw [hget] at hx
      split at hx
      · next hg =>
          obtain rfl := Option.some.inj hx
          subst hg
          exact ⟨hacc, rfl, hfirst ▸ UInt64.le_refl _⟩
      · exact absurd hx (by rw [Option.getD_none, Feeds.get_default]; nofun)
  | some ent =>
      -- a live entry has a stamp already, since no event is at time 0
      obtain ⟨g₀, x₀, hx₀, hts₀⟩ := (hold ent rfl).first
      have hpos := h.pos _ (hx₀.mono (isPrefix_of_concat hp)).mem
      have hne : ent.firstTs ≠ 0 := by
        rw [← hts₀]
        rintro h0
        rw [h0] at hpos
        exact absurd hpos (by decide)
      have hfirst : ((ent.receive W f exec).1).firstTs = ent.firstTs := by
        simp [Entry.receive, Entry.stamp, hne]
      refine ⟨⟨g₀, x₀, hx₀.mono (List.prefix_append ..), hts₀.trans hfirst.symm⟩, fun g x hx => ?_⟩
      rw [hget] at hx
      rw [Option.getD_some, hfirst]
      split at hx
      · next hg =>
          obtain rfl := Option.some.inj hx
          subst hg
          exact ⟨hacc, rfl, hts₀ ▸ h.le hp (hx₀.mono (List.prefix_append ..))⟩
      · exact ((hold ent rfl).feeds g x hx).imp_left (Accepted.mono (List.prefix_append ..))

theorem after_stored {W : UInt64} {calls : List (Call P)} (h : Chronological W calls) :
    ∀ pre, pre <+: calls → ∀ id ent, (after W pre).byId id = some ent → Stored W pre id ent := by
  intro pre
  induction pre using List.reverseRecOn with
  | nil => exact fun _ _ _ h => nomatch h
  | append_singleton pre c ih =>
      intro hp id ent hent
      have ih := ih (isPrefix_of_concat hp)
      cases c with
      | timer now =>
          rw [after_concat, step, onTimer_byId, expire_eq_some] at hent
          exact (ih id ent hent.1).mono (List.prefix_append ..)
      | feed f exec =>
          cases hlate : late W exec.ts (lastTimer pre) with
          | true =>
              rw [after_late hlate] at hent
              exact (ih id ent hent).mono (List.prefix_append ..)
          | false =>
              rw [(after_feed hlate).1] at hent
              rcases update_eq_some.mp hent with ⟨rfl, rfl⟩ | ⟨-, hold⟩
              · exact Stored.receive h hp hlate (ih exec.id)
              · exact (ih id ent hold).mono (List.prefix_append ..)

/-- **Where an alert comes from.** -/
theorem Raises.conflict {W : UInt64} {calls pre : List (Call P)} {c : Call P}
    (h : Chronological W calls) (hp : pre ++ [c] <+: calls) (hraise : Raises W pre c) :
    (after W (pre ++ [c])).alerts = (after W pre).alerts + 1 ∧
      ∃ f exec, c = .feed f exec ∧ Conflict W (pre ++ [c]) exec.id := by
  obtain ⟨f, exec, rfl, hlate, hhit⟩ := hraise.hit
  obtain ⟨hbyId, halerts⟩ := after_feed (f := f) hlate
  refine ⟨by rw [halerts, if_pos hhit], f, exec, rfl, ?_⟩
  obtain ⟨ent, hent⟩ : ∃ ent, (((after W pre).byId exec.id).getD {}).receive W f exec = ent :=
    ⟨_, rfl⟩
  have hlive : (after W (pre ++ [.feed f exec])).byId exec.id = some ent.1 := by
    rw [hbyId, Function.update_self, hent]
  obtain ⟨⟨g₀, x₀, hx₀, hts₀⟩, hfeeds⟩ := after_stored h _ hp _ _ hlive
  have hdecide := (Entry.receive_hit W f exec (((after W pre).byId exec.id).getD {})).mp hhit
  rw [hent] at hdecide
  obtain ⟨-, hmis, hopen⟩ := hdecide
  obtain ⟨g₁, g₂, x, y, hbefore, hx, hy, hxy⟩ := Feeds.anyMismatch_iff.mp hmis
  obtain ⟨haccx, hidx, hlowx⟩ := hfeeds g₁ x hx
  obtain ⟨haccy, hidy, hlowy⟩ := hfeeds g₂ y hy
  -- both lie between the start of the window and this event, which is before its end
  have hend : exec.ts.toNat < ent.1.firstTs.toNat + W.toNat := by
    rwa [Entry.isExpired_eq_false, Entry.deadline, ← hts₀,
      toNat_windowEnd (h.noWrap _ (hx₀.mono hp).mem), hts₀] at hopen
  have hhighx := UInt64.le_iff_toNat_le.mp (h.le hp haccx)
  have hhighy := UInt64.le_iff_toNat_le.mp (h.le hp haccy)
  rw [UInt64.le_iff_toNat_le] at hlowx hlowy
  exact ⟨ent.1, hlive, g₁, g₂, x, y, Feed.ne_of_before hbefore, hx, hy, haccx, haccy, hidx, hidy,
    (eqExec_eq_false (hidx.trans hidy.symm)).mp hxy, by omega, by omega⟩

/-! ## Between two alerts -/

/-- The id is live and its entry has raised its alert. -/
def Spent (W : UInt64) (calls : List (Call P)) (id : UInt64) : Prop :=
  ∃ ent, (after W calls).byId id = some ent ∧ ent.alerted = true

theorem Raises.spent {W : UInt64} {pre : List (Call P)} {f : Feed} {exec : Execution P}
    (h : Raises W pre (.feed f exec)) : Spent W (pre ++ [.feed f exec]) exec.id := by
  obtain ⟨_, _, ⟨⟩, hlate, hhit⟩ := h.hit
  refine ⟨_, by rw [(after_feed hlate).1, Function.update_self], ?_⟩
  rw [Entry.receive_alerted, hhit, Bool.or_true]

theorem Spent.not_raises {W : UInt64} {pre : List (Call P)} {f : Feed} {exec : Execution P}
    (h : Spent W pre exec.id) : ¬ Raises W pre (.feed f exec) := by
  intro hraise
  obtain ⟨_, _, ⟨⟩, -, hhit⟩ := hraise.hit
  obtain ⟨ent, hent, halerted⟩ := h
  rw [hent, Option.getD_some] at hhit
  rw [((Entry.receive_hit ..).mp hhit).1] at halerted
  cases halerted

theorem Spent.step {W : UInt64} {pre : List (Call P)} {id : UInt64} (h : Spent W pre id) :
    ∀ c : Call P, Spent W (pre ++ [c]) id ∨
      ∃ now, c = .timer now ∧ (after W (pre ++ [c])).byId id = none := by
  obtain ⟨ent, hent, halerted⟩ := h
  intro c
  cases c with
  | timer now =>
      cases hnext : (after W (pre ++ [.timer now])).byId id with
      | none => exact Or.inr ⟨now, rfl, rfl⟩
      | some ent' =>
          refine Or.inl ⟨ent', hnext, ?_⟩
          rw [after_concat, UnorderedScan.step, onTimer_byId, expire_eq_some, hent,
            Option.some.injEq] at hnext
          exact hnext.1 ▸ halerted
  | feed f exec =>
      left
      cases hlate : late W exec.ts (lastTimer pre) with
      | true => exact ⟨ent, by rw [after_late hlate, hent], halerted⟩
      | false =>
          by_cases hid : id = exec.id
          · subst hid
            refine ⟨_, by rw [(after_feed hlate).1, Function.update_self], ?_⟩
            rw [Entry.receive_alerted, hent, Option.getD_some, halerted, Bool.true_or]
          · exact ⟨ent, by rw [(after_feed hlate).1, Function.update_of_ne hid, hent], halerted⟩

/-- A spent entry stays spent until a timer evicts it. -/
theorem Spent.run {W : UInt64} {pre : List (Call P)} {id : UInt64} (h : Spent W pre id)
    (mid : List (Call P)) : Spent W (pre ++ mid) id ∨ EvictedWithin W pre mid id := by
  induction mid using List.reverseRecOn with
  | nil => exact Or.inl (by rwa [List.append_nil])
  | append_singleton mid c ih =>
      rcases ih with hspent | ⟨m₁, now, m₂, rfl, hlive, hgone⟩
      · rcases hspent.step c with hspent' | ⟨now, rfl, hgone⟩
        · exact Or.inl (by rwa [← List.append_assoc])
        · obtain ⟨ent, hent, -⟩ := hspent
          exact Or.inr ⟨mid, now, [], rfl, by rw [hent]; rfl, hgone⟩
      · exact Or.inr ⟨m₁, now, m₂ ++ [c], by simp, hlive, hgone⟩

/-! ## Main result -/

/-- **Alerts are sound.**  With events in order of time and timers as they come,
every call that changes `alerts()` adds one to it, and is an event of an id with
a conflict; and between two alerts for one id a timer evicts that id. -/
theorem alerts_sound {W : UInt64} {calls : List (Call P)} (h : Chronological W calls) :
    (∀ pre c, pre ++ [c] <+: calls → Raises W pre c →
      (after W (pre ++ [c])).alerts = (after W pre).alerts + 1 ∧
        ∃ f exec, c = .feed f exec ∧ Conflict W (pre ++ [c]) exec.id) ∧
    ∀ pre f₁ e₁ mid f₂ e₂, pre ++ [.feed f₁ e₁] ++ mid ++ [.feed f₂ e₂] <+: calls →
      Raises W pre (.feed f₁ e₁) → Raises W (pre ++ [.feed f₁ e₁] ++ mid) (.feed f₂ e₂) →
      e₁.id = e₂.id → EvictedWithin W (pre ++ [.feed f₁ e₁]) mid e₁.id := by
  refine ⟨fun pre c hp hraise => hraise.conflict h hp, ?_⟩
  intro pre f₁ e₁ mid f₂ e₂ _ h₁ h₂ hid
  rcases h₁.spent.run mid with hspent | hevicted
  · exact absurd h₂ (hid ▸ hspent).not_raises
  · exact hevicted

/-- Two conflicts of one id, the window between them closed by a timer. -/
def twoAlertsCalls : List (Call ℕ) :=
  [.feed .one { id := 7, price := 100, size := 1, ts := 1 },
   .feed .two { id := 7, price := 101, size := 1, ts := 4 },
   .feed .three { id := 7, price := 102, size := 1, ts := 5 },
   .timer 11,
   .feed .one { id := 7, price := 100, size := 1, ts := 12 },
   .feed .two { id := 7, price := 100, size := 2, ts := 13 }]

theorem alerts_sound_two_alerts :
    (after 10 twoAlertsCalls).alerts = 2 ∧
    (∀ pre c, pre ++ [c] <+: twoAlertsCalls → Raises 10 pre c →
      (after 10 (pre ++ [c])).alerts = (after 10 pre).alerts + 1 ∧
        ∃ f exec, c = .feed f exec ∧ Conflict 10 (pre ++ [c]) exec.id) ∧
    ∀ pre f₁ e₁ mid f₂ e₂, pre ++ [.feed f₁ e₁] ++ mid ++ [.feed f₂ e₂] <+: twoAlertsCalls →
      Raises 10 pre (.feed f₁ e₁) → Raises 10 (pre ++ [.feed f₁ e₁] ++ mid) (.feed f₂ e₂) →
      e₁.id = e₂.id → EvictedWithin 10 (pre ++ [.feed f₁ e₁]) mid e₁.id :=
  ⟨by decide, alerts_sound ⟨by decide, by decide, by decide⟩⟩

end LearnCpp.Reconciler.UnorderedScan
