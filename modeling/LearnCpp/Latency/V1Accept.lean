/-
# `LearnCpp.Latency.V1Accept` — one accept for each report

`extras/latency/v1_epoll_pool_lockfree.cpp`: the listening socket is watched
edge-triggered, so `epoll_wait` reports it once for all connections that have
arrived since it was last reported.  The loop over the events takes one
connection for each report and does not ask for more.  What it leaves behind is

    backlog   −   (1 if an arrival is unreported)   −   (1 if a report is still to be handled)

A report and its accept leave this number alone, and so does an arrival that is
reported by itself.  An arrival on top of an unreported one adds one to it, and
no step takes it back.

The sockets of the clients are in the events too; what the loop does with their
payloads is the business of `LearnCpp.Latency.V1`.
-/
import LearnCpp.Lib.Schedule

namespace LearnCpp.Latency.V1Accept

open Lib

/-- An event of `epoll_wait`. -/
inductive Event where
  | listen
  | client (fd : ℕ)
  deriving DecidableEq

/-- Where `network_thread` is.  `events` are those it has still to look at. -/
inductive Place where
  /-- at `epoll_wait` -/
  | wait
  /-- at the head of the loop over the events -/
  | events (es : List Event)
  deriving DecidableEq

/-- Connections are numbered as they arrive.  `unreported` says that one has arrived
since the listening socket was last reported; `accepted` are those that the loop
has put under `epoll`. -/
structure State where
  place : Place := .wait
  arrived : ℕ := 0
  backlog : List ℕ := []
  unreported : Bool := false
  accepted : List ℕ := []
  deriving DecidableEq

inductive Action where
  /-- A client connects. -/
  | arrive
  /-- `epoll_wait` returns with the events `es`, or with none after its timeout. -/
  | epollWait (es : List Event)
  /-- The next event is handled, or the loop over the events ends and `g_running` holds. -/
  | handle
  deriving DecidableEq

/-- `accept4`, which fails when no connection is waiting. -/
def accept (s : State) : State :=
  match s.backlog with
  | conn :: backlog => { s with backlog := backlog, accepted := s.accepted ++ [conn] }
  | [] => s

/-- What `epoll_wait` can return: at most 32 events, and the listening socket at most
once and only if there is an arrival to report. -/
def Reportable (es : List Event) (s : State) : Prop :=
  es.length ≤ 32 ∧ es.count .listen ≤ 1 ∧ (.listen ∈ es → s.unreported = true)

instance (es : List Event) (s : State) : Decidable (Reportable es s) :=
  inferInstanceAs (Decidable (_ ∧ _ ∧ _))

def next : Action → State → Option State
  | .arrive, s =>
      some { s with
        arrived := s.arrived + 1, backlog := s.backlog ++ [s.arrived], unreported := true }
  | .epollWait es, s =>
      match s.place with
      | .wait =>
          if Reportable es s then
            some { s with place := .events es, unreported := s.unreported && !es.contains .listen }
          else none
      | .events _ => none
  | .handle, s =>
      match s.place with
      | .wait => none
      | .events [] => some { s with place := .wait }
      | .events (.listen :: es) => some (accept { s with place := .events es })
      | .events (.client _ :: es) => some { s with place := .events es }

def init : State := {}

/-- The loop waits for events, none of which will be an old connection. -/
def AllAccepted (s : State) : Prop :=
  s.place = .wait → s.unreported = false → s.backlog = []

/-- A connection arrives when all earlier ones have been reported, so each report is
that of one connection. -/
def ByItself : Action → State → Prop
  | .arrive, s => s.unreported = false
  | _, _ => True

/-! ## What is left behind -/

/-- The events that are still to be handled. -/
def Place.pending : Place → List Event
  | .wait => []
  | .events es => es

/-- The connections that a report, made or to come, stands for. -/
def State.covered (s : State) : ℕ := s.unreported.toNat + s.place.pending.count .listen

/-- Nothing is left behind. -/
def Covered (s : State) : Prop := s.backlog.length ≤ s.covered

section
variable {s s' : State}

theorem byItself_of_ne {a : Action} (ha : a ≠ .arrive) : ByItself a s := by
  cases a with
  | arrive => exact absurd rfl ha
  | epollWait es => trivial
  | handle => trivial

theorem accept_place : (accept s).place = s.place := by
  rw [accept]
  split
  next => rfl
  next => rfl

theorem accept_unreported : (accept s).unreported = s.unreported := by
  rw [accept]
  split
  next => rfl
  next => rfl

theorem length_accept : (accept s).backlog.length = s.backlog.length - 1 := by
  rw [accept]
  split
  next conn backlog heq => rw [heq, List.length_cons, Nat.add_sub_cancel]
  next heq => rw [heq, List.length_nil]

theorem covered_accept : (accept s).covered = s.covered := by
  rw [State.covered, State.covered, accept_place, accept_unreported]

theorem covered_report {es : List Event} (h : Reportable es s) :
    (s.unreported && !es.contains .listen).toNat + es.count .listen = s.unreported.toNat := by
  obtain ⟨-, hone, hreport⟩ := h
  by_cases hmem : Event.listen ∈ es
  · have hcount : es.count .listen = 1 := le_antisymm hone (List.count_pos_iff.mpr hmem)
    have hcontains : es.contains Event.listen = true := List.contains_iff_mem.mpr hmem
    rw [hcount, hreport hmem, hcontains]
    rfl
  · have hcontains : es.contains Event.listen = false := by
      rw [← Bool.not_eq_true, List.contains_iff_mem]
      exact hmem
    rw [List.count_eq_zero_of_not_mem hmem, hcontains, Bool.not_false, Bool.and_true, Nat.add_zero]

/-- What a step does to the backlog and to what covers it: an arrival adds to the
backlog, and covers it if it is by itself; an accept takes from both; and the other
steps leave both alone. -/
theorem next_cases {a : Action} (h : next a s = some s') :
    (a = .arrive ∧ s'.backlog.length = s.backlog.length + 1 ∧
      s'.covered + s.unreported.toNat = s.covered + 1) ∨
    (a ≠ .arrive ∧ s'.backlog.length = s.backlog.length ∧ s'.covered = s.covered) ∨
    (a ≠ .arrive ∧ s'.backlog.length = s.backlog.length - 1 ∧ s.covered = s'.covered + 1) := by
  cases a with
  | arrive =>
      obtain rfl := Option.some.inj h
      refine Or.inl ⟨rfl, List.length_append, ?_⟩
      show 1 + s.place.pending.count .listen + s.unreported.toNat = s.covered + 1
      rw [State.covered]
      omega
  | epollWait es =>
      refine Or.inr (Or.inl ⟨Action.noConfusion, ?_⟩)
      rw [next] at h
      split at h
      next hwait =>
        split at h
        next hreport =>
          obtain rfl := Option.some.inj h
          have hcovered := covered_report hreport
          refine ⟨rfl, ?_⟩
          rw [State.covered, State.covered, hwait]
          exact hcovered
        next => cases h
      next => cases h
  | handle =>
      rw [next] at h
      split at h
      next => cases h
      next hplace =>
        obtain rfl := Option.some.inj h
        refine Or.inr (Or.inl ⟨Action.noConfusion, rfl, ?_⟩)
        rw [State.covered, State.covered, hplace]
        rfl
      next es hplace =>
        obtain rfl := Option.some.inj h
        refine Or.inr (Or.inr ⟨Action.noConfusion, length_accept, ?_⟩)
        rw [covered_accept, State.covered, State.covered, hplace]
        show _ + (Event.listen :: es).count .listen = _ + es.count .listen + 1
        rw [List.count_cons_self, Nat.add_assoc]
      next fd es hplace =>
        obtain rfl := Option.some.inj h
        refine Or.inr (Or.inl ⟨Action.noConfusion, rfl, ?_⟩)
        rw [State.covered, State.covered, hplace]
        show _ + es.count .listen = _ + (Event.client fd :: es).count .listen
        rw [List.count_cons_of_ne Event.noConfusion]

theorem covered_next {a : Action} (h : Covered s) (hstep : next a s = some s') (ha : a ≠ .arrive) :
    Covered s' := by
  rw [Covered] at h ⊢
  obtain ⟨harrive, -⟩ | ⟨-, hlen, hcovered⟩ | ⟨-, hlen, hcovered⟩ := next_cases hstep
  · exact absurd harrive ha
  · omega
  · omega

theorem not_covered_next {a : Action} (h : ¬ Covered s) (hstep : next a s = some s') :
    ¬ Covered s' := by
  have hle : s.unreported.toNat ≤ 1 := Bool.toNat_le s.unreported
  rw [Covered] at h ⊢
  obtain ⟨-, hlen, hcovered⟩ | ⟨-, hlen, hcovered⟩ | ⟨-, hlen, hcovered⟩ := next_cases hstep
  · omega
  · omega
  · omega

theorem Covered.allAccepted (h : Covered s) : AllAccepted s := by
  intro hwait hunreported
  rw [Covered, State.covered, hwait, hunreported] at h
  exact List.length_eq_zero_iff.mp (Nat.le_zero.mp h)

theorem covered_iff_byItself (as : List Action) :
    Covered (schedule next as init) ↔ EachStep next init as ByItself := by
  rw [← always_iff_last fun a s s' h => not_covered_next h]
  refine always_iff (fun s => s.backlog.length = s.covered) rfl (fun s h => le_of_eq h) ?_ ?_
  · intro a s s' h hstep hok
    obtain ⟨rfl, hlen, hcovered⟩ | ⟨-, hlen, hcovered⟩ | ⟨-, hlen, hcovered⟩ := next_cases hstep
    · have hself : s.unreported = false := hok
      rw [hself, Bool.toNat_false] at hcovered
      omega
    · omega
    · omega
  · intro a s s' h hstep hnot
    obtain ⟨rfl, hlen, hcovered⟩ | ⟨ha, -⟩ | ⟨ha, -⟩ := next_cases hstep
    · have hself : s.unreported = true := by
        rw [← Bool.not_eq_false]
        exact hnot
      rw [hself, Bool.toNat_true] at hcovered
      rw [Covered]
      omega
    · exact absurd (byItself_of_ne ha) hnot
    · exact absurd (byItself_of_ne ha) hnot

end

/-! ## The loop comes back to `epoll_wait` -/

theorem exists_wait : ∀ (es : List Event) (s : State), s.place = .events es →
    ∃ as, Action.arrive ∉ as ∧ (schedule next as s).place = .wait ∧
      (schedule next as s).unreported = s.unreported
  | [], s, hplace => by
      have hstep : next .handle s = some { s with place := .wait } := by rw [next, hplace]
      refine ⟨[.handle], by simp, ?_⟩
      rw [schedule_cons_of_some hstep]
      exact ⟨rfl, rfl⟩
  | e :: es, s, hplace => by
      obtain ⟨s', hstep, hplace', hunreported⟩ : ∃ s', next .handle s = some s' ∧
          s'.place = .events es ∧ s'.unreported = s.unreported := by
        cases e with
        | listen =>
            exact ⟨accept { s with place := .events es }, by rw [next, hplace], accept_place,
              accept_unreported⟩
        | client fd => exact ⟨{ s with place := .events es }, by rw [next, hplace], rfl, rfl⟩
      obtain ⟨as, harrive, hwait, hrest⟩ := exists_wait es s' hplace'
      refine ⟨.handle :: as, by simp [harrive], ?_⟩
      rw [schedule_cons_of_some hstep]
      exact ⟨hwait, hrest.trans hunreported⟩

theorem exists_quiet_of_wait (s : State) (hwait : s.place = .wait) :
    ∃ as, Action.arrive ∉ as ∧ (schedule next as s).place = .wait ∧
      (schedule next as s).unreported = false := by
  cases hunreported : s.unreported with
  | false => exact ⟨[], List.not_mem_nil, hwait, hunreported⟩
  | true =>
      have hreport : Reportable [.listen] s := ⟨by decide, by decide, fun _ => hunreported⟩
      have hstep : next (.epollWait [.listen]) s =
          some { s with place := .events [.listen], unreported := false } := by
        rw [next, hwait]
        simp [hreport]
      obtain ⟨as, harrive, hback, hquiet⟩ :=
        exists_wait [.listen] { s with place := .events [.listen], unreported := false } rfl
      refine ⟨.epollWait [.listen] :: as, by simp [harrive], ?_⟩
      rw [schedule_cons_of_some hstep]
      exact ⟨hback, hquiet⟩

/-- Without another arrival, the loop comes to wait with nothing to report. -/
theorem exists_quiet (s : State) :
    ∃ as, Action.arrive ∉ as ∧ (schedule next as s).place = .wait ∧
      (schedule next as s).unreported = false := by
  cases hplace : s.place with
  | wait => exact exists_quiet_of_wait s hplace
  | events es =>
      obtain ⟨as, harrive, hwait, -⟩ := exists_wait es s hplace
      obtain ⟨bs, harrive', hwait', hquiet⟩ := exists_quiet_of_wait _ hwait
      refine ⟨as ++ bs, by simp [harrive, harrive'], ?_⟩
      rw [schedule_append]
      exact ⟨hwait', hquiet⟩

theorem covered_schedule {s : State} (h : Covered s) : ∀ {as : List Action}, Action.arrive ∉ as →
    Covered (schedule next as s) := by
  intro as
  induction as using List.reverseRecOn with
  | nil => exact fun _ => h
  | append_singleton as a ih =>
      intro harrive
      rw [List.mem_append, not_or] at harrive
      rw [schedule_concat]
      exact attempt_keeps (ih harrive.1) fun s' hstep => covered_next (ih harrive.1) hstep
        fun ha => harrive.2 (List.mem_singleton.mpr ha.symm)

theorem not_covered_schedule {s : State} (h : ¬ Covered s) (as : List Action) :
    ¬ Covered (schedule next as s) :=
  schedule_rule (fun s => ¬ Covered s) h (fun _ _ _ h => not_covered_next h) as

/-- **The loop waits with no connection in the backlog**, all along a schedule and
however it goes on without another arrival, just when every connection arrives by
itself. -/
theorem allAccepted_iff (as : List Action) :
    (∀ post, Action.arrive ∉ post → Always next init (as ++ post) AllAccepted) ↔
      EachStep next init as ByItself := by
  rw [← covered_iff_byItself]
  constructor
  · intro hall
    by_contra hnot
    -- the loop comes to wait, and the connection that was left behind is still there
    obtain ⟨post, harrive, hwait, hquiet⟩ := exists_quiet (schedule next as init)
    have hempty := hall post harrive (as ++ post) (List.prefix_refl _)
    rw [schedule_append] at hempty
    refine not_covered_schedule hnot post ?_
    rw [Covered, hempty hwait hquiet]
    exact Nat.zero_le _
  · intro hcovered post harrive pre hpre
    refine Covered.allAccepted ?_
    rcases List.prefix_or_prefix_of_prefix hpre (List.prefix_append as post) with hbefore | ⟨bs, rfl⟩
    · obtain ⟨rest, rfl⟩ := hbefore
      by_contra hnot
      rw [schedule_append] at hcovered
      exact not_covered_schedule hnot rest hcovered
    · rw [schedule_append]
      have hbs : bs <+: post := (List.prefix_append_right_inj as).mp hpre
      exact covered_schedule hcovered fun hmem => harrive (hbs.subset hmem)

/-- Two clients connect before the loop comes to look. -/
def twoArrivals : List Action := [.arrive, .arrive, .epollWait [.listen], .handle, .handle]

/-- One report, one accept: the loop waits, and the second client does too. -/
theorem not_allAccepted : ¬ ∀ as, Always next init as AllAccepted := by
  intro h
  have hempty := h twoArrivals twoArrivals (List.prefix_refl _)
  exact absurd (hempty rfl rfl) (by decide)

end LearnCpp.Latency.V1Accept
