/-
# `LearnCpp.Reconciler.Table` — the table that `main` prints

`main` runs the eight classes over one workload and prints the alerts of each.
The column should hold one number eight times, and it does: the comparisons of the
single classes meet here, on the events of `makeWorkload`, where each of them needs
something else of the events.

    VectorScan, UnorderedHeap               nothing
    DirectIndexHeap                         no event at time 0
    DirectIndexWheel, FlatHashWheel         calls paced as `runBench` paces them
    FlatHashHeap, FlatHashWheel             the id 1 is not drawn

The last one is a real exception: the draw starts at 1, and 1 is the key that the
flat tables keep for erased slots.  That number is also bounded by the mismatches
that the workload injected.
-/
import LearnCpp.Reconciler.VectorScan
import LearnCpp.Reconciler.FlatHashHeap
import LearnCpp.Reconciler.FlatHashWheel
import LearnCpp.Reconciler.DirectIndexWheel
import LearnCpp.Reconciler.Injected
import LearnCpp.Reconciler.Workload

namespace LearnCpp.Reconciler

open Lib

variable {P : Type} [BEq P]

/-! ## The class that reserves

`ReconcilerUnorderedHeapReserved` is `ReconcilerUnorderedHeap` line by line; its
constructor also calls `reserve` and `max_load_factor`, which change no lookup. -/

namespace UnorderedHeapReserved

variable (pq : MinQueue Exp Exp.due)

/-- `by_id_.reserve(expected_ids * 2); by_id_.max_load_factor(0.7f);` -/
def construct (P : Type) (_expectedIds : UInt64) : UnorderedHeap.State P pq := {}

def onTimer (now : UInt64) : UnorderedHeap.State P pq → UnorderedHeap.State P pq :=
  UnorderedHeap.onTimer pq now

def onFeed (W : UInt64) (f : Feed) (exec : Execution P) :
    UnorderedHeap.State P pq → UnorderedHeap.State P pq :=
  UnorderedHeap.onFeed pq W f exec

/-- One call. -/
def step (W : UInt64) : Call P → UnorderedHeap.State P pq → UnorderedHeap.State P pq
  | .feed f exec => onFeed pq W f exec
  | .timer now => onTimer pq now

/-- The state after a sequence of calls on a freshly constructed object. -/
def after (W expectedIds : UInt64) (calls : List (Call P)) : UnorderedHeap.State P pq :=
  exec (step pq W) calls (construct pq P expectedIds)

theorem after_eq (W expectedIds : UInt64) (calls : List (Call P)) :
    after pq W expectedIds calls = UnorderedHeap.after pq W calls := by
  have hstep : step (P := P) pq W = UnorderedHeap.step pq W := by
    funext c
    cases c <;> rfl
  rw [after, hstep]
  rfl

end UnorderedHeapReserved

/-! ## The table -/

/-- `runBench`: drive a class with the calls, and return its alerts; `none` if it does not return. -/
def runBench (W : UInt64) (events : List (Event P)) (alertsAfter : List (Call P) → Option UInt64) :
    Option UInt64 :=
  (benchCalls W events).bind alertsAfter

/-- The classes that `main` compares, in its order. -/
inductive Impl where
  | vectorScan
  | unorderedScan
  | unorderedHeap
  | unorderedHeapReserved
  | flatHashHeap
  | flatHashWheel
  | directIndexWheel
  | directIndexHeap
  deriving DecidableEq, Repr

/-- The classes that keep the entries in a flat table. -/
def Impl.flat : Impl → Bool
  | .flatHashHeap => true
  | .flatHashWheel => true
  | _ => false

/-- `alerts()` of each class, constructed as `main` does, after a sequence of calls. -/
def Impl.alertsAfter (pq : MinQueue Exp Exp.due) (W distinctIds tickMod : UInt64)
    (calls : List (Call P)) : Impl → Option UInt64
  | .vectorScan => (run (VectorScan.step W) calls {}).map VectorScan.State.alerts
  | .unorderedScan => some (UnorderedScan.after W calls).alerts
  | .unorderedHeap => some (UnorderedHeap.after pq W calls).alerts
  | .unorderedHeapReserved => some (UnorderedHeapReserved.after pq W distinctIds calls).alerts
  | .flatHashHeap => (FlatHashHeap.after pq mix W distinctIds calls).map FlatHashHeap.State.alerts
  | .flatHashWheel =>
      (FlatHashWheel.after mix W tickMod distinctIds calls).map FlatHashWheel.State.alerts
  | .directIndexWheel =>
      (DirectIndexWheel.after W (distinctIds + 5) tickMod calls).map DirectIndexWheel.State.alerts
  | .directIndexHeap =>
      (DirectIndexHeap.after pq W (distinctIds + 5) calls).map DirectIndexHeap.State.alerts

/-- `benchOne`: the number that a row of the table shows. -/
def Impl.benchOne (pq : MinQueue Exp Exp.due) (W distinctIds tickMod : UInt64)
    (events : List (Event P)) (impl : Impl) : Option UInt64 :=
  runBench W events fun calls => impl.alertsAfter pq W distinctIds tickMod calls

/-! ## No event at time 0 -/

theorem UnorderedScan.lastTs_ne_zero {W : UInt64} {calls : List (Call P)}
    (hpos : ∀ c ∈ calls, ∀ f exec, c = .feed f exec → exec.ts ≠ 0) :
    ∀ id ent, (UnorderedScan.after W calls).byId id = some ent → ent.lastTs ≠ 0 := by
  refine exec_rule_of (fun s : UnorderedScan.State P => ∀ id ent, s.byId id = some ent → ent.lastTs ≠ 0)
    hpos (fun _ _ h => by cases h) ?_
  intro c s hc hs id ent hent
  cases c with
  | timer now => exact hs id ent (Option.filter_eq_some_iff.mp hent).1
  | feed f exec =>
      rw [UnorderedScan.step, UnorderedScan.onFeed] at hent
      split at hent
      next => exact hs id ent hent
      next =>
        rcases update_eq_some.mp hent with ⟨rfl, rfl⟩ | ⟨-, hold⟩
        · exact hc f exec rfl
        · exact hs id ent hold

theorem DirectIndexHeap.not_reAnchors (pq : MinQueue Exp Exp.due) {W : UInt64} {calls : List (Call P)}
    (hpos : ∀ c ∈ calls, ∀ f exec, c = .feed f exec → exec.ts ≠ 0) (exec : Execution P) :
    ¬ DirectIndexHeap.ReAnchors W exec (UnorderedHeap.after pq W calls) := by
  rintro ⟨-, -, ent, hent, -, hlast⟩
  have hsim := (UnorderedHeap.after_sim pq W calls).byId exec.id
  rw [hent] at hsim
  exact UnorderedScan.lastTs_ne_zero hpos exec.id ent.toEntry hsim.symm hlast

/-! ## The rows -/

section
variable (pq : MinQueue Exp Exp.due) {W distinctIds tickMod : UInt64} {calls : List (Call P)}

/-- What the table needs of the calls that `runBench` makes. -/
structure Drives (W distinctIds : UInt64) (calls : List (Call P)) : Prop where
  paced : Paced W 0 calls
  range : ∀ id ∈ fedIds calls, 1 ≤ id ∧ id ≤ distinctIds
  pos : ∀ c ∈ calls, ∀ f exec, c = .feed f exec → exec.ts ≠ 0

/-- The classes without a flat table return the alerts of the scan. -/
theorem Drives.alerts (h : Drives W distinctIds calls) (hW : 1 ≤ W)
    (hmod : 2 * W.toNat ≤ tickMod.toNat) (hexp : distinctIds.toNat < 2 ^ 62) {impl : Impl}
    (hflat : impl.flat = false) :
    impl.alertsAfter pq W distinctIds tickMod calls = some (UnorderedScan.after W calls).alerts := by
  have hW' : 1 ≤ W.toNat := UInt64.le_iff_toNat_le.mp hW
  have hheap := (UnorderedHeap.after_sim pq W calls).alerts
  have hmaxId : (distinctIds + 5).toNat = distinctIds.toNat + 5 := by
    rw [UInt64.toNat_add, show UInt64.toNat 5 = 5 from rfl, Nat.mod_eq_of_lt (by omega)]
  -- the windows are those of the heap class, since no event is at time 0
  have hwindows : (DirectIndex.after W (distinctIds + 5) calls).alerts
      = (UnorderedScan.after W calls).alerts := by
    refine (@DirectIndexHeap.after_sim P _ pq W _ calls ?_ ?_ calls List.prefix_rfl).alerts.trans hheap
    · intro id hid
      have hle := UInt64.le_iff_toNat_le.mp (h.range id hid).2
      exact UInt64.le_iff_toNat_le.mpr (by omega)
    · intro pre f exec hp
      exact DirectIndexHeap.not_reAnchors pq
        (fun c hc => h.pos c ((isPrefix_of_concat hp).subset hc)) exec
  cases impl with
  | vectorScan =>
      obtain ⟨v, hrun, hagrees⟩ := VectorScan.run_agrees W calls
      rw [Impl.alertsAfter, hrun]
      exact congrArg some hagrees.alerts
  | unorderedScan => rfl
  | unorderedHeap => exact congrArg some hheap
  | unorderedHeapReserved =>
      rw [Impl.alertsAfter, UnorderedHeapReserved.after_eq, hheap]
  | flatHashHeap => cases hflat
  | flatHashWheel => cases hflat
  | directIndexWheel =>
      obtain ⟨s, hs, href⟩ := @DirectIndexWheel.after_refines P _ W (distinctIds + 5) tickMod hW' hmod
        (by omega) calls h.paced calls List.prefix_rfl
      rw [Impl.alertsAfter, hs]
      exact congrArg some (href.alerts.trans hwindows)
  | directIndexHeap =>
      obtain ⟨s, hs, href⟩ := @DirectIndexHeap.after_refines P _ pq W (distinctIds + 5) (by omega) calls
      rw [Impl.alertsAfter, hs]
      exact congrArg some (href.alerts.trans hwindows)

/-- So do the classes with one, if the id 1 is not fed. -/
theorem Drives.alerts_flat (h : Drives W distinctIds calls) (hW : 1 ≤ W)
    (hmod : 2 * W.toNat ≤ tickMod.toNat) (hexp : distinctIds.toNat < 2 ^ 62)
    (hone : 1 ∉ fedIds calls) {impl : Impl} (hflat : impl.flat = true) :
    impl.alertsAfter pq W distinctIds tickMod calls = some (UnorderedScan.after W calls).alerts := by
  have hlow : ∀ id ∈ fedIds calls, 2 ≤ id.toNat ∧ id ≤ distinctIds := by
    intro id hid
    obtain ⟨hpos, hle⟩ := h.range id hid
    have hpos := UInt64.le_iff_toNat_le.mp hpos
    have hne : id.toNat ≠ 1 := fun heq => hone ((UInt64.toNat_inj.mp heq : id = 1) ▸ hid)
    rw [show UInt64.toNat 1 = 1 from rfl] at hpos
    exact ⟨by omega, hle⟩
  have hkeys : ∀ id ∈ fedIds calls, id ≠ kEmpty ∧ id ≠ kTomb := by
    intro id hid
    have := (hlow id hid).1
    constructor <;> rintro rfl <;> exact absurd this (by decide)
  have hcard := FlatHashHeap.card_le_of_range hlow
  have hfed : ∀ f exec, Call.feed f exec ∈ calls → exec.id ∈ fedIds calls :=
    fun f exec hc => mem_fedIds.mpr ⟨f, exec, hc, rfl⟩
  cases impl with
  | flatHashHeap =>
      obtain ⟨n, -, hrun⟩ := FlatHashHeap.after_sim pq mix W calls hexp hcard hkeys
        fun pre f exec hp => Or.inl (hfed f exec (hp.subset (by simp)))
      obtain ⟨s, hs, -, hsim⟩ := hrun calls List.prefix_rfl
      rw [Impl.alertsAfter, hs]
      exact congrArg some (hsim.alerts.trans (UnorderedHeap.after_sim pq W calls).alerts)
  | flatHashWheel =>
      obtain ⟨s, hs, hsim⟩ := @FlatHashWheel.after_sim P _ mix W tickMod _
        (UInt64.le_iff_toNat_le.mp hW) hmod _ hexp hcard hkeys calls hfed h.paced calls List.prefix_rfl
      rw [Impl.alertsAfter, hs]
      exact congrArg some hsim.alerts
  | vectorScan => cases hflat
  | unorderedScan => cases hflat
  | unorderedHeap => cases hflat
  | unorderedHeapReserved => cases hflat
  | directIndexWheel => cases hflat
  | directIndexHeap => cases hflat

end

/-! ## The workload drives them -/

section
variable {prices : Prices P} {W distinctIds jitter tickMod : UInt64} {draws : List Draw}
  {events : List (TiedEvent P)}

/-- The parameters and the workload of a benchmark: a turn of the wheels is two windows, and the
clock does not come near its end. -/
structure Workload (prices : Prices P) (W distinctIds jitter tickMod : UInt64) (draws : List Draw)
    (events : List (TiedEvent P)) : Prop where
  window : 1 ≤ W
  turn : 2 * W.toNat ≤ tickMod.toNat
  room : distinctIds.toNat < 2 ^ 62
  inRange : ∀ d ∈ draws, d.InRange distinctIds jitter
  clock : 1 + draws.length * (1 + W.toNat / 20) + jitter.toNat + 4 * W.toNat < 2 ^ 64
  sorts : Sorts (generate prices W 1 draws) events

omit [BEq P] in
theorem Workload.mem (h : Workload prices W distinctIds jitter tickMod draws events) {ev : TiedEvent P}
    (hev : ev ∈ events) : (∃ d ∈ draws, ev.exec.id = d.id) ∧ 1 ≤ ev.exec.ts.toNat ∧
      ev.exec.ts.toNat + 4 * W.toNat < 2 ^ 64 := by
  have hclock := h.clock
  have hone : UInt64.toNat 1 = 1 := rfl
  obtain ⟨hid, hlow, hhigh⟩ :=
    mem_generate h.inRange (by rw [hone]; omega) ev (h.sorts.perm.subset hev)
  rw [hone] at hlow hhigh
  exact ⟨hid, hlow, by omega⟩

omit [BEq P] in
/-- `runBench` returns, having fed the workload, and its calls are what every class needs. -/
theorem Workload.drives (h : Workload prices W distinctIds jitter tickMod draws events) :
    ∃ calls, benchCalls W (events.map TiedEvent.toEvent) = some calls ∧
      Drives W distinctIds calls ∧
      calls.filterMap Call.event = events.map TiedEvent.toEvent := by
  have hclock := h.clock
  have hmem : ∀ ev ∈ events.map TiedEvent.toEvent, (∃ d ∈ draws, ev.exec.id = d.id) ∧
      1 ≤ ev.exec.ts.toNat ∧ ev.exec.ts.toNat + 4 * W.toNat < 2 ^ 64 := by
    intro ev hev
    obtain ⟨tied, htied, rfl⟩ := List.mem_map.mp hev
    exact h.mem htied
  obtain ⟨calls, hcalls, hpaced, -⟩ := benchCalls_spec h.window (by omega)
    (fun ev hev => (hmem ev hev).2.2 : InTime W (events.map TiedEvent.toEvent))
  refine ⟨calls, hcalls, ⟨hpaced, ?_, ?_⟩, benchCalls_event hcalls⟩
  · intro id hid
    obtain ⟨f, exec, hc, rfl⟩ := mem_fedIds.mp hid
    obtain ⟨⟨d, hd, heq⟩, -⟩ := hmem _ (mem_of_benchCalls hcalls hc)
    rw [show exec.id = d.id from heq]
    exact ⟨(h.inRange d hd).pos, (h.inRange d hd).le⟩
  · rintro c hc f exec rfl hzero
    obtain ⟨-, hpos, -⟩ := hmem _ (mem_of_benchCalls hcalls hc)
    rw [hzero] at hpos
    exact absurd hpos (by decide)

omit [BEq P] in
theorem Workload.one_notMem (h : Workload prices W distinctIds jitter tickMod draws events)
    (hone : ∀ d ∈ draws, d.id ≠ 1) {calls : List (Call P)}
    (hcalls : benchCalls W (events.map TiedEvent.toEvent) = some calls) : 1 ∉ fedIds calls := by
  intro hmem
  obtain ⟨f, exec, hc, hid⟩ := mem_fedIds.mp hmem
  obtain ⟨tied, htied, heq⟩ := List.mem_map.mp (mem_of_benchCalls hcalls hc)
  obtain ⟨⟨d, hd, hd'⟩, -⟩ := h.mem htied
  rw [show tied.toEvent.exec = exec from congrArg Event.exec heq, hid] at hd'
  exact hone d hd hd'.symm

theorem Workload.benchOne (h : Workload prices W distinctIds jitter tickMod draws events)
    (pq : MinQueue Exp Exp.due) : ∃ calls,
      calls.filterMap Call.event = events.map TiedEvent.toEvent ∧
      ∀ impl : Impl, impl.flat = false ∨ (∀ d ∈ draws, d.id ≠ 1) →
        impl.benchOne pq W distinctIds tickMod (events.map TiedEvent.toEvent)
          = some (UnorderedScan.after W calls).alerts := by
  obtain ⟨calls, hcalls, hdrives, hevents⟩ := h.drives
  refine ⟨calls, hevents, fun impl himpl => ?_⟩
  rw [Impl.benchOne, runBench, hcalls, Option.bind_some]
  cases hflat : impl.flat with
  | false => exact hdrives.alerts pq h.window h.turn h.room hflat
  | true =>
      have hone := himpl.resolve_left (by rw [hflat]; exact Bool.true_eq_false.mp)
      exact hdrives.alerts_flat pq h.window h.turn h.room (h.one_notMem hone hcalls) hflat

/-! ## Main results -/

/-- **The column of the table is one number.**  On every workload the six classes without a flat
table return, with the same alerts; and if the id 1 is not drawn, all eight do. -/
theorem table_agrees (h : Workload prices W distinctIds jitter tickMod draws events)
    (pq : MinQueue Exp Exp.due) : ∃ alerts,
      (∀ impl : Impl, impl.flat = false →
        impl.benchOne pq W distinctIds tickMod (events.map TiedEvent.toEvent) = some alerts) ∧
      ((∀ d ∈ draws, d.id ≠ 1) → ∀ impl : Impl,
        impl.benchOne pq W distinctIds tickMod (events.map TiedEvent.toEvent) = some alerts) := by
  obtain ⟨calls, -, hrows⟩ := h.benchOne pq
  exact ⟨_, fun impl hflat => hrows impl (Or.inl hflat), fun hone impl => hrows impl (Or.inr hone)⟩

/-- Three rounds, the second with a mismatch on the second feed. -/
def threeRounds : List Draw :=
  [{ id := 7, jitter2 := 30 }, { id := 9, which := some Feed.two.index, jitter1 := 20, tie1 := 5 },
   { id := 7, jitter3 := 4, tie2 := 8 }]

/-- Prices in hundredths. -/
def cents : Prices ℕ :=
  { base := fun k => 10000 + k.toNat, raise := fun p => p + 1, lower := fun p => p - 2 }

theorem threeRounds_workload :
    Workload cents 1000 20 200 4096 threeRounds (makeWorkload cents 1000 threeRounds) where
  window := by decide
  turn := by decide
  room := by decide
  inRange := by decide
  clock := by decide
  sorts := makeWorkload_sorts cents 1000 threeRounds

theorem table_agrees_threeRounds : ∃ alerts,
    (∀ impl : Impl, impl.flat = false →
      impl.benchOne (MinQueue.ofList Exp Exp.due) 1000 20 4096
        ((makeWorkload cents 1000 threeRounds).map TiedEvent.toEvent) = some alerts) ∧
    ((∀ d ∈ threeRounds, d.id ≠ 1) → ∀ impl : Impl,
      impl.benchOne (MinQueue.ofList Exp Exp.due) 1000 20 4096
        ((makeWorkload cents 1000 threeRounds).map TiedEvent.toEvent) = some alerts) :=
  table_agrees threeRounds_workload (MinQueue.ofList Exp Exp.due)

/-- **No alert without an injected mismatch.**  A row shows at most as many alerts as rounds of
the workload drew a mismatch, however often ids repeat and events change places. -/
theorem alerts_le_injected (h : Workload prices W distinctIds jitter tickMod draws events)
    (hprices : ∀ k, (prices.base k == prices.base k) = true) (pq : MinQueue Exp Exp.due) (impl : Impl)
    (himpl : impl.flat = false ∨ ∀ d ∈ draws, d.id ≠ 1) : ∃ alerts,
      impl.benchOne pq W distinctIds tickMod (events.map TiedEvent.toEvent) = some alerts ∧
      alerts.toNat ≤ draws.countP fun d => d.which.isSome := by
  classical
  obtain ⟨calls, hevents, hrows⟩ := h.benchOne pq
  refine ⟨_, hrows impl himpl, ?_⟩
  -- the odd events are those that were tampered with
  have hodd : UnorderedScan.OddOnly (Tampered prices) (calls.filterMap Call.event) := by
    intro a _ b _ ha hb hid
    obtain ⟨hpa, hsa⟩ := not_not.mp ha
    obtain ⟨hpb, hsb⟩ := not_not.mp hb
    simp [eqExec, hid, hpa, hpb, hsa, hsb, baseExec, hprices]
  refine (UnorderedScan.alerts_le_odd hodd).trans ?_
  rw [hevents, List.countP_map]
  have hperm := h.sorts.perm.countP_eq fun ev => decide (Tampered prices ev.toEvent)
  exact (Nat.le_of_eq hperm).trans (tampered_generate_le draws 1)

theorem alerts_le_injected_threeRounds : ∃ alerts,
    Impl.flatHashHeap.benchOne (MinQueue.ofList Exp Exp.due) 1000 20 4096
      ((makeWorkload cents 1000 threeRounds).map TiedEvent.toEvent) = some alerts ∧
    alerts.toNat ≤ threeRounds.countP fun d => d.which.isSome :=
  alerts_le_injected threeRounds_workload (fun _ => beq_self_eq_true _) (MinQueue.ofList Exp Exp.due)
    .flatHashHeap (Or.inr (by decide))

end

end LearnCpp.Reconciler
