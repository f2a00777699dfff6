/-
# `LearnCpp.Reconciler.FlatHashWheel` — the flat table with a timer wheel

`ReconcilerFlatHashWheel`: the flat table of `FlatHashHeap`, and in place of the
heap a wheel of `tick_mod` buckets of ids.  An id is filed when its entry has
`first_ts == 0 && last_ts == 0`, which is true of a new entry, and again of one
whose only events had timestamp 0.

A bucket is cleared whatever is in it, so a live id may lose its record, unless
all deadlines lie less than a turn ahead of the clock.  `runBench` sees to that
(`Paced`): an accepted event lies within one window of the latest timer on both
sides, so its window ends within two, and a turn is at least that long.
-/
import LearnCpp.Lib.Wheel
import LearnCpp.Reconciler.FlatTable
import LearnCpp.Reconciler.Bench

namespace LearnCpp.Reconciler

open Lib

variable {P : Type} [BEq P]

namespace FlatHashWheel

structure State (P : Type) where
  table : FlatTable P
  wheel : List (List UInt64)
  alerts : UInt64 := 0
  lastTimer : UInt64 := 0

variable (hash : UInt64 → UInt64) (W tickMod : UInt64)

def construct (P : Type) (expectedIds tickMod : UInt64) : Option (State P) := do
  let table ← FlatTable.construct P expectedIds
  some { table := table, wheel := List.replicate tickMod.toNat [] }

/-- The body of the loop over a bucket: erase the slot of the id if its entry is due. -/
def expireId (t id : UInt64) (table : FlatTable P) : Option (FlatTable P) :=
  table.eraseIf hash (fun ent => decide (ent.expireAt ≤ t)) id

def onTimer (now : UInt64) (s : State P) : Option (State P) := do
  let (wheel, table) ← Wheel.ticks tickMod (expireId hash) now rounds (s.lastTimer + 1) s.wheel s.table
  some { s with wheel := wheel, table := table, lastTimer := now }

/-- The test for an entry that has to be filed. -/
def isNew (ent : HeapEntry P) : Bool := ent.firstTs == 0 && ent.lastTs == 0

/-- What an accepted event does to its entry, and whether it raises an alert. -/
def receive (f : Feed) (exec : Execution P) (ent : HeapEntry P) : HeapEntry P × Bool :=
  let ent := if isNew ent then { ent with firstTs := exec.ts, expireAt := exec.ts + W } else ent
  let ent := { ent with lastTs := exec.ts }
  let ent := { ent with toFeeds := ent.store f exec }
  let hit := !ent.alerted && ent.anyMismatch && decide (exec.ts < ent.expireAt)
  ({ ent with alerted := ent.alerted || hit }, hit)

/-- `schedule(exec.id, ent.expire_at)`, for an entry that has to be filed. -/
def file (exec : Execution P) (ent : HeapEntry P) (wheel : List (List UInt64)) :
    Option (List (List UInt64)) :=
  if isNew ent then Wheel.schedule tickMod (exec.ts + W) exec.id wheel else some wheel

def onFeed (f : Feed) (exec : Execution P) (s : State P) : Option (State P) :=
  if late W exec.ts s.lastTimer then some s
  else do
    let (table, idx) ← s.table.findOrInsert hash exec.id
    let ent ← table.entries[idx.toNat]?
    let wheel ← file W tickMod exec ent s.wheel
    let r := receive W f exec ent
    some { s with
      table := table.setEntry idx r.1
      wheel := wheel
      alerts := if r.2 then s.alerts + 1 else s.alerts }

/-- One call. -/
def step : Call P → State P → Option (State P)
  | .feed f exec => onFeed hash W tickMod f exec
  | .timer now => onTimer hash tickMod now

/-- The state after a sequence of calls on a freshly constructed object. -/
def after (expectedIds : UInt64) (calls : List (Call P)) : Option (State P) :=
  (construct P expectedIds tickMod).bind (run (step hash W tickMod) calls)

/-! ## Receiving

The wheel class sets `expire_at` only when it files an id, the heap classes at
every event.  On the entries that occur this is the same. -/

theorem receive_eq {W : UInt64} {f : Feed} {exec : Execution P} {ent : HeapEntry P}
    (h : isNew ent = true ∨ ent.Anchored W) : receive W f exec ent = ent.receive W f exec := by
  cases hnew : isNew ent with
  | true =>
      have hnew' : ent.firstTs = 0 ∧ ent.lastTs = 0 := by simpa [isNew] using hnew
      simp [receive, HeapEntry.receive, Entry.stamp, hnew, hnew']
  | false =>
      have hanch : ent.expireAt = ent.firstTs + W := h.resolve_left (by simp [hnew])
      have hnew' : ¬ (ent.firstTs = 0 ∧ ent.lastTs = 0) := by simpa [isNew] using hnew
      simp [receive, HeapEntry.receive, Entry.stamp, hnew, hnew', hanch]

theorem receive_expireAt (W : UInt64) (f : Feed) (exec : Execution P) (ent : HeapEntry P) :
    (receive W f exec ent).1.expireAt = if isNew ent then exec.ts + W else ent.expireAt := by
  cases hnew : isNew ent <;> simp [receive, hnew]

/-! ## The invariant -/

/-- The table is sound, the wheel is ready for the tick after the latest timer,
and every live entry expires at its window end. -/
structure Inv (n : ℕ) (D : Finset UInt64) (s : State P) : Prop where
  table : s.table.Inv hash n D
  ready : Wheel.Ready HeapEntry.deadline tickMod (s.lastTimer.toNat + 1) s.wheel (s.table.lookup hash)
  anchored : ∀ id ent, s.table.lookup hash id = some ent → ent.Anchored W

variable {hash W tickMod} {n : ℕ} {D : Finset UInt64} {s : State P}

omit [BEq P] in
theorem expireId_evicts :
    Wheel.EvictsDue (fun t : FlatTable P => t.Inv hash n D) (fun t => t.lookup hash)
      HeapEntry.deadline (expireId hash) := by
  intro t id table htable
  simp only [HeapEntry.deadline, ← UInt64.le_iff_toNat_le]
  exact htable.eraseIf (fun ent => decide (ent.expireAt ≤ t)) id

omit [BEq P] in
/-- **The loop over the ticks returns, and is a full scan**, when the timer moves on. -/
theorem onTimer_spec (hmod : 0 < tickMod.toNat) (h : Inv hash W tickMod n D s) {now : UInt64}
    (hnow : now.toNat < 2 ^ 64 - 1) (hmono : s.lastTimer.toNat ≤ now.toNat) :
    ∃ s', onTimer hash tickMod now s = some s' ∧ Inv hash W tickMod n D s' ∧
      s'.table.lookup hash = expire HeapEntry.deadline now.toNat (s.table.lookup hash) ∧
      s'.alerts = s.alerts ∧ s'.lastTimer = now := by
  have hsucc : (s.lastTimer + 1).toNat = s.lastTimer.toNat + 1 :=
    Wheel.toNat_succ hnow (UInt64.le_iff_toNat_le.mpr hmono)
  obtain ⟨wheel', table', hticks, htable, hlook, hready, -⟩ :=
    Wheel.ticks_expire (fun t : FlatTable P => t.Inv hash n D) (fun t => t.lookup hash) hmod
      expireId_evicts hnow (t := s.lastTimer + 1) (by omega) h.table (hsucc ▸ h.ready)
  refine ⟨{ s with wheel := wheel', table := table', lastTimer := now }, ?_,
    ⟨htable, hready, ?_⟩, hlook, rfl, rfl⟩
  · simp only [onTimer, rounds, hticks, Option.bind_eq_bind, Option.bind_some]
  · intro id ent hent
    dsimp only at hent
    rw [hlook, expire_eq_some] at hent
    exact h.anchored id ent hent.1

/-- **An accepted event within a window of the timer** updates the entry of its id,
like in the map. -/
theorem onFeed_spec (hmod : 2 * W.toNat ≤ tickMod.toNat) (h : Inv hash W tickMod n D s) {f : Feed}
    {exec : Execution P} (hlate : late W exec.ts s.lastTimer = false) (hid : exec.id ∈ D)
    (hpaced : PacedCall W s.lastTimer (.feed f exec)) :
    let r := ((s.table.lookup hash exec.id).getD {}).receive W f exec
    ∃ s', onFeed hash W tickMod f exec s = some s' ∧ Inv hash W tickMod n D s' ∧
      s'.table.lookup hash = Function.update (s.table.lookup hash) exec.id (some r.1) ∧
      s'.alerts = (if r.2 then s.alerts + 1 else s.alerts) ∧ s'.lastTimer = s.lastTimer := by
  intro r
  obtain ⟨hnear, hwrap⟩ := hpaced
  have hend : (exec.ts + W).toNat = exec.ts.toNat + W.toNat := toNat_windowEnd hwrap
  have hlate' : s.lastTimer.toNat < (exec.ts + W).toNat := by
    rw [hend]
    exact (late_eq_false hwrap).mp hlate
  obtain ⟨table', idx, hfind, hent, hwrite⟩ := h.table.findOrInsert_lookup hid
  obtain ⟨hinv, hlook⟩ := hwrite r.1
  obtain ⟨ent, hentEq⟩ : ∃ ent, (s.table.lookup hash exec.id).getD {} = ent := ⟨_, rfl⟩
  -- the entry found is a new one, or a live one that expires at its window end
  have hor : isNew ent = true ∨ s.table.lookup hash exec.id = some ent := by
    cases hl : s.table.lookup hash exec.id with
    | none => left; rw [← hentEq, hl]; rfl
    | some ent' => right; rw [← hentEq, hl]; rfl
  have hr : receive W f exec ent = r := by
    rw [receive_eq (hor.imp_right (h.anchored exec.id ent))]
    exact congrArg _ hentEq.symm
  have hanch : ∀ id ent', Function.update (s.table.lookup hash) exec.id (some r.1) id = some ent' →
      ent'.Anchored W := by
    intro id ent' hent'
    rcases update_eq_some.mp hent' with ⟨rfl, rfl⟩ | ⟨-, hold⟩
    · exact HeapEntry.receive_anchored W f exec _
    · exact h.anchored id ent' hold
  -- filed anew, or filed already under the same deadline
  obtain ⟨wheel', hwheel, hready⟩ : ∃ wheel',
      file W tickMod exec ent s.wheel = some wheel' ∧
      Wheel.Ready HeapEntry.deadline tickMod (s.lastTimer.toNat + 1) wheel'
        (Function.update (s.table.lookup hash) exec.id (some r.1)) := by
    have hexp := receive_expireAt W f exec ent
    rw [hr] at hexp
    cases hnew : isNew ent with
    | true =>
        rw [hnew, if_pos rfl] at hexp
        obtain ⟨wheel', hsched, -, hready⟩ := h.ready.schedule (k := exec.id) (e := r.1)
          (by omega) (exec.ts + W) (by rw [HeapEntry.deadline, hexp])
          (by rw [HeapEntry.deadline, hexp]; omega)
        exact ⟨wheel', by rwa [file, if_pos hnew], hready⟩
    | false =>
        rw [hnew] at hexp
        exact ⟨s.wheel, by simp [file, hnew], h.ready.update (hor.resolve_left (by simp [hnew]))
          (congrArg UInt64.toNat hexp)⟩
  refine ⟨{ s with table := table'.setEntry idx r.1
                   wheel := wheel'
                   alerts := if r.2 then s.alerts + 1 else s.alerts },
    ?_, ⟨hinv, hlook ▸ hready, hlook ▸ hanch⟩, hlook, rfl, rfl⟩
  rw [hentEq] at hent
  simp only [onFeed, hlate, Bool.false_eq_true, if_false, hfind, hent, Option.bind_eq_bind,
    Option.bind_some, hr, hwheel]

/-! ## Against the scan -/

variable (hash) in
/-- The wheel class and the scanning class hold the same entries, up to the
expiry time that the former keeps with each. -/
structure Sim (s : State P) (m : UnorderedScan.State P) : Prop where
  byId : ∀ id, (s.table.lookup hash id).map HeapEntry.toEntry = m.byId id
  alerts : s.alerts = m.alerts
  lastTimer : s.lastTimer = m.lastTimer

theorem step_sim (hW : 1 ≤ W.toNat) (hmod : 2 * W.toNat ≤ tickMod.toNat)
    (h : Inv hash W tickMod n D s) {m : UnorderedScan.State P} (hsim : Sim hash s m) {c : Call P}
    (hid : ∀ f exec, c = .feed f exec → exec.id ∈ D) (hpaced : PacedCall W s.lastTimer c) :
    ∃ s', step hash W tickMod c s = some s' ∧ Inv hash W tickMod n D s' ∧
      Sim hash s' (UnorderedScan.step W c m) := by
  have hbyId : m.byId = fun id => (s.table.lookup hash id).map HeapEntry.toEntry :=
    funext fun id => (hsim.byId id).symm
  cases c with
  | timer now =>
      obtain ⟨hnext, hwrap⟩ := hpaced
      have hmod' : 0 < tickMod.toNat := by omega
      have hbefore : now.toNat < 2 ^ 64 - 1 := by omega
      have hmono : s.lastTimer.toNat ≤ now.toNat := by omega
      obtain ⟨s', hs', hinv, hlook, halerts, htimer⟩ :=
        onTimer_spec hmod' h hbefore hmono
      refine ⟨s', hs', hinv, ?_, halerts.trans hsim.alerts, htimer⟩
      intro id
      rw [hlook, UnorderedScan.step, UnorderedScan.onTimer_byId, hbyId]
      exact map_expire HeapEntry.deadline
        (fun id ent hent => (h.anchored id ent hent).deadline_eq) now.toNat id
  | feed f exec =>
      simp only [step, UnorderedScan.step, UnorderedScan.onFeed]
      cases hlate : late W exec.ts m.lastTimer with
      | true =>
          refine ⟨s, ?_, h, by simpa using hsim⟩
          simp [onFeed, hsim.lastTimer, hlate]
      | false =>
          obtain ⟨s', hs', hinv, hlook, halerts, htimer⟩ :=
            onFeed_spec hmod h (hsim.lastTimer ▸ hlate) (hid f exec rfl) hpaced
          -- the entry found or created is the same up to `expire_at`, so it receives alike
          have hent : ((s.table.lookup hash exec.id).getD {}).toEntry = (m.byId exec.id).getD {} := by
            rw [← hsim.byId]
            cases s.table.lookup hash exec.id <;> rfl
          obtain ⟨hrec, hhit⟩ :=
            HeapEntry.receive_toEntry W f exec ((s.table.lookup hash exec.id).getD {})
          rw [hent] at hrec hhit
          refine ⟨s', hs', hinv, ?_, ?_, htimer.trans hsim.lastTimer⟩
          · intro id
            rw [hlook]
            by_cases hid : id = exec.id
            · subst hid; simp [hrec]
            · simpa [Function.update_of_ne hid] using hsim.byId id
          · rw [halerts, hhit, hsim.alerts]
            rfl

/-- **Every paced run of the wheel class is a run of the scanning class.** -/
theorem after_sim (hW : 1 ≤ W.toNat) (hmod : 2 * W.toNat ≤ tickMod.toNat) {expectedIds : UInt64}
    (hexp : expectedIds.toNat < 2 ^ 62) (hcard : D.card ≤ expectedIds.toNat)
    (hids : ∀ id ∈ D, id ≠ kEmpty ∧ id ≠ kTomb) {calls : List (Call P)}
    (hcalls : ∀ f exec, .feed f exec ∈ calls → exec.id ∈ D) (hpaced : Paced W 0 calls) :
    ∀ pre, pre <+: calls → ∃ s, after hash W tickMod expectedIds pre = some s ∧
      Sim hash s (UnorderedScan.after W pre) := by
  obtain ⟨t, n, ht, hn, hinit⟩ := FlatTable.construct_spec P hexp
  obtain ⟨hinv, hnone⟩ := hinit hash D hcard hids
  have hempty : ∀ id ent, t.lookup hash id ≠ some ent := by
    intro id ent hent
    rw [hnone] at hent
    cases hent
  have hrun : ∀ pre, pre <+: calls →
      ∃ s, run (step hash W tickMod) pre ⟨t, List.replicate tickMod.toNat [], 0, 0⟩ = some s ∧
        Inv hash W tickMod n D s ∧ Sim hash s (UnorderedScan.after W pre) := by
    refine run_rule (fun pre s => Inv hash W tickMod n D s ∧ Sim hash s (UnorderedScan.after W pre))
      ⟨⟨hinv, ⟨List.length_replicate, ?_, ?_⟩, ?_⟩, ⟨fun id => by rw [hnone]; rfl, rfl, rfl⟩⟩ ?_
    · exact fun id ent hent => absurd hent (hempty id ent)
    · exact fun id ent hent => absurd hent (hempty id ent)
    · exact fun id ent hent => absurd hent (hempty id ent)
    · rintro pre c s hp ⟨hinv, hsim⟩
      rw [UnorderedScan.after_concat]
      refine step_sim hW hmod hinv hsim ?_ ?_
      · rintro f exec rfl
        exact hcalls f exec (hp.subset (by simp))
      · rw [hsim.lastTimer, UnorderedScan.after_lastTimer]
        exact hpaced.call hp
  intro pre hpre
  obtain ⟨s, hs, -, hsim⟩ := hrun pre hpre
  exact ⟨s, by simpa [after, construct, ht] using hs, hsim⟩

variable (hash W) in
theorem after_timers (hmod : 0 < tickMod.toNat) {expectedIds : UInt64}
    (hexp : expectedIds.toNat < 2 ^ 62) {calls : List (Call P)}
    (hcalls : ∀ c ∈ calls, ∃ now, c = .timer now ∧ now.toNat < 2 ^ 64 - 1) :
    ∃ s, after hash W tickMod expectedIds calls = some s ∧ s.alerts = 0 ∧
      ∀ id, s.table.lookup hash id = none := by
  obtain ⟨t, n, ht, hn, hinit⟩ := FlatTable.construct_spec P hexp
  obtain ⟨-, hnone⟩ := hinit hash ∅ (Nat.zero_le _) (by simp)
  have hrun : ∀ pre, pre <+: calls →
      ∃ s, run (step hash W tickMod) pre ⟨t, List.replicate tickMod.toNat [], 0, 0⟩ = some s ∧
        s.table = t ∧ s.wheel = List.replicate tickMod.toNat [] ∧ s.alerts = 0 := by
    refine run_rule (fun _ (s : State P) => s.table = t ∧
      s.wheel = List.replicate tickMod.toNat [] ∧ s.alerts = 0) ⟨rfl, rfl, rfl⟩ ?_
    rintro pre c s hp ⟨htable, hwheel, halerts⟩
    obtain ⟨now, rfl, hnow⟩ := hcalls c (hp.subset (by simp))
    refine ⟨{ s with lastTimer := now }, ?_, htable, hwheel, halerts⟩
    have hticks := Wheel.ticks_empty tickMod (expireId hash) hmod hnow (s.lastTimer + 1) s.table
    rw [← hwheel] at hticks
    simp only [step, onTimer, rounds, hticks, Option.bind_eq_bind, Option.bind_some]
  obtain ⟨s, hs, rfl, -, halerts⟩ := hrun calls (List.prefix_refl calls)
  exact ⟨s, by simpa [after, construct, ht] using hs, halerts, fun id => congrFun hnone id⟩

/-! ## Main result -/

/-- **Driven by `runBench`, the wheel is a full scan.**  Whatever function stands
for `mix`, with at least two windows to a turn of the wheel, the two classes
return the same alerts and hold the same live ids with the same entries after
every event and every timer. -/
theorem bench_agrees_with_scan (hash : UInt64 → UInt64) {W tickMod expectedIds : UInt64} (hW : 1 ≤ W)
    (hmod : 2 * W.toNat ≤ tickMod.toNat) (hexp : expectedIds.toNat < 2 ^ 62)
    (events : List (Event P)) (htime : InTime W events)
    (hids : ∀ id ∈ eventIds events, id ≠ kEmpty ∧ id ≠ kTomb)
    (hcard : (eventIds events).card ≤ expectedIds.toNat) :
    (events ≠ [] → (benchCalls W events).isSome) ∧
      ∀ calls, benchCalls W events = some calls → ∀ pre, pre <+: calls →
        ∃ s, after hash W tickMod expectedIds pre = some s ∧
          s.alerts = (UnorderedScan.after W pre).alerts ∧
          ∀ id, (s.table.lookup hash id).map HeapEntry.toEntry
            = (UnorderedScan.after W pre).byId id := by
  have hW' : 1 ≤ W.toNat := UInt64.le_iff_toNat_le.mp hW
  have hmod' : 0 < tickMod.toNat := by omega
  refine ⟨fun hne => ?_, fun calls hcalls pre hpre => ?_⟩
  · obtain ⟨calls, hcalls, -⟩ := benchCalls_paced hW hne htime
    exact hcalls ▸ rfl
  · rcases eq_or_ne events [] with rfl | hne
    · -- no events: both stay empty
      have htimers : ∀ c ∈ pre, ∃ now, c = .timer now ∧ now.toNat < 2 ^ 64 - 1 :=
        fun c hc => benchCalls_nil hcalls c (hpre.subset hc)
      obtain ⟨s, hs, halerts, hnone⟩ := after_timers hash W hmod' hexp htimers
      obtain ⟨hbyId, halerts'⟩ := UnorderedScan.after_timers W
        fun c hc => (htimers c hc).imp fun _ h => h.1
      exact ⟨s, hs, halerts.trans halerts'.symm, fun id => by rw [hnone, hbyId]; rfl⟩
    · obtain ⟨calls', hcalls', hpaced⟩ := benchCalls_paced hW hne htime
      obtain rfl := Option.some.inj (hcalls'.symm.trans hcalls)
      obtain ⟨s, hs, hsim⟩ := after_sim hW' hmod hexp hcard hids
        (fun f exec hc => List.mem_toFinset.mpr
          (List.mem_map_of_mem (mem_of_benchCalls hcalls hc))) hpaced pre hpre
      exact ⟨s, hs, hsim.alerts, hsim.byId⟩

/-- Two ids, the one first seen at time 0 scheduled a second time; the last event is late. -/
def zeroTsEvents : List (Event ℕ) :=
  [⟨.one, { id := 2, price := 100, size := 1, ts := 0 }⟩,
   ⟨.two, { id := 2, price := 101, size := 1, ts := 4 }⟩,
   ⟨.one, { id := 3, price := 100, size := 1, ts := 17 }⟩,
   ⟨.two, { id := 3, price := 101, size := 1, ts := 9 }⟩,
   ⟨.three, { id := 2, price := 100, size := 1, ts := 0 }⟩]

theorem bench_agrees_with_scan_zero_ts :
    (zeroTsEvents ≠ [] → (benchCalls 10 zeroTsEvents).isSome) ∧
      ∀ calls, benchCalls 10 zeroTsEvents = some calls → ∀ pre, pre <+: calls →
        ∃ s, after mix 10 20 2 pre = some s ∧ s.alerts = (UnorderedScan.after 10 pre).alerts ∧
          ∀ id, (s.table.lookup mix id).map HeapEntry.toEntry = (UnorderedScan.after 10 pre).byId id :=
  bench_agrees_with_scan mix (by decide) (by decide) (by decide) zeroTsEvents (by decide)
    (by decide) (by decide)

end FlatHashWheel

end LearnCpp.Reconciler
