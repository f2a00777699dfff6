/-
# `LearnCpp.Reconciler.FlatHashHeap` — the flat table with heap expiry

`ReconcilerFlatHashHeap`: the entries of `UnorderedHeap` in a `FlatTable`, with
the same heap of records beside it.  A call is partial, because a probe loop may
not return; `none` stands for a call that does not.
-/
import Mathlib.Order.Interval.Finset.Nat
import LearnCpp.Reconciler.FlatTable

namespace LearnCpp.Reconciler

open Lib

variable {P : Type} [BEq P]

namespace FlatHashHeap

structure State (P : Type) (pq : MinQueue Exp Exp.due) where
  table : FlatTable P
  expiry : pq.Q := pq.empty
  alerts : UInt64 := 0
  lastTimer : UInt64 := 0

variable (pq : MinQueue Exp Exp.due) (hash : UInt64 → UInt64)

def construct (expectedIds : UInt64) : Option (State P pq) := do
  let table ← FlatTable.construct P expectedIds
  some { table := table }

/-- The body of the pop loop: erase the slot of the id if it has this record's expiry time. -/
def evictRecord (r : Exp) (table : Option (FlatTable P)) : Option (FlatTable P) :=
  table.bind (FlatTable.eraseIf hash (fun ent => decide (ent.expireAt = r.expireAt)) r.id)

def onTimer (now : UInt64) (s : State P pq) : Option (State P pq) := do
  let (expiry, table) := pq.drain (Exp.isDue now) (evictRecord hash) s.expiry (some s.table)
  let table ← table
  some { s with lastTimer := now, expiry := expiry, table := table }

def onFeed (W : UInt64) (f : Feed) (exec : Execution P) (s : State P pq) : Option (State P pq) :=
  if late W exec.ts s.lastTimer then some s
  else do
    let (table, idx) ← s.table.findOrInsert hash exec.id
    let ent ← table.entries[idx.toNat]?
    let r := ent.receive W f exec
    some { s with
      table := table.setEntry idx r.1
      expiry := pq.push ⟨r.1.expireAt, exec.id⟩ s.expiry
      alerts := if r.2 then s.alerts + 1 else s.alerts }

/-- One call. -/
def step (W : UInt64) : Call P → State P pq → Option (State P pq)
  | .feed f exec => onFeed pq hash W f exec
  | .timer now => onTimer pq hash now

/-- The state after a sequence of calls on a freshly constructed object. -/
def after (W expectedIds : UInt64) (calls : List (Call P)) : Option (State P pq) :=
  (construct pq expectedIds).bind (run (step pq hash W) calls)

/-! ## The invariant -/

/-- The table is sound, and every live entry has its own record. -/
structure Inv (n : ℕ) (D : Finset UInt64) (s : State P pq) : Prop where
  table : s.table.Inv hash n D
  covers : Covers HeapEntry.deadline Exp.due Exp.id (pq.contents s.expiry) (s.table.lookup hash)

variable {n : ℕ} {D : Finset UInt64} {s : State P pq}

omit [BEq P] in
/-- **The pop loop returns, and is a full scan.** -/
theorem onTimer_spec (h : Inv pq hash n D s) (now : UInt64) :
    ∃ s', onTimer pq hash now s = some s' ∧ Inv pq hash n D s' ∧
      s'.table.lookup hash = expire HeapEntry.deadline now.toNat (s.table.lookup hash) ∧
      s'.alerts = s.alerts ∧ s'.lastTimer = now := by
  obtain ⟨popped, q', hrun, hexp, hcov, -⟩ :=
    drain_eq_expire HeapEntry.deadline pq (Exp.isDue_iff now) h.covers
  obtain ⟨table', hfold, hinv, hlook⟩ := foldl_bind_refines
    (fun t : FlatTable P => t.Inv hash n D) (fun t => t.lookup hash)
    (fun r : Exp => evict (fun ent => decide (ent.deadline = r.due)) r.id) popped
    (fun r _ t ht => by
      have := ht.eraseIf (fun ent => decide (ent.expireAt = r.expireAt)) r.id
      simpa only [HeapEntry.deadline, Exp.due, UInt64.toNat_inj] using this)
    s.table h.table
  rw [hexp] at hlook
  refine ⟨{ s with lastTimer := now, expiry := q', table := table' }, ?_, ⟨hinv, ?_⟩, hlook, rfl, rfl⟩
  · simp only [onTimer, evictRecord, hrun]
    rw [hfold]
    rfl
  · rw [hlook]
    exact hcov

/-- **An accepted event** updates the entry of its id, like in the map. -/
theorem onFeed_spec (h : Inv pq hash n D s) {W : UInt64} {f : Feed} {exec : Execution P}
    (hlate : late W exec.ts s.lastTimer = false) (hid : exec.id ∈ D) :
    let r := ((s.table.lookup hash exec.id).getD {}).receive W f exec
    ∃ s', onFeed pq hash W f exec s = some s' ∧ Inv pq hash n D s' ∧
      s'.table.lookup hash = Function.update (s.table.lookup hash) exec.id (some r.1) ∧
      s'.alerts = (if r.2 then s.alerts + 1 else s.alerts) ∧ s'.lastTimer = s.lastTimer := by
  intro r
  obtain ⟨table', idx, hfind, hent, hwrite⟩ := h.table.findOrInsert_lookup hid
  obtain ⟨hinv, hlook⟩ := hwrite r.1
  refine ⟨{ s with table := table'.setEntry idx r.1
                   expiry := pq.push ⟨r.1.expireAt, exec.id⟩ s.expiry
                   alerts := if r.2 then s.alerts + 1 else s.alerts },
    ?_, ⟨hinv, ?_⟩, hlook, rfl, rfl⟩
  · simp only [onFeed, hlate, Bool.false_eq_true, if_false, hfind, hent, Option.bind_eq_bind,
      Option.bind_some]
    rfl
  · rw [hlook]
    refine h.covers.update HeapEntry.deadline ?_ ?_
    · intro rec hrec
      exact (pq.mem_push).mpr (Or.inr hrec)
    · exact ⟨_, (pq.mem_push).mpr (Or.inl rfl), rfl, rfl⟩

/-! ## Against the map -/

/-- The flat class and the map class hold the same entries. -/
structure Sim (s : State P pq) (m : UnorderedHeap.State P pq) : Prop where
  lookup : s.table.lookup hash = m.byId
  alerts : s.alerts = m.alerts
  lastTimer : s.lastTimer = m.lastTimer

theorem step_sim (h : Inv pq hash n D s) {W : UInt64} {m : UnorderedHeap.State P pq}
    (hm : UnorderedHeap.Inv pq W m) (hsim : Sim pq hash s m) {c : Call P}
    (hc : ∀ f exec, c = .feed f exec → exec.id ∈ D ∨ late W exec.ts m.lastTimer = true) :
    ∃ s', step pq hash W c s = some s' ∧ Inv pq hash n D s' ∧
      Sim pq hash s' (UnorderedHeap.step pq W c m) := by
  cases c with
  | timer now =>
      obtain ⟨s', hs', hinv, hlook, halerts, htimer⟩ := onTimer_spec pq hash h now
      refine ⟨s', hs', hinv, ?_, halerts.trans hsim.alerts, htimer⟩
      rw [hlook, hsim.lookup]
      exact ((UnorderedHeap.onTimer_spec pq hm).1).symm
  | feed f exec =>
      simp only [step, UnorderedHeap.step, UnorderedHeap.onFeed]
      cases hlate : late W exec.ts m.lastTimer with
      | true =>
          refine ⟨s, ?_, h, by simpa using hsim⟩
          simp [onFeed, hsim.lastTimer, hlate]
      | false =>
          have hid : exec.id ∈ D := (hc f exec rfl).resolve_right (by simp [hlate])
          obtain ⟨s', hs', hinv, hlook, halerts, htimer⟩ :=
            onFeed_spec pq hash h (hsim.lastTimer ▸ hlate) hid
          rw [hsim.lookup] at hlook halerts
          refine ⟨s', hs', hinv, hlook, ?_, htimer.trans hsim.lastTimer⟩
          rw [halerts, hsim.alerts]
          rfl

/-- **Every run of the flat class is a run of the map class**, as long as the ids
that are not dropped stay within a set that the table has room for. -/
theorem after_sim (W : UInt64) (calls : List (Call P)) {expectedIds : UInt64}
    (hexp : expectedIds.toNat < 2 ^ 62) (hcard : D.card ≤ expectedIds.toNat)
    (hids : ∀ id ∈ D, id ≠ kEmpty ∧ id ≠ kTomb)
    (hcalls : ∀ pre f exec, pre ++ [.feed f exec] <+: calls →
      exec.id ∈ D ∨ late W exec.ts (lastTimer pre) = true) :
    ∃ n, expectedIds.toNat < n ∧ ∀ pre, pre <+: calls →
      ∃ s, after pq hash W expectedIds pre = some s ∧ Inv pq hash n D s ∧
        Sim pq hash s (UnorderedHeap.after pq W pre) := by
  obtain ⟨t, n, ht, hn, hinit⟩ := FlatTable.construct_spec P hexp
  obtain ⟨hinv, hnone⟩ := hinit hash D hcard hids
  refine ⟨n, hn, ?_⟩
  have hrun : ∀ pre : List (Call P), after pq hash W expectedIds pre
      = run (step pq hash W) pre { table := t } := by
    intro pre
    simp [after, construct, ht]
  intro pre hpre
  rw [hrun]
  refine run_rule (fun pre s => Inv pq hash n D s ∧ Sim pq hash s (UnorderedHeap.after pq W pre))
    ⟨⟨hinv, ?_⟩, ⟨hnone, rfl, rfl⟩⟩ ?_ pre hpre
  · intro id ent hent
    rw [hnone] at hent
    cases hent
  · rintro pre c s hp ⟨hinv, hsim⟩
    rw [UnorderedHeap.after_concat]
    refine step_sim pq hash hinv (UnorderedHeap.after_inv pq W pre) hsim fun f exec hc => ?_
    rw [UnorderedHeap.after_lastTimer]
    exact hcalls pre f exec (hc ▸ hp)

/-! ## Main results -/

/-- **Probing stays sound for ever.**  Whatever function stands for `mix`, in every
run that feeds at most `expected_ids` distinct ids, none of them a reserved key,
every call returns; and in the state reached no more slots have been claimed
than distinct ids fed, and both probe loops return the right slot for every id.
An id is live here if the map class has an entry for it after the same calls. -/
theorem probing_sound {expectedIds : UInt64} (hexp : expectedIds.toNat < 2 ^ 62) (W : UInt64)
    (calls : List (Call P)) (hids : ∀ id ∈ fedIds calls, id ≠ kEmpty ∧ id ≠ kTomb)
    (hcard : (fedIds calls).card ≤ expectedIds.toNat) :
    ∃ s, after pq hash W expectedIds calls = some s ∧
      s.table.Sound hash (fedIds calls).card
        (fun id => ((UnorderedHeap.after pq W calls).byId id).isSome) := by
  obtain ⟨n, _, hrun⟩ := after_sim pq hash W calls hexp hcard hids
    fun pre f exec hp => Or.inl (mem_fedIds.mpr ⟨f, exec, hp.subset (by simp), rfl⟩)
  obtain ⟨s, hs, hinv, hsim⟩ := hrun calls (List.prefix_refl calls)
  refine ⟨s, hs, ?_⟩
  rw [← hsim.lookup]
  exact hinv.table.sound

/-- Two ids, one of them evicted by a timer and fed again. -/
def refeedCalls : List (Call ℕ) :=
  [.feed .one { id := 2, price := 100, size := 1, ts := 1 },
   .feed .two { id := 3, price := 101, size := 1, ts := 1500 },
   .timer 2000,
   .feed .two { id := 2, price := 100, size := 1, ts := 2001 }]

theorem probing_sound_refeed :
    ∃ s, after (MinQueue.ofList Exp Exp.due) mix 1000 2 refeedCalls = some s ∧
      s.table.Sound mix (fedIds refeedCalls).card fun id =>
        ((UnorderedHeap.after (MinQueue.ofList Exp Exp.due) 1000 refeedCalls).byId id).isSome :=
  probing_sound (MinQueue.ofList Exp Exp.due) mix (by decide) 1000 refeedCalls (by decide)
    (by decide)

theorem card_le_of_range {D : Finset UInt64} {e : UInt64}
    (hD : ∀ id ∈ D, 2 ≤ id.toNat ∧ id ≤ e) : D.card ≤ e.toNat := by
  have hsub : D.card ≤ (Finset.Icc 2 e.toNat).card := by
    refine Finset.card_le_card_of_injOn UInt64.toNat ?_ (fun a _ b _ hab => UInt64.toNat_inj.mp hab)
    intro id hid
    simp only [Finset.coe_Icc, Set.mem_Icc]
    exact ⟨(hD id hid).1, UInt64.le_iff_toNat_le.mp (hD id hid).2⟩
  rw [Nat.card_Icc] at hsub
  omega

/-- **When the flat class agrees with the map class.**  Over calls with ids in the
range that the workload draws from, the two return the same alerts and hold the
same entries after every call if and only if every event of id 1 is dropped as
late: the id 1 is also the key of an erased slot. -/
theorem agrees_with_map_iff {W expectedIds : UInt64}
    (hexp : expectedIds.toNat < 2 ^ 62) (calls : List (Call P))
    (hrange : ∀ id ∈ fedIds calls, 1 ≤ id ∧ id ≤ expectedIds) :
    (∀ pre, pre <+: calls → ∃ s, after pq mix W expectedIds pre = some s ∧
        s.alerts = (UnorderedHeap.after pq W pre).alerts ∧
        ∀ id, s.table.lookup mix id = (UnorderedHeap.after pq W pre).byId id) ↔
      ∀ pre f exec, pre ++ [.feed f exec] <+: calls → exec.id = 1 →
        late W exec.ts (lastTimer pre) = true := by
  constructor
  · -- an accepted event of id 1 makes it live in the map, where the table cannot find it
    intro hagree pre f exec hp hid
    by_contra hlate
    obtain ⟨s, -, -, hlook⟩ := hagree _ hp
    have h1 := hlook 1
    rw [show (1 : UInt64) = kTomb from rfl, FlatTable.lookup_kTomb, UnorderedHeap.after_concat] at h1
    rw [← UnorderedHeap.after_lastTimer pq W] at hlate
    simp only [UnorderedHeap.step, UnorderedHeap.onFeed, hlate, Bool.false_eq_true, if_false, hid] at h1
    rw [show kTomb = (1 : UInt64) from rfl, Function.update_self] at h1
    cases h1
  · intro hlate pre hpre
    have hD : ∀ id ∈ (fedIds calls).erase 1, 2 ≤ id.toNat ∧ id ≤ expectedIds := by
      intro id hid
      obtain ⟨hne, hid⟩ := Finset.mem_erase.mp hid
      obtain ⟨hlow, hhigh⟩ := hrange id hid
      rw [UInt64.le_iff_toNat_le] at hlow
      have hne' : id.toNat ≠ 1 := fun h => hne (UInt64.toNat_inj.mp h)
      exact ⟨by have : UInt64.toNat 1 = 1 := rfl
                omega, hhigh⟩
    obtain ⟨n, -, hrun⟩ := after_sim pq mix W calls hexp
      (card_le_of_range hD)
      (fun id hid => by
        have := (hD id hid).1
        constructor <;> rintro rfl <;> exact absurd this (by decide))
      (fun pre f exec hp => by
        by_cases hid : exec.id = 1
        · exact Or.inr (hlate pre f exec hp hid)
        · exact Or.inl (Finset.mem_erase.mpr
            ⟨hid, mem_fedIds.mpr ⟨f, exec, hp.subset (by simp), rfl⟩⟩))
    obtain ⟨s, hs, -, hsim⟩ := hrun pre hpre
    exact ⟨s, hs, hsim.alerts, fun id => congrFun hsim.lookup id⟩

theorem agrees_with_map_refeed :
    ∃ s, after (MinQueue.ofList Exp Exp.due) mix 1000 4 refeedCalls = some s ∧
      s.alerts = (UnorderedHeap.after (MinQueue.ofList Exp Exp.due) 1000 refeedCalls).alerts ∧
      ∀ id, s.table.lookup mix id
        = (UnorderedHeap.after (MinQueue.ofList Exp Exp.due) 1000 refeedCalls).byId id :=
  (agrees_with_map_iff (MinQueue.ofList Exp Exp.due) (by decide) refeedCalls (by decide)).mpr
    (fun _ f exec hp hid => absurd
      (mem_fedIds.mpr ⟨f, exec, hp.subset (by simp), hid⟩ : (1 : UInt64) ∈ fedIds refeedCalls)
      (by decide))
    refeedCalls (List.prefix_refl _)

/-- Two feeds disagree on the price of execution 1; only the map class notices. -/
def idOneCalls : List (Call ℕ) :=
  [.feed .one { id := 1, price := 100, size := 1, ts := 1 },
   .feed .two { id := 1, price := 101, size := 1, ts := 2 }]

theorem misses_mismatch_of_id_one :
    (∀ id ∈ fedIds idOneCalls, 1 ≤ id ∧ id ≤ (4 : UInt64)) ∧
      (after (MinQueue.ofList Exp Exp.due) mix 1000 4 idOneCalls).map State.alerts = some 0 ∧
      (UnorderedHeap.after (MinQueue.ofList Exp Exp.due) 1000 idOneCalls).alerts = 1 := by
  decide

end FlatHashHeap

end LearnCpp.Reconciler
