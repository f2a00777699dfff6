/-
# `LearnCpp.Reconciler.UnorderedHeap` — the class that expires lazily, against the one that scans

`ReconcilerUnorderedHeap`: the map of `UnorderedScan`, and beside it a min-heap
of `(expire_at, id)` records.  Every accepted event pushes a record, so most
records are duplicates, or are stale: their id is gone, or was evicted and came
back, or had its `first_ts` set again.

What makes the heap safe to trust is one direction only: every live entry has a
record with its own `expire_at` (`Inv.covers`).  Stale records fail the test
`it->second.expire_at == expire_at` and do nothing.
-/
import LearnCpp.Lib.MinQueue
import LearnCpp.Reconciler.UnorderedScan

namespace LearnCpp.Reconciler

open Lib

variable {P : Type} [BEq P]

/-- The expiry time an entry carries, as a number. -/
def HeapEntry.deadline (ent : HeapEntry P) : ℕ := ent.expireAt.toNat

/-- What an accepted event does to its entry, and whether it raises an alert. -/
def HeapEntry.receive (W : UInt64) (f : Feed) (exec : Execution P) (ent : HeapEntry P) :
    HeapEntry P × Bool :=
  let ent := { ent with toEntry := ent.stamp exec.ts }
  let ent := { ent with expireAt := ent.firstTs + W }
  let ent := { ent with toFeeds := ent.store f exec }
  let hit := !ent.alerted && ent.anyMismatch && decide (exec.ts < ent.expireAt)
  ({ ent with alerted := ent.alerted || hit }, hit)

/-- An entry's expiry time is its window end. -/
def HeapEntry.Anchored (W : UInt64) (ent : HeapEntry P) : Prop :=
  ent.expireAt = ent.firstTs + W

theorem HeapEntry.receive_anchored (W : UInt64) (f : Feed) (exec : Execution P)
    (ent : HeapEntry P) : (ent.receive W f exec).1.Anchored W := rfl

/-- On anchored entries the deadlines of the two classes are the same. -/
theorem HeapEntry.Anchored.deadline_eq {P : Type} {W : UInt64} {ent : HeapEntry P}
    (h : ent.Anchored W) : ent.deadline = ent.toEntry.deadline W := by
  rw [HeapEntry.deadline, Entry.deadline, h]

theorem HeapEntry.receive_toEntry (W : UInt64) (f : Feed) (exec : Execution P)
    (ent : HeapEntry P) :
    (ent.receive W f exec).1.toEntry = (ent.toEntry.receive W f exec).1 ∧
      (ent.receive W f exec).2 = (ent.toEntry.receive W f exec).2 := by
  simp [receive, Entry.receive, Entry.isExpired, decide_lt_eq_not_le]

namespace UnorderedHeap

structure State (P : Type) (pq : MinQueue Exp Exp.due) where
  byId : UInt64 → Option (HeapEntry P) := fun _ => none
  expiry : pq.Q := pq.empty
  alerts : UInt64 := 0
  lastTimer : UInt64 := 0

variable (pq : MinQueue Exp Exp.due)

/-- The body of the pop loop: `find(id)`, and erase if the entry has this record's expiry time. -/
def evictRecord (r : Exp) (byId : UInt64 → Option (HeapEntry P)) : UInt64 → Option (HeapEntry P) :=
  match byId r.id with
  | none => byId
  | some ent => if ent.expireAt = r.expireAt then Function.update byId r.id none else byId

def onTimer (now : UInt64) (s : State P pq) : State P pq :=
  let (expiry, byId) := pq.drain (Exp.isDue now) evictRecord s.expiry s.byId
  { s with lastTimer := now, expiry := expiry, byId := byId }

def onFeed (W : UInt64) (f : Feed) (exec : Execution P) (s : State P pq) : State P pq :=
  if late W exec.ts s.lastTimer then s
  else
    let r := ((s.byId exec.id).getD {}).receive W f exec
    { s with
      byId := Function.update s.byId exec.id (some r.1)
      expiry := pq.push ⟨r.1.expireAt, exec.id⟩ s.expiry
      alerts := if r.2 then s.alerts + 1 else s.alerts }

/-- One call. -/
def step (W : UInt64) : Call P → State P pq → State P pq
  | .feed f exec => onFeed pq W f exec
  | .timer now => onTimer pq now

/-- The state after a sequence of calls on a fresh object. -/
def after (W : UInt64) (calls : List (Call P)) : State P pq :=
  exec (step pq W) calls {}

@[simp] theorem after_concat (W : UInt64) (calls : List (Call P)) (c : Call P) :
    after pq W (calls ++ [c]) = step pq W c (after pq W calls) :=
  exec_concat ..

/-! ## The invariant -/

/-- Every live entry has its own record, and expires at its window end. -/
structure Inv (W : UInt64) (s : State P pq) : Prop where
  covers : Covers HeapEntry.deadline Exp.due Exp.id (pq.contents s.expiry) s.byId
  anchored : ∀ id ent, s.byId id = some ent → ent.Anchored W

omit [BEq P] in
theorem evictRecord_eq (r : Exp) (byId : UInt64 → Option (HeapEntry P)) :
    evictRecord r byId = evict (fun ent => decide (ent.deadline = r.due)) r.id byId := by
  have htest : ∀ ent : HeapEntry P, decide (ent.deadline = r.due) = decide (ent.expireAt = r.expireAt) :=
    fun ent => decide_eq_decide.mpr UInt64.toNat_inj
  rw [evictRecord]
  cases h : byId r.id with
  | none => exact (evict_eq_self fun ent hent => nomatch h.symm.trans hent).symm
  | some ent =>
      have hent : ∀ ent', byId r.id = some ent' → ent = ent' :=
        fun ent' h' => Option.some.inj (h.symm.trans h')
      dsimp only
      split
      · next heq =>
          refine (evict_eq_update fun ent' h' => ?_).symm
          rw [htest, ← hent ent' h', decide_eq_true heq]
      · next hne =>
          refine (evict_eq_self fun ent' h' => ?_).symm
          rw [htest, ← hent ent' h', decide_eq_false hne]

omit [BEq P] in
theorem inv_init (W : UInt64) : Inv pq W ({} : State P pq) :=
  ⟨fun _ _ h => (nomatch h), fun _ _ h => (nomatch h)⟩

omit [BEq P] in
/-- **The pop loop is a full scan.** -/
theorem onTimer_spec {W now : UInt64} {s : State P pq} (h : Inv pq W s) :
    (onTimer pq now s).byId = expire HeapEntry.deadline now.toNat s.byId ∧
      Inv pq W (onTimer pq now s) := by
  obtain ⟨popped, q', hrun, hexp, hcov, -⟩ :=
    drain_eq_expire HeapEntry.deadline pq (Exp.isDue_iff now) h.covers
  have hbyId : (onTimer pq now s).byId = expire HeapEntry.deadline now.toNat s.byId := by
    simp only [onTimer, hrun, evictRecord_eq]
    exact hexp
  refine ⟨hbyId, ?_, ?_⟩
  · rw [hbyId]
    simpa only [onTimer, hrun] using hcov
  · intro id ent hent
    rw [hbyId, expire_eq_some] at hent
    exact h.anchored id ent hent.1

theorem onFeed_inv {W : UInt64} {f : Feed} {exec : Execution P} {s : State P pq}
    (h : Inv pq W s) : Inv pq W (onFeed pq W f exec s) := by
  unfold onFeed
  split
  · exact h
  · refine ⟨?_, ?_⟩
    · refine h.covers.update HeapEntry.deadline ?_ ?_
      · intro r hr
        exact (pq.mem_push).mpr (Or.inr hr)
      · exact ⟨_, (pq.mem_push).mpr (Or.inl rfl), rfl, rfl⟩
    · intro id ent hent
      rcases update_eq_some.mp hent with ⟨rfl, rfl⟩ | ⟨-, hold⟩
      · exact HeapEntry.receive_anchored W f exec _
      · exact h.anchored id ent hold

theorem step_inv {W : UInt64} {s : State P pq} (h : Inv pq W s) :
    ∀ c : Call P, Inv pq W (step pq W c s)
  | .feed _ _ => onFeed_inv pq h
  | .timer _ => (onTimer_spec pq h).2

theorem after_inv (W : UInt64) (calls : List (Call P)) : Inv pq W (after pq W calls) :=
  exec_rule (fun _ => Inv pq W) (inv_init pq W) (fun _ c _ h => step_inv pq h c) calls
    (List.prefix_refl calls)

/-! ## Against the scan -/

/-- The heap class and the scanning class hold the same entries, up to the
expiry time that the former keeps with each. -/
structure Sim (h : State P pq) (s : UnorderedScan.State P) : Prop where
  byId : ∀ id, (h.byId id).map HeapEntry.toEntry = s.byId id
  alerts : h.alerts = s.alerts
  lastTimer : h.lastTimer = s.lastTimer

omit [BEq P] in
theorem onTimer_sim {W now : UInt64} {h : State P pq} {s : UnorderedScan.State P}
    (hinv : Inv pq W h) (hsim : Sim pq h s) :
    Sim pq (onTimer pq now h) (UnorderedScan.onTimer W now s) := by
  refine ⟨?_, hsim.alerts, rfl⟩
  intro id
  have hbyId : s.byId = fun id => (h.byId id).map HeapEntry.toEntry :=
    funext fun id => (hsim.byId id).symm
  rw [(onTimer_spec pq hinv).1, UnorderedScan.onTimer_byId, hbyId]
  exact map_expire HeapEntry.deadline
    (fun id ent hent => (hinv.anchored id ent hent).deadline_eq) now.toNat id

theorem onFeed_sim {W : UInt64} {f : Feed} {exec : Execution P} {h : State P pq}
    {s : UnorderedScan.State P} (hsim : Sim pq h s) :
    Sim pq (onFeed pq W f exec h) (UnorderedScan.onFeed W f exec s) := by
  unfold onFeed UnorderedScan.onFeed
  rw [hsim.lastTimer]
  split
  · exact hsim
  · -- the entry found or created is the same up to `expire_at`, so it receives alike
    have hent : ((h.byId exec.id).getD {}).toEntry = (s.byId exec.id).getD {} := by
      rw [← hsim.byId]
      cases h.byId exec.id <;> rfl
    obtain ⟨hrec, hhit⟩ := HeapEntry.receive_toEntry W f exec ((h.byId exec.id).getD {})
    rw [hent] at hrec hhit
    refine ⟨?_, ?_, rfl⟩
    · intro id
      by_cases hid : id = exec.id
      · subst hid; simp [hrec]
      · simpa [Function.update_of_ne hid] using hsim.byId id
    · simp only [hhit, hsim.alerts]

theorem step_sim {W : UInt64} {h : State P pq} {s : UnorderedScan.State P}
    (hinv : Inv pq W h) (hsim : Sim pq h s) :
    ∀ c : Call P, Sim pq (step pq W c h) (UnorderedScan.step W c s)
  | .feed _ _ => onFeed_sim pq hsim
  | .timer _ => onTimer_sim pq hinv hsim

theorem after_sim (W : UInt64) (calls : List (Call P)) :
    Sim pq (after pq W calls) (UnorderedScan.after W calls) := by
  induction calls using List.reverseRecOn with
  | nil => exact ⟨fun _ => rfl, rfl, rfl⟩
  | append_singleton calls c ih =>
      rw [after_concat, UnorderedScan.after_concat]
      exact step_sim pq (after_inv pq W calls) ih c

theorem after_lastTimer (W : UInt64) (calls : List (Call P)) :
    (after pq W calls).lastTimer = lastTimer calls :=
  (after_sim pq W calls).lastTimer.trans (UnorderedScan.after_lastTimer W calls)

/-- **Lazy expiry is the full scan.**  After any calls, with any timestamps and
timer values, wrapping sums included, the two classes hold the same live ids
with the same entries, and have raised the same alerts. -/
theorem agrees_with_scan (W : UInt64) (calls : List (Call P)) :
    (∀ id, ((after pq W calls).byId id).map HeapEntry.toEntry
        = (UnorderedScan.after W calls).byId id) ∧
      (after pq W calls).alerts = (UnorderedScan.after W calls).alerts :=
  ⟨(after_sim pq W calls).byId, (after_sim pq W calls).alerts⟩

end UnorderedHeap

end LearnCpp.Reconciler
