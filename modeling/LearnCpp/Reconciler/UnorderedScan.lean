/-
# `LearnCpp.Reconciler.UnorderedScan` — the class that scans

`ReconcilerUnorderedScan`: a hash map from ids to entries, and a timer that
visits every entry.  It keeps nothing beside the map, so the other classes are
compared with it.

The map is a function `UInt64 → Option (Entry P)`.  `by_id_[id]` inserts a fresh
entry for an absent id, which is `getD {}`; the erase loop tests every entry
once, in an order that does not matter, which is a filter at every id.
-/
import Mathlib.Logic.Function.Basic
import LearnCpp.Lib.Run
import LearnCpp.Lib.Expiry
import LearnCpp.Reconciler.Basic

namespace LearnCpp.Reconciler

open Lib

variable {P : Type} [BEq P]

/-- What an accepted event does to its entry, and whether it raises an alert. -/
def Entry.receive (W : UInt64) (f : Feed) (exec : Execution P) (ent : Entry P) : Entry P × Bool :=
  let ent := ent.stamp exec.ts
  let ent := { ent with toFeeds := ent.store f exec }
  let hit := !ent.alerted && ent.anyMismatch && !ent.isExpired W exec.ts
  ({ ent with alerted := ent.alerted || hit }, hit)

theorem Entry.receive_hit (W : UInt64) (f : Feed) (exec : Execution P) (ent : Entry P) :
    let r := ent.receive W f exec
    r.2 = true ↔ ent.alerted = false ∧ r.1.anyMismatch = true ∧ r.1.isExpired W exec.ts = false := by
  intro r
  have h : r.2 = (!ent.alerted && r.1.anyMismatch && !r.1.isExpired W exec.ts) := rfl
  simp [h, and_assoc]

theorem Entry.receive_alerted (W : UInt64) (f : Feed) (exec : Execution P) (ent : Entry P) :
    let r := ent.receive W f exec
    r.1.alerted = (ent.alerted || r.2) := rfl

namespace UnorderedScan

structure State (P : Type) where
  byId : UInt64 → Option (Entry P) := fun _ => none
  alerts : UInt64 := 0
  lastTimer : UInt64 := 0

def onTimer (W now : UInt64) (s : State P) : State P :=
  { s with
    lastTimer := now
    byId := fun id => (s.byId id).filter fun ent => !ent.isExpired W now }

def onFeed (W : UInt64) (f : Feed) (exec : Execution P) (s : State P) : State P :=
  if late W exec.ts s.lastTimer then s
  else
    let r := ((s.byId exec.id).getD {}).receive W f exec
    { s with
      byId := Function.update s.byId exec.id (some r.1)
      alerts := if r.2 then s.alerts + 1 else s.alerts }

/-- One call. -/
def step (W : UInt64) : Call P → State P → State P
  | .feed f exec => onFeed W f exec
  | .timer now => onTimer W now

/-- The state after a sequence of calls on a fresh object. -/
def after (W : UInt64) (calls : List (Call P)) : State P :=
  exec (step W) calls {}

@[simp] theorem after_concat (W : UInt64) (calls : List (Call P)) (c : Call P) :
    after W (calls ++ [c]) = step W c (after W calls) :=
  exec_concat ..

theorem after_lastTimer (W : UInt64) (calls : List (Call P)) :
    (after W calls).lastTimer = lastTimer calls := by
  induction calls using List.reverseRecOn with
  | nil => rfl
  | append_singleton calls c ih =>
      rw [after_concat]
      cases c with
      | feed f exec =>
          rw [lastTimer_feed, ← ih]
          simp only [step, onFeed]
          split <;> rfl
      | timer now => rw [lastTimer_timer]; rfl

theorem after_timers (W : UInt64) : ∀ {calls : List (Call P)},
    (∀ c ∈ calls, ∃ now, c = .timer now) →
      (after W calls).byId = (fun _ => none) ∧ (after W calls).alerts = 0 := by
  intro calls hcalls
  refine exec_rule_of (fun s : State P => (s.byId = fun _ => none) ∧ s.alerts = 0) hcalls ⟨rfl, rfl⟩ ?_
  rintro c s ⟨now, rfl⟩ ⟨hbyId, halerts⟩
  refine ⟨?_, halerts⟩
  simp only [step, onTimer, hbyId]
  rfl

omit [BEq P] in
theorem onTimer_byId (W now : UInt64) (s : State P) :
    (onTimer W now s).byId = expire (Entry.deadline W) now.toNat s.byId := by
  funext id
  simp only [onTimer, expire]
  congr 1
  funext ent
  rw [ent.isExpired_eq]
  simp [← decide_not]

end UnorderedScan

end LearnCpp.Reconciler
