/-
# `LearnCpp.Reconciler.Basic` — executions, entries and calls

`extras/citadel_interview/main.cpp` holds eight classes that reconcile three
feeds of executions.  They differ in how they store the entry of an id and in
how they find the entries whose window is over; what an entry records, and when
it raises an alert, is the same code in all of them.  That code is here.

Three liberties, the same in every class:

* `price` is a `double` that the program only ever compares with `==`.  It is a
  type `P` with an arbitrary `BEq`, so that a price unequal to itself is allowed.
* `window_width_`, `max_id_` and `tick_mod_` are set by the constructor and
  never written.  They are parameters of the steps, not fields of the state.
* The entry types of the classes overlap.  `Feeds` is what all of them store,
  `Entry` is the scanning classes' type, `HeapEntry` adds `expire_at`, and
  `SlotEntry` is the direct-index classes' type.
-/
import Mathlib.Algebra.Group.Nat.Defs
import Mathlib.Data.Finset.Dedup
import Mathlib.Data.Finset.Card
import Mathlib.Tactic.Common

namespace LearnCpp.Reconciler

/-- One execution; `ts` is its arrival time on its feed. -/
structure Execution (P : Type) where
  id : UInt64
  price : P
  size : UInt32
  ts : UInt64
  deriving DecidableEq, Repr

/-- The three feeds. -/
inductive Feed where
  | one
  | two
  | three
  deriving DecidableEq, Repr

/-- The pairs of feeds that `anyMismatch` compares. -/
def Feed.before : Feed → Feed → Bool
  | .one, .two => true
  | .one, .three => true
  | .two, .three => true
  | _, _ => false

theorem Feed.before_or_before {f g : Feed} (h : f ≠ g) : f.before g = true ∨ g.before f = true := by
  cases f <;> cases g <;> simp [before] at h ⊢

theorem Feed.ne_of_before {f g : Feed} (h : f.before g = true) : f ≠ g := by
  rintro rfl
  cases f <;> cases h

/-- A call from outside: `onFeedOne`, `onFeedTwo` or `onFeedThree`, or `onTimer`. -/
inductive Call (P : Type) where
  | feed (f : Feed) (exec : Execution P)
  | timer (now : UInt64)
  deriving DecidableEq, Repr

/-- The id that a call feeds. -/
def Call.fed {P : Type} : Call P → Option UInt64
  | .feed _ exec => some exec.id
  | .timer _ => none

/-- The distinct ids fed by a sequence of calls. -/
def fedIds {P : Type} (calls : List (Call P)) : Finset UInt64 :=
  (calls.filterMap Call.fed).toFinset

theorem mem_fedIds {P : Type} {calls : List (Call P)} {id : UInt64} :
    id ∈ fedIds calls ↔ ∃ f exec, .feed f exec ∈ calls ∧ exec.id = id := by
  simp only [fedIds, List.mem_toFinset, List.mem_filterMap]
  constructor
  · rintro ⟨c, hc, hfed⟩
    cases c with
    | feed f exec => exact ⟨f, exec, hc, Option.some.inj hfed⟩
    | timer now => cases hfed
  · rintro ⟨f, exec, hc, rfl⟩
    exact ⟨_, hc, rfl⟩

/-- A property of the ids of a run is checked at these, not at all 64-bit ids. -/
instance (priority := high) decidableForallIds {ids : Finset UInt64} {p : UInt64 → Prop}
    [DecidablePred p] : Decidable (∀ id ∈ ids, p id) :=
  Finset.decidableDforallFinset

/-- An execution on its feed. -/
structure Event (P : Type) where
  feed : Feed
  exec : Execution P
  deriving DecidableEq, Repr

/-- The event that a call feeds. -/
def Call.event {P : Type} : Call P → Option (Event P)
  | .feed f exec => some ⟨f, exec⟩
  | .timer _ => none

/-- The call that feeds an event. -/
def Event.call {P : Type} (ev : Event P) : Call P := .feed ev.feed ev.exec

/-- The feed of an event, and its id there. -/
def Event.key {P : Type} (ev : Event P) : Feed × UInt64 := (ev.feed, ev.exec.id)

/-- The distinct ids of the events. -/
def eventIds {P : Type} (events : List (Event P)) : Finset UInt64 :=
  (events.map fun ev => ev.exec.id).toFinset

/-- The value of the latest `onTimer` call, starting from `lt`. -/
def lastTimerFrom {P : Type} (lt : UInt64) (calls : List (Call P)) : UInt64 :=
  calls.foldl (fun lt c => match c with | .feed _ _ => lt | .timer now => now) lt

/-- The value of the latest `onTimer` call, 0 if there was none. -/
def lastTimer {P : Type} (calls : List (Call P)) : UInt64 := lastTimerFrom 0 calls

@[simp] theorem lastTimer_feed {P : Type} (calls : List (Call P)) (f : Feed) (exec : Execution P) :
    lastTimer (calls ++ [.feed f exec]) = lastTimer calls := by
  simp [lastTimer, lastTimerFrom]

@[simp] theorem lastTimer_timer {P : Type} (calls : List (Call P)) (now : UInt64) :
    lastTimer (calls ++ [.timer now]) = now := by
  simp [lastTimer, lastTimerFrom]

/-! ## Common reconciliation logic -/

section
variable {P : Type} [BEq P]

def eqExec (x y : Execution P) : Bool :=
  x.id == y.id && x.size == y.size && x.price == y.price

theorem eqExec_eq_false {x y : Execution P} (hid : x.id = y.id) :
    eqExec x y = false ↔ (x.price == y.price) = false ∨ x.size ≠ y.size := by
  simp only [eqExec, hid, beq_self_eq_true, Bool.true_and, Bool.and_eq_false_iff, beq_eq_false_iff_ne]
  exact or_comm

def mismatch : Option (Execution P) → Option (Execution P) → Bool
  | some a, some b => !eqExec a b
  | _, _ => false

theorem mismatch_iff {a b : Option (Execution P)} :
    mismatch a b = true ↔ ∃ x y, a = some x ∧ b = some y ∧ eqExec x y = false := by
  cases a <;> cases b <;> simp [mismatch]

def anyMismatch (a b c : Option (Execution P)) : Bool :=
  mismatch a b || mismatch a c || mismatch b c

end

/-- The latest execution of each feed. -/
structure Feeds (P : Type) where
  one : Option (Execution P) := none
  two : Option (Execution P) := none
  three : Option (Execution P) := none
  deriving DecidableEq, Repr

namespace Feeds
variable {P : Type}

/-- The execution stored for a feed. -/
def get (s : Feeds P) : Feed → Option (Execution P)
  | .one => s.one
  | .two => s.two
  | .three => s.three

/-- `switch (f)`: overwrite the execution of one feed. -/
def store (s : Feeds P) (f : Feed) (exec : Execution P) : Feeds P :=
  match f with
  | .one => { s with one := some exec }
  | .two => { s with two := some exec }
  | .three => { s with three := some exec }

theorem get_store (s : Feeds P) (f g : Feed) (exec : Execution P) :
    (s.store f exec).get g = if g = f then some exec else s.get g := by
  cases f <;> cases g <;> rfl

theorem get_default (g : Feed) : ({} : Feeds P).get g = none := by
  cases g <;> rfl

/-- `anyMismatch(ent.one, ent.two, ent.three)`. -/
def anyMismatch [BEq P] (s : Feeds P) : Bool :=
  Reconciler.anyMismatch s.one s.two s.three

theorem anyMismatch_iff [BEq P] {s : Feeds P} : s.anyMismatch = true ↔
    ∃ g₁ g₂ x y, g₁.before g₂ = true ∧ s.get g₁ = some x ∧ s.get g₂ = some y ∧ eqExec x y = false := by
  simp only [anyMismatch, Reconciler.anyMismatch, Bool.or_eq_true, mismatch_iff]
  constructor
  · rintro ((⟨x, y, hx, hy, hxy⟩ | ⟨x, y, hx, hy, hxy⟩) | ⟨x, y, hx, hy, hxy⟩)
    · exact ⟨.one, .two, x, y, rfl, hx, hy, hxy⟩
    · exact ⟨.one, .three, x, y, rfl, hx, hy, hxy⟩
    · exact ⟨.two, .three, x, y, rfl, hx, hy, hxy⟩
  · rintro ⟨g₁, g₂, x, y, hbefore, hx, hy, hxy⟩
    cases g₁ <;> cases g₂ <;> cases hbefore
    · exact Or.inl (Or.inl ⟨x, y, hx, hy, hxy⟩)
    · exact Or.inl (Or.inr ⟨x, y, hx, hy, hxy⟩)
    · exact Or.inr ⟨x, y, hx, hy, hxy⟩

/-- Filling an empty feed keeps what is stored, and so it keeps a mismatch. -/
theorem anyMismatch_store [BEq P] {s : Feeds P} {f : Feed} {exec : Execution P}
    (hempty : s.get f = none) (h : s.anyMismatch = true) : (s.store f exec).anyMismatch = true := by
  have hkeep : ∀ {g x}, s.get g = some x → (s.store f exec).get g = some x := by
    intro g x hx
    rw [get_store, if_neg]
    · exact hx
    · rintro rfl
      cases hempty.symm.trans hx
  obtain ⟨g₁, g₂, x, y, hbefore, hx, hy, hxy⟩ := anyMismatch_iff.mp h
  exact anyMismatch_iff.mpr ⟨g₁, g₂, x, y, hbefore, hkeep hx, hkeep hy, hxy⟩

end Feeds

/-! ## Entries -/

/-- `Entry` of the scanning classes. -/
structure Entry (P : Type) extends Feeds P where
  firstTs : UInt64 := 0
  lastTs : UInt64 := 0
  alerted : Bool := false
  deriving DecidableEq, Repr

/-- `Entry` of the classes that look ids up and keep the expiry time with the entry. -/
structure HeapEntry (P : Type) extends Entry P where
  expireAt : UInt64 := 0
  deriving DecidableEq, Repr

/-- `Entry` of the direct-index classes: a slot is occupied if it is `active`. -/
structure SlotEntry (P : Type) extends Feeds P where
  active : Bool := false
  alerted : Bool := false
  firstTs : UInt64 := 0
  expireAt : UInt64 := 0
  deriving DecidableEq, Repr

/-- A record of the expiry heaps. -/
structure Exp where
  expireAt : UInt64
  id : UInt64
  deriving DecidableEq, Repr

/-- `ExpMin` orders the records by this key, least on top. -/
def Exp.due (r : Exp) : ℕ := r.expireAt.toNat

/-- The pop loops stop at a record with `expire_at > now`. -/
def Exp.isDue (now : UInt64) (r : Exp) : Bool := !decide (r.expireAt > now)

theorem Exp.isDue_iff (now : UInt64) (r : Exp) : r.isDue now = true ↔ r.due ≤ now.toNat := by
  simp [isDue, due, UInt64.le_iff_toNat_le]

namespace Entry
variable {P : Type}

/-- `if (first_ts == 0 && last_ts == 0) first_ts = ts; last_ts = ts;` -/
def stamp (ent : Entry P) (ts : UInt64) : Entry P :=
  { ent with
    firstTs := if ent.firstTs = 0 ∧ ent.lastTs = 0 then ts else ent.firstTs
    lastTs := ts }

/-- The window of an entry is over at this time. -/
def deadline (W : UInt64) (ent : Entry P) : ℕ := (ent.firstTs + W).toNat

/-- Expire based on when we first saw this id. -/
def isExpired (W : UInt64) (ent : Entry P) (now : UInt64) : Bool :=
  decide (now ≥ ent.firstTs + W)

theorem isExpired_eq (W : UInt64) (ent : Entry P) (now : UInt64) :
    ent.isExpired W now = decide (ent.deadline W ≤ now.toNat) :=
  decide_eq_decide.mpr UInt64.le_iff_toNat_le

theorem isExpired_eq_false {W : UInt64} {ent : Entry P} {now : UInt64} :
    ent.isExpired W now = false ↔ now.toNat < ent.deadline W := by
  rw [isExpired_eq, decide_eq_false_iff_not, Nat.not_le]

end Entry

theorem decide_lt_eq_not_le (a b : UInt64) : decide (a < b) = !decide (b ≤ a) := by
  rw [← decide_not]
  exact decide_eq_decide.mpr UInt64.not_le.symm

/-- The drop rule of `onFeed`: the window of an event at `ts` has already ended. -/
def late (W ts lastTimer : UInt64) : Bool :=
  decide (ts + W ≤ lastTimer)

theorem toNat_windowEnd {ts W : UInt64} (hwrap : ts.toNat + W.toNat < 2 ^ 64) :
    (ts + W).toNat = ts.toNat + W.toNat := by
  rw [UInt64.toNat_add, Nat.mod_eq_of_lt hwrap]

theorem late_eq_false {W ts lastTimer : UInt64} (hwrap : ts.toNat + W.toNat < 2 ^ 64) :
    late W ts lastTimer = false ↔ lastTimer.toNat < ts.toNat + W.toNat := by
  rw [late, decide_eq_false_iff_not, UInt64.le_iff_toNat_le, toNat_windowEnd hwrap, Nat.not_le]

end LearnCpp.Reconciler
