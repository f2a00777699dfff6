/-
# `LearnCpp.Reconciler.VectorScan` — the class that keeps a sorted vector

`ReconcilerVectorScan`: the entries are items of one vector, sorted by id.  An id
is looked up by `std::lower_bound`, a new one is inserted where the search ends,
and the timer takes out the expired items with `std::remove_if`, which keeps the
order of the others.

A call is `none` if it follows an iterator that is not at an item.  The vector
holds the map of `ReconcilerUnorderedScan` at every point of a run, so that
`getOrCreate` always returns an item of the vector:

    getOrCreate id items   =   (lo ++ item :: hi, lo.length)     with  lo < id < hi

`stamp` is written differently in the two classes, and does the same.
-/
import LearnCpp.Lib.LowerBound
import LearnCpp.Reconciler.UnorderedScan

namespace LearnCpp.Reconciler.VectorScan

open Lib

variable {P : Type}

structure Item (P : Type) where
  id : UInt64 := 0
  entry : Entry P := {}
  deriving DecidableEq, Repr

structure State (P : Type) where
  byId : List (Item P) := []
  alerts : UInt64 := 0
  lastTimer : UInt64 := 0

def onTimer (W now : UInt64) (s : State P) : State P :=
  { s with
    lastTimer := now
    byId := s.byId.filter fun it => !it.entry.isExpired W now }

/-- The vector with an item of the id, and the iterator to it. -/
def getOrCreate (id : UInt64) (byId : List (Item P)) : List (Item P) × ℕ :=
  let it := lowerBound (fun item => decide (item.id < id)) byId
  -- `it == by_id_.end() || it->id != id`
  if byId[it]?.all fun item => item.id != id then (byId.insertIdx it { id }, it)
  else (byId, it)

/-- `if (first_ts == 0 && last_ts == 0) { first_ts = ts; last_ts = ts; } else { last_ts = ts; }` -/
def stamp (ent : Entry P) (ts : UInt64) : Entry P :=
  if ent.firstTs = 0 ∧ ent.lastTs = 0 then { ent with firstTs := ts, lastTs := ts }
  else { ent with lastTs := ts }

theorem stamp_eq (ent : Entry P) (ts : UInt64) : stamp ent ts = ent.stamp ts := by
  rw [stamp, Entry.stamp]
  split <;> rfl

variable [BEq P]

/-- What an accepted event does to its entry, and whether it raises an alert. -/
def receive (W : UInt64) (f : Feed) (exec : Execution P) (ent : Entry P) : Entry P × Bool :=
  let ent := stamp ent exec.ts
  let ent := { ent with toFeeds := ent.store f exec }
  let hit := !ent.alerted && ent.anyMismatch && !ent.isExpired W exec.ts
  ({ ent with alerted := ent.alerted || hit }, hit)

theorem receive_eq (W : UInt64) (f : Feed) (exec : Execution P) (ent : Entry P) :
    receive W f exec ent = ent.receive W f exec := by
  rw [receive, stamp_eq]
  rfl

def onFeed (W : UInt64) (f : Feed) (exec : Execution P) (s : State P) : Option (State P) :=
  if late W exec.ts s.lastTimer then some s
  else
    let (byId, it) := getOrCreate exec.id s.byId
    byId[it]?.map fun item =>
      let r := receive W f exec item.entry
      { s with
        byId := byId.set it { item with entry := r.1 }
        alerts := if r.2 then s.alerts + 1 else s.alerts }

/-- One call. -/
def step (W : UInt64) : Call P → State P → Option (State P)
  | .feed f exec, s => onFeed W f exec s
  | .timer now, s => some (onTimer W now s)

/-! ## The vector as a map -/

/-- The vector is strictly sorted by id, and holds the entries of the map. -/
structure Represents (items : List (Item P)) (m : UInt64 → Option (Entry P)) : Prop where
  sorted : items.Pairwise fun a b => a.id < b.id
  mem_iff : ∀ id ent, ⟨id, ent⟩ ∈ items ↔ m id = some ent

variable {items lo hi : List (Item P)} {m : UInt64 → Option (Entry P)} {id : UInt64} {ent : Entry P}

omit [BEq P] in
theorem Represents.nil : Represents ([] : List (Item P)) fun _ => none where
  sorted := .nil
  mem_iff := fun _ _ => ⟨fun hmem => absurd hmem List.not_mem_nil, fun hnone => by cases hnone⟩

omit [BEq P] in
theorem Represents.filter (h : Represents items m) (keep : Entry P → Bool) :
    Represents (items.filter fun item => keep item.entry) fun id => (m id).filter keep where
  sorted := h.sorted.filter _
  mem_iff := fun id ent => by
    rw [List.mem_filter, h.mem_iff, Option.filter_eq_some_iff]

omit [BEq P] in
theorem Represents.split (h : Represents items m) (id : UInt64) :
    ∃ lo hi, items = lo ++ (m id).toList.map (Item.mk id) ++ hi ∧
      (∀ a ∈ lo, a.id < id) ∧ ∀ a ∈ hi, id < a.id := by
  obtain ⟨lo, rest, rfl, hlo, hrest⟩ :=
    exists_parts (p := fun item : Item P => decide (item.id < id))
      (h.sorted.imp fun hab hb => decide_eq_true (UInt64.lt_trans hab (of_decide_eq_true hb)))
  have hlo : ∀ a ∈ lo, a.id < id := fun a ha => of_decide_eq_true (hlo a ha)
  have hrest : ∀ a ∈ rest, id ≤ a.id :=
    fun a ha => UInt64.not_lt.mp (of_decide_eq_false (hrest a ha))
  have hsorted : rest.Pairwise fun a b => a.id < b.id := (List.pairwise_append.mp h.sorted).2.1
  cases hm : m id with
  | none =>
      refine ⟨lo, rest, by simp, hlo, fun a ha => UInt64.lt_of_le_of_ne (hrest a ha) ?_⟩
      rintro rfl
      have hmem := (h.mem_iff a.id a.entry).mp (List.mem_append_right _ ha)
      rw [hm] at hmem
      cases hmem
  | some ent =>
      -- the item of the id is not in front, and the least of the rest
      have hmem := (h.mem_iff id ent).mpr hm
      rcases List.mem_append.mp hmem with hfront | hback
      · exact absurd (hlo _ hfront) (UInt64.lt_irrefl id)
      · cases rest with
        | nil => cases hback
        | cons first hi =>
            obtain ⟨hfirst, -⟩ := List.pairwise_cons.mp hsorted
            rcases List.mem_cons.mp hback with rfl | hlater
            · exact ⟨lo, hi, by simp, hlo, hfirst⟩
            · exact absurd (hfirst _ hlater) (UInt64.not_lt.mpr (hrest _ List.mem_cons_self))

omit [BEq P] in
theorem Represents.update (h : Represents (lo ++ (m id).toList.map (Item.mk id) ++ hi) m)
    (hlo : ∀ a ∈ lo, a.id < id) (hhi : ∀ a ∈ hi, id < a.id) (ent : Entry P) :
    Represents (lo ++ ⟨id, ent⟩ :: hi) (Function.update m id (some ent)) where
  sorted := by
    obtain ⟨hfront, hback, -⟩ := List.pairwise_append.mp h.sorted
    obtain ⟨hfront, -, -⟩ := List.pairwise_append.mp hfront
    refine List.pairwise_append.mpr ⟨hfront, List.pairwise_cons.mpr ⟨hhi, hback⟩, ?_⟩
    intro a ha b hb
    rcases List.mem_cons.mp hb with rfl | hb
    · exact hlo a ha
    · exact UInt64.lt_trans (hlo a ha) (hhi b hb)
  mem_iff := fun id' ent' => by
    have hne : ∀ {a : Item P}, a ∈ lo ∨ a ∈ hi → a.id ≠ id := by
      rintro a (hfront | hback) rfl
      · exact UInt64.lt_irrefl _ (hlo a hfront)
      · exact UInt64.lt_irrefl _ (hhi a hback)
    rw [update_eq_some, ← h.mem_iff]
    simp only [List.mem_append, List.mem_cons, List.mem_map, Item.mk.injEq]
    constructor
    · rintro (hfront | ⟨rfl, rfl⟩ | hback)
      · exact Or.inr ⟨hne (Or.inl hfront), Or.inl (Or.inl hfront)⟩
      · exact Or.inl ⟨rfl, rfl⟩
      · exact Or.inr ⟨hne (Or.inr hback), Or.inr hback⟩
    · rintro (⟨rfl, rfl⟩ | ⟨hne, (hfront | ⟨_, -, rfl, -⟩) | hback⟩)
      · exact Or.inr (Or.inl ⟨rfl, rfl⟩)
      · exact Or.inl hfront
      · exact absurd rfl hne
      · exact Or.inr (Or.inr hback)

omit [BEq P] in
/-- The search ends at the item of the id, which is a fresh one if there was none. -/
theorem getOrCreate_eq (hlo : ∀ a ∈ lo, a.id < id) (hhi : ∀ a ∈ hi, id < a.id) (old : Option (Entry P)) :
    getOrCreate id (lo ++ old.toList.map (Item.mk id) ++ hi)
      = (lo ++ ⟨id, old.getD {}⟩ :: hi, lo.length) := by
  have hback : ∀ a ∈ old.toList.map (Item.mk id) ++ hi, decide (a.id < id) = false := by
    intro a ha
    rw [decide_eq_false_iff_not, UInt64.not_lt]
    rcases List.mem_append.mp ha with hitem | ha
    · obtain ⟨_, -, rfl⟩ := List.mem_map.mp hitem
      exact UInt64.le_refl _
    · exact UInt64.le_of_lt (hhi a ha)
  have hit : lowerBound (fun item => decide (item.id < id)) (lo ++ old.toList.map (Item.mk id) ++ hi)
      = lo.length := by
    rw [List.append_assoc]
    exact lowerBound_append (fun a ha => decide_eq_true (hlo a ha)) hback
  rw [getOrCreate, hit]
  cases old with
  | some ent => simp
  | none =>
      have hother : hi.head?.all fun item => item.id != id := by
        cases hi with
        | nil => rfl
        | cons first hi => exact bne_iff_ne.mpr (UInt64.ne_of_lt (hhi _ List.mem_cons_self)).symm
      simp [List.getElem?_append_right, ← List.head?_eq_getElem?, hother, insertIdx_length_append]

/-! ## The two classes, call by call -/

/-- The vector and the map agree, and so do the counters. -/
structure Agrees (v : State P) (u : UnorderedScan.State P) : Prop where
  represents : Represents v.byId u.byId
  alerts : v.alerts = u.alerts
  lastTimer : v.lastTimer = u.lastTimer

variable {v : State P} {u : UnorderedScan.State P}

theorem Agrees.onFeed (h : Agrees v u) (W : UInt64) (f : Feed) (exec : Execution P) :
    ∃ v', VectorScan.onFeed W f exec v = some v' ∧ Agrees v' (UnorderedScan.onFeed W f exec u) := by
  rw [VectorScan.onFeed, UnorderedScan.onFeed, h.lastTimer]
  split
  · exact ⟨v, rfl, h⟩
  · obtain ⟨lo, hi, heq, hlo, hhi⟩ := h.represents.split exec.id
    have hitem : (lo ++ ⟨exec.id, (u.byId exec.id).getD {}⟩ :: hi)[lo.length]?
        = some ⟨exec.id, (u.byId exec.id).getD {}⟩ := by simp
    simp only [heq, getOrCreate_eq hlo hhi, hitem, Option.map_some, receive_eq, h.alerts]
    refine ⟨_, rfl, ?_, rfl, rfl⟩
    rw [List.set_append_right _ _ (Nat.le_refl _), Nat.sub_self, List.set_cons_zero]
    exact (heq ▸ h.represents).update hlo hhi _

omit [BEq P] in
theorem Agrees.onTimer (h : Agrees v u) (W now : UInt64) :
    Agrees (VectorScan.onTimer W now v) (UnorderedScan.onTimer W now u) where
  represents := h.represents.filter fun ent => !ent.isExpired W now
  alerts := h.alerts
  lastTimer := rfl

theorem Agrees.step (h : Agrees v u) (W : UInt64) (c : Call P) :
    ∃ v', VectorScan.step W c v = some v' ∧ Agrees v' (UnorderedScan.step W c u) := by
  cases c with
  | feed f exec => exact h.onFeed W f exec
  | timer now => exact ⟨_, rfl, h.onTimer W now⟩

theorem run_agrees (W : UInt64) (calls : List (Call P)) :
    ∃ v, run (VectorScan.step W) calls {} = some v ∧ Agrees v (UnorderedScan.after W calls) := by
  have hrun : ∀ pre, pre <+: calls →
      ∃ v, run (VectorScan.step W) pre {} = some v ∧ Agrees v (UnorderedScan.after W pre) := by
    refine run_rule (fun pre v => Agrees v (UnorderedScan.after W pre)) ⟨.nil, rfl, rfl⟩ ?_
    intro pre c v _ h
    rw [UnorderedScan.after_concat]
    exact h.step W c
  exact hrun calls List.prefix_rfl

/-- **The sorted vector is the map.**  After every sequence of calls, the vector is
strictly sorted by id and holds the entries of the class with the hash map, and the
alerts are the same. -/
theorem refines_unorderedScan (W : UInt64) (calls : List (Call P)) :
    ∃ v, run (step W) calls {} = some v ∧ v.byId.Pairwise (fun a b => a.id < b.id) ∧
      (∀ id ent, ⟨id, ent⟩ ∈ v.byId ↔ (UnorderedScan.after W calls).byId id = some ent) ∧
      v.alerts = (UnorderedScan.after W calls).alerts := by
  obtain ⟨v, hrun, h⟩ := run_agrees W calls
  exact ⟨v, hrun, h.represents.sorted, h.represents.mem_iff, h.alerts⟩

end LearnCpp.Reconciler.VectorScan
