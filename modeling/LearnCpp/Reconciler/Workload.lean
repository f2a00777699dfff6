/-
# `LearnCpp.Reconciler.Workload` — the events that `makeWorkload` produces

The benchmark draws an id for every round and sends its execution to all three
feeds, each with its own jitter; now and then one of the three is made to differ.
The events of all rounds are then sorted by time, ties at random.

What is random is an input here: a `Draw` holds what the generator returned in one
round.  `std::sort` is not stable, so a workload is any list that it may return,
`Sorts` of what was generated.  What the classes are driven with rests on four
facts about such a list:

    three events a round,  in order of time,  none at time 0,
    and an event that was not tampered with is its id's base execution
-/
import LearnCpp.Reconciler.Bench

namespace LearnCpp.Reconciler

/-- The prices that the workload is made of: `100.0 + k * 0.01` for `k` below 1000, and what
`+= 0.01` and `-= 0.02` make of them. -/
structure Prices (P : Type) where
  base : UInt64 → P
  raise : P → P
  lower : P → P

/-- What one round draws; `which` is `none` unless `uni(rng) < mismatch_rate`, and then
`rng() % 3`. -/
structure Draw where
  id : UInt64
  which : Option (Fin 3) := none
  jitter1 : UInt64 := 0
  jitter2 : UInt64 := 0
  jitter3 : UInt64 := 0
  tie1 : UInt32 := 0
  tie2 : UInt32 := 0
  tie3 : UInt32 := 0
  deriving DecidableEq, Repr

/-- What `id_dist(1, distinct_ids)` and `jitter_dist(0, out_of_order_jitter)` may return. -/
structure Draw.InRange (distinctIds jitter : UInt64) (d : Draw) : Prop where
  pos : 1 ≤ d.id
  le : d.id ≤ distinctIds
  jitter1 : d.jitter1 ≤ jitter
  jitter2 : d.jitter2 ≤ jitter
  jitter3 : d.jitter3 ≤ jitter

instance (distinctIds jitter : UInt64) (d : Draw) : Decidable (d.InRange distinctIds jitter) :=
  decidable_of_iff (1 ≤ d.id ∧ d.id ≤ distinctIds ∧ d.jitter1 ≤ jitter ∧ d.jitter2 ≤ jitter ∧
      d.jitter3 ≤ jitter)
    ⟨fun ⟨h1, h2, h3, h4, h5⟩ => ⟨h1, h2, h3, h4, h5⟩,
      fun ⟨h1, h2, h3, h4, h5⟩ => ⟨h1, h2, h3, h4, h5⟩⟩

/-- An event of the workload, with the number that shuffles equal arrival times. -/
structure TiedEvent (P : Type) extends Event P where
  tie : UInt32
  deriving DecidableEq, Repr

section
variable {P : Type} (prices : Prices P)

/-- `baseExec`: deterministic per id. -/
def baseExec (id : UInt64) : Execution P :=
  { id, price := prices.base (id % 1000), size := (1 + id % 10).toUInt32, ts := 0 }

/-- The execution `e1`, `e2` or `e3` of a round, before it is given a time. -/
def Draw.exec (d : Draw) (f : Feed) : Execution P :=
  let b := baseExec prices d.id
  match d.which, f with
  | some 0, .one => { b with price := prices.raise b.price }
  | some 1, .two => { b with size := b.size + 1 }
  | some 2, .three => { b with price := prices.lower b.price }
  | _, _ => b

/-- The event of a round on one feed, at logical time `t`. -/
def Draw.event (t : UInt64) (d : Draw) (f : Feed) (jitter : UInt64) (tie : UInt32) : TiedEvent P :=
  ⟨⟨f, { d.exec prices f with ts := t + jitter }⟩, tie⟩

/-- The three events of a round. -/
def Draw.events (t : UInt64) (d : Draw) : List (TiedEvent P) :=
  [d.event prices t .one d.jitter1 d.tie1, d.event prices t .two d.jitter2 d.tie2,
    d.event prices t .three d.jitter3 d.tie3]

/-- The loop of `makeWorkload`, from logical time `t`. -/
def generate (W : UInt64) : UInt64 → List Draw → List (TiedEvent P)
  | _, [] => []
  | t, d :: draws => d.events prices t ++ generate W (t + (1 + W / 20)) draws

end

/-- The comparator that `makeWorkload` sorts with. -/
def TiedEvent.comesFirst {P : Type} (a b : TiedEvent P) : Bool :=
  if a.exec.ts ≠ b.exec.ts then decide (a.exec.ts < b.exec.ts) else decide (a.tie < b.tie)

/-- What `std::sort` may leave of a range: the same elements, none behind one that it must precede. -/
structure Sorts {P : Type} (generated events : List (TiedEvent P)) : Prop where
  perm : events.Perm generated
  ordered : events.Pairwise fun a b => b.comesFirst a = false

/-- `makeWorkload`, if `std::sort` leaves equal events in the order they were in. -/
def makeWorkload {P : Type} (prices : Prices P) (W : UInt64) (draws : List Draw) :
    List (TiedEvent P) :=
  (generate prices W 1 draws).mergeSort fun a b => !b.comesFirst a

/-! ## The comparator -/

section
variable {P : Type} {a b : TiedEvent P}

theorem TiedEvent.comesFirst_eq_false : b.comesFirst a = false ↔
    a.exec.ts.toNat < b.exec.ts.toNat ∨
      a.exec.ts.toNat = b.exec.ts.toNat ∧ a.tie.toNat ≤ b.tie.toNat := by
  unfold comesFirst
  have hts : b.exec.ts = a.exec.ts ↔ b.exec.ts.toNat = a.exec.ts.toNat := UInt64.toNat_inj.symm
  split
  next hne =>
    rw [Ne, hts] at hne
    rw [decide_eq_false_iff_not, UInt64.lt_iff_toNat_lt]
    omega
  next heq =>
    rw [not_not, hts] at heq
    rw [decide_eq_false_iff_not, UInt32.lt_iff_toNat_lt]
    omega

/-- `comesFirst` is a strict weak order, so `std::sort` may be called with it, and any sort will do. -/
theorem makeWorkload_sorts (prices : Prices P) (W : UInt64) (draws : List Draw) :
    Sorts (generate prices W 1 draws) (makeWorkload prices W draws) where
  perm := List.mergeSort_perm ..
  ordered := by
    have hsorted : (makeWorkload prices W draws).Pairwise fun a b => (!b.comesFirst a) = true := by
      refine List.pairwise_mergeSort ?_ ?_ _
      · intro a b c hab hbc
        simp only [Bool.not_eq_true', TiedEvent.comesFirst_eq_false] at hab hbc ⊢
        omega
      · intro a b
        simp only [Bool.or_eq_true, Bool.not_eq_true', TiedEvent.comesFirst_eq_false]
        omega
    exact hsorted.imp (Bool.not_eq_true' _).mp

end

/-! ## What is generated -/

section
variable {P : Type} {prices : Prices P} {W t distinctIds jitter : UInt64} {d : Draw}
  {draws : List Draw} {ev : TiedEvent P}

theorem Draw.exec_id (d : Draw) (f : Feed) : (d.exec prices f).id = d.id := by
  unfold exec
  split <;> rfl

theorem Draw.InRange.event (h : d.InRange distinctIds jitter)
    (hclock : t.toNat + jitter.toNat < 2 ^ 64) (hev : ev ∈ d.events prices t) :
    ev.exec.id = d.id ∧ t.toNat ≤ ev.exec.ts.toNat ∧
      ev.exec.ts.toNat ≤ t.toNat + jitter.toNat := by
  have hts : ∀ f j tie, j ≤ jitter → ev = d.event prices t f j tie →
      ev.exec.id = d.id ∧ t.toNat ≤ ev.exec.ts.toNat ∧
        ev.exec.ts.toNat ≤ t.toNat + jitter.toNat := by
    rintro f j tie hj rfl
    have hj := UInt64.le_iff_toNat_le.mp hj
    have hsum : (t + j).toNat = t.toNat + j.toNat := by
      rw [UInt64.toNat_add, Nat.mod_eq_of_lt (by omega)]
    exact ⟨d.exec_id f, hsum ▸ Nat.le_add_right _ _, hsum ▸ Nat.add_le_add_left hj _⟩
  simp only [Draw.events, List.mem_cons, List.not_mem_nil, or_false] at hev
  rcases hev with hev | hev | hev
  · exact hts _ _ _ h.jitter1 hev
  · exact hts _ _ _ h.jitter2 hev
  · exact hts _ _ _ h.jitter3 hev

theorem toNat_advance (hclock : t.toNat + (1 + W.toNat / 20) < 2 ^ 64) :
    (t + (1 + W / 20)).toNat = t.toNat + (1 + W.toNat / 20) := by
  rw [UInt64.toNat_add, UInt64.toNat_add, UInt64.toNat_div, show UInt64.toNat 1 = 1 from rfl,
    show UInt64.toNat 20 = 20 from rfl, Nat.mod_eq_of_lt (show 1 + W.toNat / 20 < 2 ^ 64 by omega),
    Nat.mod_eq_of_lt hclock]

theorem mem_generate : ∀ {draws : List Draw} {t : UInt64},
    (∀ d ∈ draws, d.InRange distinctIds jitter) →
      t.toNat + draws.length * (1 + W.toNat / 20) + jitter.toNat < 2 ^ 64 →
        ∀ ev ∈ generate prices W t draws, (∃ d ∈ draws, ev.exec.id = d.id) ∧
          t.toNat ≤ ev.exec.ts.toNat ∧
          ev.exec.ts.toNat ≤ t.toNat + draws.length * (1 + W.toNat / 20) + jitter.toNat
  | [], _, _, _, _, hev => absurd hev List.not_mem_nil
  | d :: draws, t, hdraws, hclock, ev, hev => by
      rw [List.length_cons, Nat.succ_mul] at hclock ⊢
      rcases List.mem_append.mp hev with hev | hev
      · obtain ⟨hid, hlow, hhigh⟩ :=
          (hdraws d List.mem_cons_self).event (by omega) hev
        exact ⟨⟨d, List.mem_cons_self, hid⟩, hlow, by omega⟩
      · have hnext := toNat_advance (W := W) (t := t) (by omega)
        obtain ⟨⟨d', hd', hid⟩, hlow, hhigh⟩ :=
          mem_generate (fun d' hd' => hdraws d' (List.mem_cons_of_mem d hd')) (by omega) ev hev
        exact ⟨⟨d', List.mem_cons_of_mem d hd', hid⟩, by omega, by omega⟩

/-! ## What was tampered with -/

/-- The event carries something else than the base execution of its id. -/
def Tampered (prices : Prices P) (ev : Event P) : Prop :=
  ¬ (ev.exec.price = (baseExec prices ev.exec.id).price ∧
    ev.exec.size = (baseExec prices ev.exec.id).size)

/-- `which`, as the feed that it picks. -/
def Feed.index : Feed → Fin 3
  | .one => 0
  | .two => 1
  | .three => 2

variable (prices t) in
theorem Draw.tampered_event [DecidablePred (Tampered prices)] (f : Feed) (j : UInt64) (tie : UInt32) :
    (if decide (Tampered prices (d.event prices t f j tie).toEvent) = true then 1 else 0)
      ≤ if d.which = some f.index then 1 else 0 := by
  split
  next htampered =>
    have hpicked : d.which = some f.index := by
      by_contra hother
      have hexec : d.exec prices f = baseExec prices d.id := by
        unfold exec
        split <;> first | rfl | (rename_i h; exact absurd h hother)
      refine of_decide_eq_true htampered ?_
      simp only [Draw.event, hexec]
      exact ⟨rfl, rfl⟩
    rw [if_pos hpicked]
  next => exact Nat.zero_le _

variable (prices t) in
/-- At most one event of a round is tampered with, and none if no mismatch was drawn. -/
theorem Draw.tampered_le [DecidablePred (Tampered prices)] :
    (d.events prices t).countP (fun ev => Tampered prices ev.toEvent)
      ≤ if d.which.isSome then 1 else 0 := by
  have h1 := d.tampered_event prices t .one d.jitter1 d.tie1
  have h2 := d.tampered_event prices t .two d.jitter2 d.tie2
  have h3 := d.tampered_event prices t .three d.jitter3 d.tie3
  simp only [Draw.events, List.countP_cons, List.countP_nil, Nat.zero_add]
  refine (Nat.add_le_add (Nat.add_le_add h3 h2) h1).trans ?_
  cases d.which with
  | none => exact Nat.le_refl 0
  | some w =>
      -- exactly one feed is picked
      revert w
      decide

theorem tampered_generate_le [DecidablePred (Tampered prices)] : ∀ (draws : List Draw) (t : UInt64),
    (generate prices W t draws).countP (fun ev => Tampered prices ev.toEvent)
      ≤ draws.countP fun d => d.which.isSome
  | [], _ => Nat.le_refl 0
  | d :: draws, t => by
      have hround := d.tampered_le prices t
      have hrest := tampered_generate_le draws (t + (1 + W / 20))
      rw [generate, List.countP_append, List.countP_cons]
      omega

end

end LearnCpp.Reconciler
