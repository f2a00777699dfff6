/-
# `LearnCpp.MatchingEngine.Reference` — price-time priority without a book

What the engine is for, said without levels.  Every resting order has the number
of its arrival, and a side is a collection of them in no particular order.  An
incoming order sees the other side as a queue, by price and then by arrival,
leaves out what its limit does not accept, and takes what it can from each in
turn (`consume`).

`consume_split` says what that comes to: the queue is cut into orders that are
used up, at most one that is not, and orders that are not touched.
-/
import LearnCpp.Lib.Fifo
import LearnCpp.MatchingEngine.Greedy

namespace LearnCpp.MatchingEngine

open Lib

abbrev Resting := Arrived Order

/-- The fill of a resting order with some quantity. -/
def fillOf (id : OrderId) (qty : Quantity) (resting : Resting) : Fill :=
  ⟨id, resting.item.id, resting.item.price, qty⟩

/-- What decides on the place of an order in a queue. -/
def priority (resting : Resting) : Price × Nat := (resting.item.price, resting.arrival)

/-- A resting order after such a fill. -/
def reduce (qty : Quantity) (resting : Resting) : Resting :=
  { resting with item := { resting.item with qty := resting.item.qty - qty } }

/-- Take a quantity from a queue: what is left of it, what is left of the queue,
and the fills. -/
def consume (id : OrderId) (qty : Quantity) : List Resting → Quantity × List Resting × List Fill
  | [] => (qty, [], [])
  | resting :: queue =>
      if qty ≤ 0 then (qty, resting :: queue, [])
      else if resting.item.qty ≤ qty then
        let c := consume id (qty - resting.item.qty) queue
        (c.1, c.2.1, fillOf id resting.item.qty resting :: c.2.2)
      else (0, reduce qty resting :: queue, [fillOf id qty resting])

structure Reference where
  arrivals : Nat := 0
  resting : Side → List Resting := fun _ => []

namespace Reference

/-- The resting orders of a side by price, the best first, and then by arrival. -/
def queue (reference : Reference) (side : Side) : List Resting :=
  Arrived.queue (fun order : Order => side.rank order.price) (reference.resting side)

/-- What an order can be matched with. -/
def eligible (reference : Reference) (order : Order) : List Resting :=
  (reference.queue order.side.other).filter fun resting =>
    order.side.accepts order.price resting.item.price

/-- What its limit keeps it from. -/
def others (reference : Reference) (order : Order) : List Resting :=
  (reference.queue order.side.other).filter fun resting =>
    !order.side.accepts order.price resting.item.price

def addOrder (reference : Reference) (order : Order) : List Fill × Reference :=
  let c := consume order.id order.qty (reference.eligible order)
  let own := reference.resting order.side ++
    if 0 < c.1 then [⟨{ order with qty := c.1 }, reference.arrivals⟩] else []
  let other := c.2.1 ++ reference.others order
  (c.2.2, {
    arrivals := reference.arrivals + 1
    resting := fun side => if side = order.side then own else other })

def after (orders : List Order) : Reference :=
  exec (fun order reference => (reference.addOrder order).2) orders {}

@[simp] theorem after_concat (orders : List Order) (order : Order) :
    after (orders ++ [order]) = ((after orders).addOrder order).2 :=
  exec_concat ..

theorem addOrder_own (reference : Reference) (order : Order) :
    (reference.addOrder order).2.resting order.side = reference.resting order.side ++
      let left := (consume order.id order.qty (reference.eligible order)).1
      if 0 < left then [⟨{ order with qty := left }, reference.arrivals⟩] else [] :=
  if_pos rfl

theorem addOrder_other (reference : Reference) (order : Order) :
    (reference.addOrder order).2.resting order.side.other =
      (consume order.id order.qty (reference.eligible order)).2.1 ++ reference.others order :=
  if_neg Side.other_ne

/-- The levels of a side: each order in the level of its price, by arrival. -/
def levels (reference : Reference) (side : Side) : Levels :=
  (reference.queue side).foldl (fun levels resting => rest levels resting.item) .empty

def book (reference : Reference) : OrderBook where
  bids := reference.levels .buy
  asks := reference.levels .sell

end Reference

/-! ## Taking from a queue -/

section
variable {id : OrderId} {qty : Quantity} {resting : Resting} {queue : List Resting}

theorem consume_done (h : qty ≤ 0) (queue : List Resting) : consume id qty queue = (qty, queue, []) := by
  cases queue with
  | nil => rfl
  | cons resting queue => rw [consume, if_pos h]

theorem consume_used (hpos : 0 < qty) (hle : resting.item.qty ≤ qty) :
    consume id qty (resting :: queue) =
      let c := consume id (qty - resting.item.qty) queue
      (c.1, c.2.1, fillOf id resting.item.qty resting :: c.2.2) := by
  rw [consume, if_neg (not_le.mpr hpos), if_pos hle]

theorem consume_left (hpos : 0 < qty) (hlt : qty < resting.item.qty) :
    consume id qty (resting :: queue) = (0, reduce qty resting :: queue, [fillOf id qty resting]) := by
  rw [consume, if_neg (not_le.mpr hpos), if_neg (not_le.mpr hlt)]

theorem consume_greedy : ∀ (queue : List Resting) (qty : Quantity),
    let c := consume id qty queue
    greedy id qty (queue.map Arrived.item) = (c.1, c.2.1.map Arrived.item, c.2.2)
  | [], _ => rfl
  | resting :: queue, qty => by
      rw [List.map_cons]
      rcases le_or_gt qty 0 with hdone | hpos
      · rw [consume_done hdone, greedy_done hdone]
        rfl
      · rcases le_or_gt resting.item.qty qty with hle | hlt
        · rw [consume_used hpos hle, greedy_used hpos hle, consume_greedy queue]
          rfl
        · rw [consume_left hpos hlt, greedy_left hpos hlt]
          rfl

theorem consume_sublist : ∀ (queue : List Resting) (qty : Quantity),
    ((consume id qty queue).2.1.map priority).Sublist (queue.map priority)
  | [], _ => .slnil
  | resting :: queue, qty => by
      rcases le_or_gt qty 0 with hdone | hpos
      · rw [consume_done hdone]
      · rcases le_or_gt resting.item.qty qty with hle | hlt
        · rw [consume_used hpos hle]
          exact (consume_sublist queue _).cons _
        · rw [consume_left hpos hlt]
          exact .refl _

/-- **What is taken from a queue**: all of the orders in front, a part of at most
one more, and nothing of those behind it. -/
theorem consume_split (id : OrderId) : ∀ (queue : List Resting) (qty : Quantity),
    (∀ resting ∈ queue, 0 < resting.item.qty) →
    let c := consume id qty queue
    ∃ full part untouched taken, queue = full ++ part ++ untouched ∧ part.length ≤ 1 ∧
      (∀ resting ∈ part, 0 < taken ∧ taken < resting.item.qty) ∧
      c.2.2 = full.map (fun resting => fillOf id resting.item.qty resting) ++ part.map (fillOf id taken) ∧
      c.2.1 = part.map (reduce taken) ++ untouched ∧
      c.1 = qty - (c.2.2.map Fill.qty).sum ∧
      (0 < c.1 → part ++ untouched = [])
  | [], qty, _ => ⟨[], [], [], 0, by simp [consume]⟩
  | resting :: queue, qty, hqueue => by
      rcases le_or_gt qty 0 with hdone | hpos
      · rw [consume_done hdone]
        exact ⟨[], [], resting :: queue, 0, rfl, Nat.zero_le _, List.forall_mem_nil _, rfl, rfl,
          (sub_zero qty).symm, fun h => absurd h (not_lt.mpr hdone)⟩
      · rcases le_or_gt resting.item.qty qty with hle | hlt
        · obtain ⟨full, part, untouched, taken, hsplit, hpart, htaken, hfills, hleft, hqty, hall⟩ :=
            consume_split id queue (qty - resting.item.qty) (List.forall_mem_cons.mp hqueue).2
          rw [consume_used hpos hle]
          refine ⟨resting :: full, part, untouched, taken, congrArg _ hsplit, hpart, htaken,
            congrArg _ hfills, hleft, ?_, hall⟩
          dsimp only
          rw [hqty, List.map_cons, List.sum_cons, sub_sub]
          rfl
        · rw [consume_left hpos hlt]
          refine ⟨[], [resting], queue, qty, rfl, le_refl _, ?_, rfl, rfl, ?_, fun h => absurd h (lt_irrefl 0)⟩
          · exact List.forall_mem_singleton.mpr ⟨hpos, hlt⟩
          · simp [fillOf]

end

/-! ## The queues -/

namespace Reference

variable (reference : Reference) (order : Order)

theorem queue_perm (side : Side) : (reference.queue side).Perm (reference.resting side) :=
  Arrived.queue_perm _

theorem queue_pairwise (side : Side) : (reference.queue side).Pairwise
    (Arrived.Before fun order => side.rank order.price) :=
  Arrived.queue_pairwise _

/-- The orders that a limit accepts are the first of a queue. -/
theorem queue_eq : reference.eligible order ++ reference.others order =
    reference.queue order.side.other := by
  refine filter_append_filter ((queue_pairwise ..).imp fun {a b} hbefore => ?_)
  refine Side.accepts_of_rank_le ?_
  rcases (Arrived.before_iff _).mp hbefore with hlt | ⟨heq, -⟩
  · exact hlt.le
  · exact heq.le

theorem remaining_sublist :
    (((reference.addOrder order).2.resting order.side.other).map priority).Sublist
      ((reference.queue order.side.other).map priority) := by
  rw [addOrder_other, ← queue_eq reference order, List.map_append, List.map_append]
  exact (consume_sublist ..).append_right _

theorem queue_other : (reference.addOrder order).2.queue order.side.other =
    (consume order.id order.qty (reference.eligible order)).2.1 ++ reference.others order := by
  rw [← addOrder_other]
  let ahead (a b : Price × Nat) : Prop :=
    toLex (order.side.other.rank a.1, a.2) ≤ toLex (order.side.other.rank b.1, b.2)
  have hqueue : ((reference.queue order.side.other).map priority).Pairwise ahead :=
    List.pairwise_map.mpr (queue_pairwise ..)
  have hremaining := hqueue.sublist (remaining_sublist reference order)
  rw [List.pairwise_map] at hremaining
  exact Arrived.queue_eq_self hremaining

/-- The orders of a side have different numbers, that have been given already. -/
def Numbered (reference : Reference) : Prop :=
  ∀ side, ((reference.resting side).map Arrived.arrival).Nodup ∧
    ∀ number ∈ (reference.resting side).map Arrived.arrival, number < reference.arrivals

theorem addOrder_numbered (h : reference.Numbered) : (reference.addOrder order).2.Numbered := by
  intro side
  obtain ⟨hnodup, hearly⟩ := h side
  rcases order.side.eq_or_eq_other side with rfl | rfl
  · rw [addOrder_own]
    dsimp only
    split
    · rw [List.map_append]
      refine ⟨hnodup.append (List.nodup_singleton _) ?_, ?_⟩
      · intro number hnumber hnew
        exact (hearly number hnumber).ne (List.mem_singleton.mp hnew)
      · intro number hnumber
        rcases List.mem_append.mp hnumber with hold | hnew
        · exact (hearly number hold).trans (Nat.lt_succ_self _)
        · exact List.mem_singleton.mp hnew ▸ Nat.lt_succ_self _
    · rw [List.append_nil]
      exact ⟨hnodup, fun number hnumber => (hearly number hnumber).trans (Nat.lt_succ_self _)⟩
  · have hsub := (remaining_sublist reference order).map Prod.snd
    rw [List.map_map, List.map_map] at hsub
    have hperm := (queue_perm reference order.side.other).map Arrived.arrival
    refine ⟨(hperm.nodup_iff.mpr hnodup).sublist hsub, fun number hnumber => ?_⟩
    exact (hearly number (hperm.mem_iff.mp (hsub.subset hnumber))).trans (Nat.lt_succ_self _)

end Reference

end LearnCpp.MatchingEngine
