/-
# `LearnCpp.MatchingEngine.Basic` — the order book and its matching loops

`topics/domain_sketches/order_book_matching_engine.cpp`: a book of resting limit
orders, a level of orders for each price, and `add_order`, which matches an
incoming order against the other side and rests what is left of it.

`bids_` and `asks_` are ordered maps from prices to levels.  `match_buy` takes
the asks from `begin()`, the best one, and `match_sell` the bids from
`rbegin()`; apart from the end they start at and the comparison with the limit
they are the same loop, `matchLevels`, over the levels with the best first.

Prices are only compared, and of two positive quantities the smaller is taken
from the larger, so no sum or difference leaves the 64-bit range that the source
has for both; they are integers here.
-/
import Mathlib.Algebra.Order.Ring.Int
import LearnCpp.Lib.Run
import LearnCpp.Lib.SortedMap

namespace LearnCpp.MatchingEngine

open Lib

abbrev OrderId := UInt64
abbrev Price : Type := Int
abbrev Quantity : Type := Int

inductive Side where
  | buy
  | sell
  deriving DecidableEq, Repr

structure Order where
  id : OrderId
  side : Side
  price : Price
  qty : Quantity
  deriving DecidableEq, Repr

structure Fill where
  orderId : OrderId
  matchId : OrderId
  price : Price
  qty : Quantity
  deriving DecidableEq, Repr

/-- `std::map<Price, std::vector<Order>>` -/
abbrev Levels := SortedMap Price (List Order)

structure OrderBook where
  bids : Levels := .empty
  asks : Levels := .empty

/-! ## The loops -/

/-- The inner loop, over the orders of one level.  Where a resting order is not
used up, nothing is left of the incoming one, so the loop is over. -/
def fillLevel (order : Order) : List Order → Order × List Order × List Fill
  | [] => (order, [], [])
  | resting :: level =>
      if order.qty > 0 then
        let fillQty : Quantity := min order.qty resting.qty
        let fill : Fill := ⟨order.id, resting.id, resting.price, fillQty⟩
        let order : Order := { order with qty := order.qty - fillQty }
        let resting : Order := { resting with qty := resting.qty - fillQty }
        if resting.qty = 0 then
          let (order, level, fills) := fillLevel order level
          (order, level, fill :: fills)
        else (order, resting :: level, [fill])
      else (order, resting :: level, [])

/-- The outer loop, over the levels that the limit accepts, best first.  Where a
level is not emptied, nothing is left of the incoming order either. -/
def matchLevels (accepts : Price → Bool) (order : Order) :
    List (Price × List Order) → Order × List (Price × List Order) × List Fill
  | [] => (order, [], [])
  | (price, level) :: levels =>
      if order.qty > 0 ∧ accepts price then
        let (order, level, fills) := fillLevel order level
        if level = [] then
          let (order, levels, more) := matchLevels accepts order levels
          (order, levels, fills ++ more)
        else (order, (price, level) :: levels, fills)
      else (order, (price, level) :: levels, [])

section
variable {order resting : Order} {level : List Order}

theorem fillLevel_done (h : order.qty ≤ 0) (level : List Order) :
    fillLevel order level = (order, level, []) := by
  cases level with
  | nil => rfl
  | cons resting level => rw [fillLevel, if_neg (not_lt.mpr h)]

theorem fillLevel_used (hpos : 0 < order.qty) (hle : resting.qty ≤ order.qty) :
    fillLevel order (resting :: level) =
      let r := fillLevel { order with qty := order.qty - resting.qty } level
      (r.1, r.2.1, ⟨order.id, resting.id, resting.price, resting.qty⟩ :: r.2.2) := by
  rw [fillLevel, if_pos hpos]
  simp only [min_eq_right hle, sub_self, if_pos]

theorem fillLevel_left (hpos : 0 < order.qty) (hlt : order.qty < resting.qty) :
    fillLevel order (resting :: level) =
      ({ order with qty := 0 }, { resting with qty := resting.qty - order.qty } :: level,
        [⟨order.id, resting.id, resting.price, order.qty⟩]) := by
  rw [fillLevel, if_pos hpos]
  simp only [min_eq_left hlt.le, sub_self, if_neg (sub_pos.mpr hlt).ne']

/-- One round of the inner loop, as in the source: the condition is tested again
with the resting order still at the front, if it was not used up. -/
theorem fillLevel_round (hpos : 0 < order.qty) :
    let fillQty := min order.qty resting.qty
    let resting' := { resting with qty := resting.qty - fillQty }
    let r := fillLevel { order with qty := order.qty - fillQty }
      (if resting'.qty = 0 then level else resting' :: level)
    fillLevel order (resting :: level) =
      (r.1, r.2.1, ⟨order.id, resting.id, resting.price, fillQty⟩ :: r.2.2) := by
  rcases le_or_gt resting.qty order.qty with hle | hlt
  · simp only [fillLevel_used hpos hle, min_eq_right hle, sub_self, if_pos]
  · simp only [fillLevel_left hpos hlt, min_eq_left hlt.le, sub_self, if_neg (sub_pos.mpr hlt).ne']
    rw [fillLevel_done (le_refl _)]

theorem fillLevel_rest : ∀ {level : List Order} {order : Order},
    (fillLevel order level).2.1 ≠ [] → (fillLevel order level).1.qty ≤ 0
  | [], _, h => absurd rfl h
  | resting :: level, order, h => by
      rcases le_or_gt order.qty 0 with hdone | hpos
      · rw [fillLevel_done hdone]; exact hdone
      · rcases le_or_gt resting.qty order.qty with hle | hlt
        · rw [fillLevel_used hpos hle] at h ⊢
          exact fillLevel_rest h
        · rw [fillLevel_left hpos hlt]

theorem matchLevels_done {accepts : Price → Bool} (h : order.qty ≤ 0)
    (levels : List (Price × List Order)) :
    matchLevels accepts order levels = (order, levels, []) := by
  cases levels with
  | nil => rfl
  | cons entry levels => rw [matchLevels, if_neg fun hpos => not_lt.mpr h hpos.1]

/-- One round of the outer loop, as in the source. -/
theorem matchLevels_round {accepts : Price → Bool} {price : Price}
    {levels : List (Price × List Order)} (hpos : 0 < order.qty) (hacc : accepts price = true) :
    let r := fillLevel order level
    let m := matchLevels accepts r.1 (if r.2.1 = [] then levels else (price, r.2.1) :: levels)
    matchLevels accepts order ((price, level) :: levels) = (m.1, m.2.1, r.2.2 ++ m.2.2) := by
  rw [matchLevels, if_pos ⟨hpos, hacc⟩]
  dsimp only
  split
  · rfl
  · next hrest => rw [matchLevels_done (fillLevel_rest hrest), List.append_nil]

end

theorem matchLevels_prices (accepts : Price → Bool) (order : Order) (levels : List (Price × List Order)) :
    ((matchLevels accepts order levels).2.1.map Prod.fst).Sublist (levels.map Prod.fst) := by
  induction levels generalizing order with
  | nil => exact List.Sublist.slnil
  | cons entry levels ih =>
      obtain ⟨price, level⟩ := entry
      unfold matchLevels
      split
      · dsimp only
        split
        · exact (ih _).cons _
        · exact List.Sublist.refl _
      · exact List.Sublist.refl _

/-! ## The book -/

/-- Match against the asks, from `begin()`. -/
def matchBuy (order : Order) (asks : Levels) : Order × Levels × List Fill :=
  let r := matchLevels (fun price => decide (price ≤ order.price)) order asks.entries
  (r.1, asks.replace r.2.1 (matchLevels_prices ..), r.2.2)

/-- Match against the bids, from `rbegin()`. -/
def matchSell (order : Order) (bids : Levels) : Order × Levels × List Fill :=
  let r := matchLevels (fun price => decide (price ≥ order.price)) order bids.entries.reverse
  (r.1, bids.replace r.2.1.reverse (by
    have h := matchLevels_prices (fun price => decide (price ≥ order.price)) order bids.entries.reverse
    rw [List.map_reverse] at h ⊢
    simpa using h.reverse), r.2.2)

/-- `levels[order.price].push_back(order)` -/
def rest (levels : Levels) (order : Order) : Levels :=
  levels.upsert order.price fun level => level.getD [] ++ [order]

namespace OrderBook

/-- Match an incoming order, and rest what is left of it. -/
def addOrder (book : OrderBook) (order : Order) : List Fill × OrderBook :=
  match order.side with
  | .buy =>
      let (order, asks, fills) := matchBuy order book.asks
      (fills, { asks := asks, bids := if order.qty > 0 then rest book.bids order else book.bids })
  | .sell =>
      let (order, bids, fills) := matchSell order book.bids
      (fills, { bids := bids, asks := if order.qty > 0 then rest book.asks order else book.asks })

/-- `bids_.rbegin()->first`, or 0 -/
def bestBid (book : OrderBook) : Price := (book.bids.entries.getLast?.map Prod.fst).getD 0

/-- `asks_.begin()->first`, or 0 -/
def bestAsk (book : OrderBook) : Price := (book.asks.entries.head?.map Prod.fst).getD 0

/-- The book after a sequence of orders. -/
def after (orders : List Order) : OrderBook :=
  exec (fun order book => (book.addOrder order).2) orders {}

end OrderBook

/-! ## The two sides in the same words

What is proved of the book is proved for the side of the incoming order and the
other one, whichever they are.
-/

namespace Side

def other : Side → Side
  | .buy => .sell
  | .sell => .buy

/-- The limit of an order of this side accepts a price of the other one. -/
def accepts : Side → Price → Price → Bool
  | .buy, limit, price => decide (price ≤ limit)
  | .sell, limit, price => decide (price ≥ limit)

/-- The better a price of this side is, the less is its rank. -/
def rank : Side → Price → Int
  | .buy, price => -price
  | .sell, price => price

/-- The levels of this side in the order in which they are matched. -/
def bestFirst (side : Side) (levels : Levels) : List (Price × List Order) :=
  match side with
  | .buy => levels.entries.reverse
  | .sell => levels.entries

variable {side : Side} {limit price price₁ price₂ : Price}

theorem accepts_other : side.other.accepts price₁ price₂ = side.accepts price₂ price₁ := by
  cases side <;> rfl

@[simp] theorem other_other : side.other.other = side := by
  cases side <;> rfl

theorem other_ne : side.other ≠ side := by
  cases side <;> exact Side.noConfusion

theorem eq_or_eq_other (side side' : Side) : side' = side ∨ side' = side.other := by
  cases side <;> cases side' <;> simp [other]

theorem accepts_of_rank_le (hrank : side.other.rank price₁ ≤ side.other.rank price₂)
    (hacc : side.accepts limit price₂ = true) : side.accepts limit price₁ = true := by
  cases side with
  | buy => exact decide_eq_true (le_trans hrank (of_decide_eq_true hacc))
  | sell => exact decide_eq_true (le_trans (of_decide_eq_true hacc) (neg_le_neg_iff.mp hrank))

@[simp] theorem mem_bestFirst {levels : Levels} {entry : Price × List Order} :
    entry ∈ side.bestFirst levels ↔ entry ∈ levels.entries := by
  cases side with
  | buy => exact List.mem_reverse
  | sell => exact Iff.rfl

theorem bestFirst_pairwise (side : Side) (levels : Levels) :
    (side.bestFirst levels).Pairwise fun a b => side.rank a.1 < side.rank b.1 := by
  cases side with
  | buy => exact List.pairwise_reverse.mpr (levels.sorted.imp fun hlt => neg_lt_neg hlt)
  | sell => exact levels.sorted

theorem accepts_pairwise (side : Side) (limit : Price) (levels : Levels) :
    (side.other.bestFirst levels).Pairwise fun a b =>
      side.accepts limit b.1 = true → side.accepts limit a.1 = true :=
  (side.other.bestFirst_pairwise levels).imp fun hrank => accepts_of_rank_le hrank.le

end Side

/-- The levels of a side. -/
def OrderBook.on (book : OrderBook) : Side → Levels
  | .buy => book.bids
  | .sell => book.asks

/-- What `addOrder` does: the loops run over the other side, best first, and what
is left of the order is rested on its own. -/
theorem OrderBook.addOrder_eq (book : OrderBook) (order : Order) :
    let side := order.side
    let r := matchLevels (side.accepts order.price) order (side.other.bestFirst (book.on side.other))
    let result := book.addOrder order
    result.1 = r.2.2 ∧
    side.other.bestFirst (result.2.on side.other) = r.2.1 ∧
    result.2.on side = if r.1.qty > 0 then rest (book.on side) r.1 else book.on side := by
  cases hside : order.side with
  | buy =>
      rw [addOrder, hside]
      exact ⟨rfl, rfl, rfl⟩
  | sell =>
      rw [addOrder, hside]
      exact ⟨rfl, List.reverse_reverse _, rfl⟩

end LearnCpp.MatchingEngine
