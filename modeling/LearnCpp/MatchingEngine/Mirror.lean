/-
# `LearnCpp.MatchingEngine.Mirror` — the two matching loops are one in the mirror

Exchange the sides of all orders and negate all prices: `match_buy`, which takes
the asks from the lowest price up, becomes `match_sell`, which takes the bids from
the highest price down.  The mirror image of a map has its entries the other way
round, so that best first stays best first,

    bestFirst side.other levels.mirror  =  (bestFirst side levels).map mirror

and a limit accepts a price exactly when its image accepts the price's.  The
loops then do the same in the mirror, resting finds the image of the level, and
so does every call from the empty book on.
-/
import LearnCpp.MatchingEngine.Basic

namespace LearnCpp.MatchingEngine

open Lib

/-! ## Mirror images -/

/-- The other side, at the negated price. -/
def Order.mirror (order : Order) : Order :=
  { order with side := order.side.other, price := -order.price }

/-- The same fill at the negated price. -/
def Fill.mirror (fill : Fill) : Fill := { fill with price := -fill.price }

/-- A level at the negated price, its orders in the same order. -/
def mirrorLevel (entry : Price × List Order) : Price × List Order :=
  (-entry.1, entry.2.map Order.mirror)

/-- The levels the other way round. -/
def mirrorLevels (levels : Levels) : Levels where
  entries := (levels.entries.map mirrorLevel).reverse
  sorted := by
    refine List.pairwise_reverse.mpr (List.pairwise_map.mpr ?_)
    exact levels.sorted.imp fun hlt => neg_lt_neg hlt

/-- Bids and asks exchanged. -/
def OrderBook.mirror (book : OrderBook) : OrderBook where
  bids := mirrorLevels book.asks
  asks := mirrorLevels book.bids

section
variable {order : Order} {book : OrderBook} {side : Side}

@[simp] theorem Order.mirror_id : order.mirror.id = order.id := rfl

@[simp] theorem Order.mirror_qty : order.mirror.qty = order.qty := rfl

@[simp] theorem Order.mirror_price : order.mirror.price = -order.price := rfl

@[simp] theorem Order.mirror_side : order.mirror.side = order.side.other := rfl

@[simp] theorem OrderBook.mirror_on : book.mirror.on side.other = mirrorLevels (book.on side) := by
  cases side <;> rfl

theorem Side.accepts_mirror (side : Side) (limit price : Price) :
    side.other.accepts (-limit) (-price) = side.accepts limit price := by
  cases side with
  | buy => exact decide_eq_decide.mpr neg_le_neg_iff
  | sell => exact decide_eq_decide.mpr neg_le_neg_iff

theorem Side.bestFirst_mirror (side : Side) (levels : Levels) :
    side.other.bestFirst (mirrorLevels levels) = (side.bestFirst levels).map mirrorLevel := by
  cases side with
  | buy => exact (List.map_reverse).symm
  | sell => exact List.reverse_reverse _

end

/-! ## The loops -/

theorem fillLevel_mirror : ∀ (level : List Order) (order : Order),
    fillLevel order.mirror (level.map Order.mirror) =
      ((fillLevel order level).1.mirror, (fillLevel order level).2.1.map Order.mirror,
        (fillLevel order level).2.2.map Fill.mirror)
  | [], _ => rfl
  | resting :: level, order => by
      rcases le_or_gt order.qty 0 with hdone | hpos
      · rw [fillLevel_done hdone, fillLevel_done (by simpa using hdone)]
        rfl
      · rcases le_or_gt resting.qty order.qty with hle | hlt
        · rw [fillLevel_used hpos hle, List.map_cons,
            fillLevel_used (by simpa using hpos) (by simpa using hle)]
          have ih := fillLevel_mirror level { order with qty := order.qty - resting.qty }
          have hleft : ({ order.mirror with qty := order.mirror.qty - resting.mirror.qty } : Order) =
              ({ order with qty := order.qty - resting.qty } : Order).mirror := rfl
          rw [hleft, ih]
          rfl
        · rw [fillLevel_left hpos hlt, List.map_cons,
            fillLevel_left (by simpa using hpos) (by simpa using hlt)]
          rfl

theorem matchLevels_mirror {accepts accepts' : Price → Bool}
    (hacc : ∀ price, accepts' (-price) = accepts price) :
    ∀ (levels : List (Price × List Order)) (order : Order),
      matchLevels accepts' order.mirror (levels.map mirrorLevel) =
        ((matchLevels accepts order levels).1.mirror,
          (matchLevels accepts order levels).2.1.map mirrorLevel,
          (matchLevels accepts order levels).2.2.map Fill.mirror)
  | [], _ => rfl
  | (price, level) :: levels, order => by
      have ih := matchLevels_mirror hacc levels
      rw [List.map_cons, mirrorLevel, matchLevels, matchLevels]
      simp only [Order.mirror_qty, hacc, fillLevel_mirror, List.map_eq_nil_iff]
      split
      · split
        · rw [ih]
          simp only [List.map_append]
        · rfl
      · rfl

/-! ## Resting and matching -/

theorem lookup_mirrorLevels (levels : Levels) (price : Price) :
    (mirrorLevels levels).lookup price = (levels.lookup (-price)).map (List.map Order.mirror) := by
  refine Option.ext fun level => ?_
  rw [← SortedMap.mem_entries_iff, Option.map_eq_some_iff, mirrorLevels, List.mem_reverse, List.mem_map]
  constructor
  · rintro ⟨⟨price', level'⟩, hmem, heq⟩
    obtain ⟨rfl, rfl⟩ := Prod.mk.inj heq
    exact ⟨level', by rwa [neg_neg, ← SortedMap.mem_entries_iff], rfl⟩
  · rintro ⟨level', hlookup, rfl⟩
    refine ⟨(-price, level'), (SortedMap.mem_entries_iff levels).mpr hlookup, ?_⟩
    rw [mirrorLevel, neg_neg]

theorem rest_mirror (levels : Levels) (order : Order) :
    rest (mirrorLevels levels) order.mirror = mirrorLevels (rest levels order) := by
  refine SortedMap.ext_lookup fun price => ?_
  rw [lookup_mirrorLevels, rest, rest, SortedMap.lookup_upsert, SortedMap.lookup_upsert,
    lookup_mirrorLevels, lookup_mirrorLevels, Order.mirror_price, neg_neg]
  by_cases hprice : price = -order.price
  · rw [if_pos hprice, if_pos (by rw [hprice, neg_neg])]
    cases levels.lookup order.price with
    | none => rfl
    | some level => simp
  · rw [if_neg hprice, if_neg fun h => hprice (by rw [← h, neg_neg])]

theorem Side.bestFirst_injective (side : Side) {levels levels' : Levels}
    (h : side.bestFirst levels = side.bestFirst levels') : levels = levels' := by
  obtain ⟨entries, sorted⟩ := levels
  obtain ⟨entries', sorted'⟩ := levels'
  cases side with
  | buy => cases List.reverse_injective h; rfl
  | sell => cases h; rfl

theorem OrderBook.ext_on (side : Side) {book book' : OrderBook} (hown : book.on side = book'.on side)
    (hother : book.on side.other = book'.on side.other) : book = book' := by
  obtain ⟨bids, asks⟩ := book
  obtain ⟨bids', asks'⟩ := book'
  cases side with
  | buy => cases hown; cases hother; rfl
  | sell => cases hown; cases hother; rfl

namespace OrderBook

theorem addOrder_mirror (book : OrderBook) (order : Order) :
    book.mirror.addOrder order.mirror =
      ((book.addOrder order).1.map Fill.mirror, (book.addOrder order).2.mirror) := by
  obtain ⟨hfills, hother, hown⟩ := addOrder_eq book order
  obtain ⟨hfills', hother', hown'⟩ := addOrder_eq book.mirror order.mirror
  have hloop := matchLevels_mirror (fun price => Side.accepts_mirror order.side order.price price)
    (order.side.other.bestFirst (book.on order.side.other)) order
  simp only [Order.mirror_side, Order.mirror_price, mirror_on, Side.bestFirst_mirror, hloop]
    at hfills' hother' hown'
  refine Prod.ext ?_ (OrderBook.ext_on order.side.other ?_ ?_)
  · rw [hfills', hfills]
  · rw [hown', mirror_on, hown, Order.mirror_qty, rest_mirror]
    exact (apply_ite mirrorLevels _ _ _).symm
  · refine Side.bestFirst_injective _ (hother'.trans ?_)
    rw [mirror_on, Side.bestFirst_mirror, hother]

/-- A sequence of calls: the fills that each returns, and the book after them. -/
def addOrders (book : OrderBook) : List Order → List (List Fill) × OrderBook
  | [] => ([], book)
  | order :: orders =>
      let r := (book.addOrder order).2.addOrders orders
      ((book.addOrder order).1 :: r.1, r.2)

theorem addOrders_mirror (orders : List Order) : ∀ book : OrderBook,
    book.mirror.addOrders (orders.map Order.mirror) =
      ((book.addOrders orders).1.map (List.map Fill.mirror), (book.addOrders orders).2.mirror) := by
  induction orders with
  | nil => intro book; rfl
  | cons order orders ih =>
      intro book
      rw [List.map_cons, addOrders, addOrder_mirror, ih]
      rfl

end OrderBook

/-- **Buying and selling are mirror images**: the orders with sides exchanged and prices
negated get, call by call, the fills with prices negated, and lead to the mirror image of
the book. -/
theorem runs_mirror (orders : List Order) :
    OrderBook.addOrders {} (orders.map Order.mirror) =
      ((OrderBook.addOrders {} orders).1.map (List.map Fill.mirror),
        (OrderBook.addOrders {} orders).2.mirror) :=
  OrderBook.addOrders_mirror orders {}

end LearnCpp.MatchingEngine
