/-
# `LearnCpp.MatchingEngine.Priority` — the book keeps price-time priority

The book refines the reference of `LearnCpp.MatchingEngine.Reference`: one level
after the other, best price first, its orders are the reference's queue
(`Represents`), and `add_order` keeps that, whatever the order is.  On the other
side the loops are one walk along the queue; on the own side `push_back` puts the
remainder where the queue has it, behind the orders with at most its rank.
-/
import LearnCpp.MatchingEngine.Invariant
import LearnCpp.MatchingEngine.Reference

namespace LearnCpp.MatchingEngine

open Lib

/-! ## The orders of a side, before and after one level changes -/

theorem flat_append (levels levels' : List (Price × List Order)) :
    flat (levels ++ levels') = flat levels ++ flat levels' :=
  List.flatMap_append

theorem price_of_flat {side : Side} {levels : List (Price × List Order)} (h : SideInv side levels)
    {p : Price → Prop} (hp : ∀ entry ∈ levels, p entry.1) : ∀ order ∈ flat levels, p order.price := by
  intro order ho
  obtain ⟨entry, he, ho⟩ := List.mem_flatMap.mp ho
  exact ((h entry he).2 order ho).2.2 ▸ hp entry he

theorem flat_upsert (side : Side) {side' : Side} {levels : Levels} (h : SideInv side' levels.entries) (price : Price)
    (f : Option (List Order) → List Order) : ∃ front back,
      flat (side.bestFirst levels) = front ++ (levels.lookup price).getD [] ++ back ∧
      flat (side.bestFirst (levels.upsert price f)) = front ++ f (levels.lookup price) ++ back ∧
      (∀ order ∈ front, side.rank order.price < side.rank price) ∧
      ∀ order ∈ back, side.rank price < side.rank order.price := by
  obtain ⟨lo, hi, hentries, hupsert, hlo, hhi⟩ := levels.upsert_split price f
  let mid := (levels.lookup price).toList.map (price, ·)
  have hmid : flat mid = (levels.lookup price).getD [] ∧ mid.reverse = mid := by
    dsimp only [mid]
    cases levels.lookup price with
    | none => exact ⟨rfl, rfl⟩
    | some level => exact ⟨List.append_nil level, rfl⟩
  have hsplit : SideInv side' (lo ++ mid ++ hi) := hentries ▸ h
  have hlo' : ∀ order ∈ flat lo, order.price < price :=
    price_of_flat (p := (· < price))
      (fun entry he => hsplit entry (List.mem_append_left _ (List.mem_append_left _ he))) hlo
  have hhi' : ∀ order ∈ flat hi, price < order.price :=
    price_of_flat (p := (price < ·)) (fun entry he => hsplit entry (List.mem_append_right _ he)) hhi
  cases side with
  | buy =>
      refine ⟨flat hi.reverse, flat lo.reverse, ?_, ?_, ?_, ?_⟩
      · rw [Side.bestFirst, hentries, List.reverse_append, List.reverse_append, hmid.2,
          flat_append, flat_append, hmid.1, List.append_assoc]
      · rw [Side.bestFirst, hupsert, List.reverse_append, List.reverse_cons, flat_append, flat_append]
        exact congrArg (flat hi.reverse ++ · ++ flat lo.reverse) (List.append_nil _)
      · exact fun order ho => neg_lt_neg (hhi' order (by simpa [flat] using ho))
      · exact fun order ho => neg_lt_neg (hlo' order (by simpa [flat] using ho))
  | sell =>
      refine ⟨flat lo, flat hi, ?_, ?_, hlo', hhi'⟩
      · rw [Side.bestFirst, hentries, flat_append, flat_append, hmid.1]
      · rw [Side.bestFirst, hupsert, flat_append, List.append_assoc]
        rfl

/-! ## A side is determined by its orders, best first -/

theorem filter_flat {side : Side} {levels : Levels} (h : SideInv side levels.entries) (price : Price) :
    (flat (side.bestFirst levels)).filter (fun order => order.price = price) =
      (levels.lookup price).getD [] := by
  obtain ⟨front, back, hflat, -, hfront, hback⟩ := flat_upsert side h price fun _ => []
  have hfront' : front.filter (fun order => order.price = price) = [] :=
    List.filter_eq_nil_iff.mpr fun order ho heq =>
      (hfront order ho).ne (congrArg side.rank (of_decide_eq_true heq))
  have hback' : back.filter (fun order => order.price = price) = [] :=
    List.filter_eq_nil_iff.mpr fun order ho heq =>
      (hback order ho).ne' (congrArg side.rank (of_decide_eq_true heq))
  rw [hflat, List.filter_append, List.filter_append, hfront', hback', List.append_nil,
    List.nil_append, List.filter_eq_self]
  exact fun order ho => decide_eq_true (h.lookup price order ho).2.2

theorem lookup_foldl_rest (orders : List Order) (price : Price) :
    (orders.foldl rest .empty).lookup price =
      let level := orders.filter fun order => order.price = price
      if level = [] then none else some level := by
  induction orders using List.reverseRecOn with
  | nil => rfl
  | append_singleton orders order ih =>
      rw [List.foldl_append, List.foldl_cons, List.foldl_nil, rest, SortedMap.lookup_upsert,
        List.filter_append]
      rcases eq_or_ne price order.price with rfl | hne
      · -- the level of this price, or a new one, gets the order
        rw [ih, if_pos rfl]
        dsimp only
        split <;> simp_all
      · rw [ih, if_neg hne]
        simp [hne.symm]

/-- Pushing the orders of a side one after the other, best first, gives its levels. -/
theorem foldl_rest_flat {side : Side} {levels : Levels} (h : SideInv side levels.entries) :
    (flat (side.bestFirst levels)).foldl rest .empty = levels := by
  refine SortedMap.ext_lookup fun price => ?_
  rw [lookup_foldl_rest, filter_flat h]
  dsimp only
  cases hlevel : levels.lookup price with
  | none => rfl
  | some level => exact if_neg (h (price, level) ((SortedMap.mem_entries_iff _).mpr hlevel)).1

/-! ## The refinement -/

/-- The levels of the book, best first, are the queues of the reference. -/
structure Represents (book : OrderBook) (reference : Reference) : Prop where
  inv : book.Inv
  queue : ∀ side, (reference.queue side).map Arrived.item = flat (side.bestFirst (book.on side))
  numbered : reference.Numbered

namespace Represents

variable {book : OrderBook} {reference : Reference}

theorem book_eq (h : Represents book reference) : book = reference.book := by
  have hlevels : ∀ side, book.on side = reference.levels side := by
    intro side
    rw [Reference.levels, ← List.foldl_map, h.queue side, foldl_rest_flat (h.inv.onSide side)]
  exact congrArg₂ OrderBook.mk (hlevels .buy) (hlevels .sell)

theorem eligible (h : Represents book reference) (order : Order) :
    (reference.eligible order).map Arrived.item = MatchingEngine.eligible
      (order.side.accepts order.price) (flat (order.side.other.bestFirst (book.on order.side.other))) := by
  rw [MatchingEngine.eligible, ← h.queue, List.filter_map]
  rfl

theorem others (h : Represents book reference) (order : Order) :
    (reference.others order).map Arrived.item = MatchingEngine.others
      (order.side.accepts order.price) (flat (order.side.other.bestFirst (book.on order.side.other))) := by
  rw [MatchingEngine.others, ← h.queue, List.filter_map]
  rfl

/-- **The loops take what the reference takes.** -/
theorem matchLevels_eq (h : Represents book reference) (order : Order) :
    let c := consume order.id order.qty (reference.eligible order)
    let r := matchLevels (order.side.accepts order.price) order
      (order.side.other.bestFirst (book.on order.side.other))
    r.1 = { order with qty := c.1 } ∧ r.2.2 = c.2.2 ∧
      flat r.2.1 = (c.2.1 ++ reference.others order).map Arrived.item := by
  have hwalk := matchLevels_eq_greedy order (h.inv.bestFirst order)
  dsimp only at hwalk ⊢
  rw [← h.eligible, ← h.others, consume_greedy] at hwalk
  rw [List.map_append]
  exact hwalk

/-- **What is rested comes last in its level**, and last of its price in the queue. -/
theorem queue_rest (h : Represents book reference) {order : Order} {side : Side} :
    (Arrived.queue (fun order : Order => side.rank order.price)
      (reference.resting side ++ [⟨order, reference.arrivals⟩])).map Arrived.item =
      flat (side.bestFirst (rest (book.on side) order)) := by
  obtain ⟨front, back, hflat, hrest, hfront, hback⟩ :=
    flat_upsert side (h.inv.onSide side) order.price fun level => level.getD [] ++ [order]
  rw [← h.queue] at hflat
  obtain ⟨first, behind, hqueue, hfirst, hbehind⟩ := List.map_eq_append_iff.mp hflat
  obtain ⟨hnodup, hearly⟩ := h.numbered side
  have hfirst' : ∀ resting ∈ first, side.rank resting.item.price ≤ side.rank order.price := by
    intro resting hr
    rcases List.mem_append.mp (hfirst ▸ List.mem_map_of_mem hr) with hbetter | hlevel
    · exact (hfront _ hbetter).le
    · exact (congrArg side.rank ((h.inv.onSide side).lookup order.price _ hlevel).2.2).le
  have hbehind' : ∀ resting ∈ behind, side.rank order.price < side.rank resting.item.price :=
    fun resting hr => hback _ (hbehind ▸ List.mem_map_of_mem hr)
  have hplace : Arrived.queue (fun order : Order => side.rank order.price)
      (reference.resting side ++ [⟨order, reference.arrivals⟩]) =
        first ++ [⟨order, reference.arrivals⟩] ++ behind :=
    Arrived.queue_concat hnodup (fun resting hr => hearly _ (List.mem_map_of_mem hr)) hqueue
      hfirst' hbehind'
  rw [hplace, rest, hrest, List.map_append, List.map_append, hfirst, hbehind, List.append_assoc front]
  rfl

theorem addOrder (h : Represents book reference) (order : Order) :
    (book.addOrder order).1 = (reference.addOrder order).1 ∧
      Represents (book.addOrder order).2 (reference.addOrder order).2 := by
  obtain ⟨hfills, hother, hown⟩ := book.addOrder_eq order
  obtain ⟨hleft, hfills', hflat⟩ := h.matchLevels_eq order
  refine ⟨hfills.trans hfills', addOrder_inv h.inv order, fun side => ?_,
    reference.addOrder_numbered order h.numbered⟩
  rcases order.side.eq_or_eq_other side with rfl | rfl
  · rw [hown, hleft, Reference.queue, Reference.addOrder_own]
    dsimp only
    split
    · exact h.queue_rest
    · rw [List.append_nil]
      exact h.queue order.side
  · rw [hother, hflat, Reference.queue_other]

theorem lookup_own (h : Represents book reference) (order : Order) (price : Price) :
    let left := (consume order.id order.qty (reference.eligible order)).1
    ((book.addOrder order).2.on order.side).lookup price =
      if 0 < left ∧ price = order.price then
        some (((book.on order.side).lookup price).getD [] ++ [{ order with qty := left }])
      else (book.on order.side).lookup price := by
  obtain ⟨-, -, hown⟩ := book.addOrder_eq order
  rw [hown, (h.matchLevels_eq order).1]
  dsimp only
  split
  · next hleft =>
      rw [rest, SortedMap.lookup_upsert]
      rcases eq_or_ne price order.price with rfl | hne
      · rw [if_pos rfl, if_pos ⟨hleft, rfl⟩]
      · rw [if_neg hne, if_neg fun hboth => hne hboth.2]
  · next hnone => rw [if_neg fun hboth => hnone hboth.1]

theorem qty_pos (h : Represents book reference) (order : Order) :
    ∀ resting ∈ reference.eligible order, 0 < resting.item.qty := by
  intro resting hr
  have hmem := List.mem_map_of_mem (f := Arrived.item) (List.mem_of_mem_filter hr)
  rw [h.queue] at hmem
  obtain ⟨entry, he, hitem⟩ := List.mem_flatMap.mp hmem
  exact ((h.inv.onSide _ entry (Side.mem_bestFirst.mp he)).2 _ hitem).1

end Represents

theorem represents_empty : Represents {} {} where
  inv := empty_inv
  queue side := by cases side <;> rfl
  numbered _ := ⟨List.nodup_nil, List.forall_mem_nil _⟩

theorem after_represents (orders : List Order) :
    Represents (OrderBook.after orders) (Reference.after orders) :=
  exec_rule (fun past book => Represents book (Reference.after past)) represents_empty
    (fun past order _ h => Reference.after_concat past order ▸ (h.addOrder order).2)
    orders (List.prefix_refl orders)

/-- **Price-time priority.**  Whatever orders the book was made by, the next one
has the fills of the reference, and makes its book.  So it is filled by the
orders in front of the queue, each at its own price and as far as it goes; only
the last of them may have something left, and those behind it are untouched.
What is left of the order is the last of its level. -/
theorem addOrder_eq_reference (orders : List Order) (order : Order) :
    let book := OrderBook.after orders
    let reference := Reference.after orders
    let result := book.addOrder order
    let result' := reference.addOrder order
    let left := order.qty - (result.1.map Fill.qty).sum
    (result.1 = result'.1 ∧ result.2 = result'.2.book) ∧
    (∃ full part untouched taken,
      reference.eligible order = full ++ part ++ untouched ∧ part.length ≤ 1 ∧
      (∀ resting ∈ full, 0 < resting.item.qty) ∧
      (∀ resting ∈ part, 0 < taken ∧ taken < resting.item.qty) ∧
      result.1 = full.map (fun resting => fillOf order.id resting.item.qty resting) ++
        part.map (fillOf order.id taken) ∧
      result'.2.queue order.side.other =
        part.map (reduce taken) ++ untouched ++ reference.others order ∧
      (0 < left → part ++ untouched = [])) ∧
    ∀ price, (result.2.on order.side).lookup price =
      if 0 < left ∧ price = order.price then
        some (((book.on order.side).lookup price).getD [] ++ [{ order with qty := left }])
      else (book.on order.side).lookup price := by
  have h := after_represents orders
  obtain ⟨hfills, hnext⟩ := h.addOrder order
  obtain ⟨full, part, untouched, taken, hsplit, hpart, htaken, hfilled, hrest, hleft, hall⟩ :=
    consume_split order.id ((Reference.after orders).eligible order) order.qty (h.qty_pos order)
  dsimp only
  rw [hfills]
  have hremains : order.qty - (((Reference.after orders).addOrder order).1.map Fill.qty).sum =
      (consume order.id order.qty ((Reference.after orders).eligible order)).1 := hleft.symm
  rw [hremains]
  refine ⟨⟨rfl, hnext.book_eq⟩, ⟨full, part, untouched, taken, hsplit, hpart, ?_, htaken, hfilled, ?_, hall⟩, ?_⟩
  · intro resting hr
    exact h.qty_pos order resting (hsplit ▸ List.mem_append_left _ (List.mem_append_left _ hr))
  · rw [Reference.queue_other, hrest]
  · exact h.lookup_own order

/-- The best price goes first, and the earlier of two orders there. -/
example :
    let bids : List Order := [⟨1, .buy, 99, 10⟩, ⟨2, .buy, 100, 20⟩, ⟨3, .buy, 100, 20⟩]
    ((OrderBook.after bids).addOrder ⟨4, .sell, 99, 45⟩).1 =
      [⟨4, 2, 100, 20⟩, ⟨4, 3, 100, 20⟩, ⟨4, 1, 99, 5⟩] := by
  decide

end LearnCpp.MatchingEngine
