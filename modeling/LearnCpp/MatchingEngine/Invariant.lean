/-
# `LearnCpp.MatchingEngine.Invariant` — every reachable book is well formed and uncrossed

Carried through `add_order` together (`OrderBook.Inv`): resting orders have a
positive quantity and are in the level of their price on their own side, no level
is empty, and every bid is below every ask.

The last one rests on where the loops stop.  If something is left of the incoming
order, they have stopped at a price that its limit does not accept, so what
remains on the other side is beyond the limit when the order is rested.
-/
import LearnCpp.MatchingEngine.Greedy

namespace LearnCpp.MatchingEngine

open Lib

/-- The levels of a side hold its own orders, each in the level of its price,
with something left of it; and no level is empty. -/
def SideInv (side : Side) (levels : List (Price × List Order)) : Prop :=
  ∀ entry ∈ levels, entry.2 ≠ [] ∧
    ∀ order ∈ entry.2, 0 < order.qty ∧ order.side = side ∧ order.price = entry.1

structure OrderBook.Inv (book : OrderBook) : Prop where
  onSide : ∀ side, SideInv side (book.on side).entries
  uncrossed : ∀ side, ∀ own ∈ (book.on side).entries, ∀ entry ∈ (book.on side.other).entries,
    side.accepts own.1 entry.1 = false

theorem OrderBook.Inv.bestFirst {book : OrderBook} (h : book.Inv) (order : Order) :
    BestFirst (order.side.accepts order.price)
      (order.side.other.bestFirst (book.on order.side.other)) where
  price entry he resting hr := ((h.onSide _ entry (Side.mem_bestFirst.mp he)).2 resting hr).2.2
  ordered := Side.accepts_pairwise ..

/-! ## The loops -/

theorem fillLevel_keeps {side : Side} {price : Price} : ∀ {level : List Order} (order : Order),
    (∀ o ∈ level, 0 < o.qty ∧ o.side = side ∧ o.price = price) →
      ∀ o ∈ (fillLevel order level).2.1, 0 < o.qty ∧ o.side = side ∧ o.price = price
  | [], _, h => h
  | resting :: level, order, h => by
      obtain ⟨hhead, htail⟩ := List.forall_mem_cons.mp h
      rcases le_or_gt order.qty 0 with hdone | hpos
      · rwa [fillLevel_done hdone]
      · rcases le_or_gt resting.qty order.qty with hle | hlt
        · rw [fillLevel_used hpos hle]
          exact fillLevel_keeps _ htail
        · rw [fillLevel_left hpos hlt]
          exact List.forall_mem_cons.mpr ⟨⟨sub_pos.mpr hlt, hhead.2⟩, htail⟩

theorem matchLevels_keeps {accepts : Price → Bool} {side : Side} :
    ∀ {levels : List (Price × List Order)} (order : Order),
      SideInv side levels → SideInv side (matchLevels accepts order levels).2.1
  | [], _, h => h
  | (price, level) :: levels, order, h => by
      obtain ⟨⟨hne, hlevel⟩, htail⟩ := List.forall_mem_cons.mp h
      unfold matchLevels
      split
      · dsimp only
        split
        · exact matchLevels_keeps _ htail
        · next hrest =>
            exact List.forall_mem_cons.mpr ⟨⟨hrest, fillLevel_keeps order hlevel⟩, htail⟩
      · exact h

/-- If something is left of the incoming order, no level is left that its limit accepts. -/
theorem matchLevels_beyond {accepts : Price → Bool} : ∀ {levels : List (Price × List Order)} {order : Order},
    levels.Pairwise (fun a b => accepts b.1 = true → accepts a.1 = true) →
      0 < (matchLevels accepts order levels).1.qty →
      ∀ entry ∈ (matchLevels accepts order levels).2.1, accepts entry.1 = false
  | [], _, _, _ => fun _ h => absurd h List.not_mem_nil
  | (price, level) :: levels, order, hordered, hleft => by
      obtain ⟨hhead, htail⟩ := List.pairwise_cons.mp hordered
      unfold matchLevels at hleft ⊢
      split at hleft
      · next hgo =>
          rw [if_pos hgo]
          dsimp only at hleft ⊢
          split at hleft
          · next hempty =>
              rw [if_pos hempty]
              exact matchLevels_beyond htail hleft
          · next hrest => exact absurd hleft (not_lt.mpr (fillLevel_rest hrest))
      · next hstop =>
          rw [if_neg hstop]
          have hnot : accepts price = false := by
            rw [← Bool.not_eq_true]
            exact fun hacc => hstop ⟨hleft, hacc⟩
          refine List.forall_mem_cons.mpr ⟨hnot, fun entry he => ?_⟩
          rw [← Bool.not_eq_true]
          intro hacc
          have := hhead entry he hacc
          rw [hnot] at this
          cases this

theorem matchLevels_order {accepts : Price → Bool} : ∀ {levels : List (Price × List Order)} {order : Order},
    let left := (matchLevels accepts order levels).1
    left.id = order.id ∧ left.side = order.side ∧ left.price = order.price
  | [], _ => ⟨rfl, rfl, rfl⟩
  | (price, level) :: levels, order => by
      unfold matchLevels
      split
      · rw [fillLevel_eq_greedy]
        dsimp only
        split
        · exact matchLevels_order
        · exact ⟨rfl, rfl, rfl⟩
      · exact ⟨rfl, rfl, rfl⟩

theorem mem_of_prices {levels levels' : List (Price × List Order)}
    (h : (levels'.map Prod.fst).Sublist (levels.map Prod.fst)) {entry : Price × List Order}
    (he : entry ∈ levels') : ∃ old ∈ levels, old.1 = entry.1 :=
  List.mem_map.mp (h.subset (List.mem_map_of_mem he))

/-! ## Resting an order -/

theorem SideInv.lookup {side : Side} {levels : Levels} (h : SideInv side levels.entries) (price : Price) :
    ∀ order ∈ (levels.lookup price).getD [], 0 < order.qty ∧ order.side = side ∧ order.price = price := by
  cases hlevel : levels.lookup price with
  | none => exact List.forall_mem_nil _
  | some level => exact (h (price, level) ((SortedMap.mem_entries_iff _).mpr hlevel)).2

theorem rest_keeps {side : Side} {levels : Levels} {order : Order} (h : SideInv side levels.entries)
    (hside : order.side = side) (hqty : 0 < order.qty) :
    SideInv side (rest levels order).entries ∧
      ∀ entry ∈ (rest levels order).entries,
        entry.1 = order.price ∨ ∃ old ∈ levels.entries, old.1 = entry.1 := by
  have hcase : ∀ price level, (price, level) ∈ (rest levels order).entries →
      (price = order.price ∧ level = (levels.lookup order.price).getD [] ++ [order]) ∨
        (price, level) ∈ levels.entries := by
    intro price level he
    rw [rest, SortedMap.mem_entries_iff, SortedMap.lookup_upsert] at he
    split at he
    · next hp => exact Or.inl ⟨hp, (Option.some.inj he).symm⟩
    · exact Or.inr ((SortedMap.mem_entries_iff _).mpr he)
  refine ⟨?_, ?_⟩
  · rintro ⟨price, level⟩ he
    rcases hcase price level he with ⟨rfl, rfl⟩ | hold
    · refine ⟨by simp, fun o ho => ?_⟩
      rcases List.mem_append.mp ho with ho | ho
      · exact h.lookup order.price o ho
      · obtain rfl := List.mem_singleton.mp ho
        exact ⟨hqty, hside, rfl⟩
    · exact h _ hold
  · rintro ⟨price, level⟩ he
    exact (hcase price level he).imp And.left fun hold => ⟨_, hold, rfl⟩

/-! ## One order, and all of them -/

theorem OrderBook.Inv.of_side {book : OrderBook} (side : Side)
    (hown : SideInv side (book.on side).entries)
    (hother : SideInv side.other (book.on side.other).entries)
    (huncrossed : ∀ own ∈ (book.on side).entries, ∀ entry ∈ (book.on side.other).entries,
      side.accepts own.1 entry.1 = false) : book.Inv where
  onSide side' := by
    rcases side.eq_or_eq_other side' with rfl | rfl
    · exact hown
    · exact hother
  uncrossed side' := by
    rcases side.eq_or_eq_other side' with rfl | rfl
    · exact huncrossed
    · intro own howned entry he
      rw [Side.accepts_other]
      rw [Side.other_other] at he
      exact huncrossed entry he own howned

/-- **One order keeps the book in order.**  If something is left of it, its limit
accepts none of the prices that are left on the other side. -/
theorem addOrder_inv {book : OrderBook} (h : book.Inv) (order : Order) :
    (book.addOrder order).2.Inv := by
  obtain ⟨-, hother, hown⟩ := book.addOrder_eq order
  generalize (book.addOrder order).2 = result at hother hown ⊢
  let side := order.side
  let accepts := side.accepts order.price
  let r := matchLevels accepts order (side.other.bestFirst (book.on side.other))
  -- the other side is what the loops leave of it
  have hmem : ∀ {entry}, entry ∈ (result.on side.other).entries → entry ∈ r.2.1 :=
    fun he => hother ▸ Side.mem_bestFirst.mpr he
  have hkeeps : SideInv side.other r.2.1 :=
    matchLevels_keeps order fun entry he => h.onSide side.other entry (Side.mem_bestFirst.mp he)
  have hotherInv : SideInv side.other (result.on side.other).entries :=
    fun entry he => hkeeps entry (hmem he)
  have huncrossed : ∀ own ∈ (book.on side).entries, ∀ entry ∈ (result.on side.other).entries,
      side.accepts own.1 entry.1 = false := by
    intro own howned entry he
    obtain ⟨old, hold, heq⟩ := mem_of_prices (matchLevels_prices ..) (hmem he)
    exact heq ▸ h.uncrossed side own howned old (Side.mem_bestFirst.mp hold)
  obtain ⟨-, hside, hprice⟩ : r.1.id = order.id ∧ r.1.side = order.side ∧ r.1.price = order.price :=
    matchLevels_order
  have hown : result.on side = if 0 < r.1.qty then rest (book.on side) r.1 else book.on side := hown
  split at hown
  · next hleft =>
      obtain ⟨hrest, hadd⟩ := rest_keeps (h.onSide side) hside hleft
      rw [← hown] at hrest hadd
      refine .of_side side hrest hotherInv fun own howned entry he => ?_
      rcases hadd own howned with hnew | ⟨old, hold, heq⟩
      · rw [hnew, hprice]
        exact matchLevels_beyond (Side.accepts_pairwise ..) hleft entry (hmem he)
      · exact heq ▸ huncrossed old hold entry he
  · rw [← hown] at huncrossed
    exact .of_side side (hown ▸ h.onSide side) hotherInv huncrossed

theorem empty_inv : OrderBook.Inv {} :=
  .of_side .buy (List.forall_mem_nil _) (List.forall_mem_nil _) (List.forall_mem_nil _)

theorem after_inv (orders : List Order) : (OrderBook.after orders).Inv :=
  exec_rule (fun _ (book : OrderBook) => book.Inv) empty_inv
    (fun _ order _ hinv => addOrder_inv hinv order) orders (List.prefix_refl orders)

theorem OrderBook.bestBid_mem {book : OrderBook} (h : book.bids.entries ≠ []) :
    ∃ bid ∈ book.bids.entries, bid.1 = book.bestBid :=
  ⟨book.bids.entries.getLast h, List.getLast_mem h, by simp [bestBid, List.getLast?_eq_getLast_of_ne_nil h]⟩

theorem OrderBook.bestAsk_mem {book : OrderBook} (h : book.asks.entries ≠ []) :
    ∃ ask ∈ book.asks.entries, ask.1 = book.bestAsk :=
  ⟨book.asks.entries.head h, List.head_mem h, by simp [bestAsk, List.head?_eq_some_head h]⟩

/-- **Every reachable book is well formed and uncrossed**, whatever the orders were. -/
theorem after_wellFormed (orders : List Order) :
    let book := OrderBook.after orders
    (∀ price level, book.bids.lookup price = some level →
      level ≠ [] ∧ ∀ order ∈ level, 0 < order.qty ∧ order.side = .buy ∧ order.price = price) ∧
    (∀ price level, book.asks.lookup price = some level →
      level ≠ [] ∧ ∀ order ∈ level, 0 < order.qty ∧ order.side = .sell ∧ order.price = price) ∧
    (book.bids.entries ≠ [] → book.asks.entries ≠ [] → book.bestBid < book.bestAsk) := by
  have hinv := after_inv orders
  refine ⟨fun price level hlevel => ?_, fun price level hlevel => ?_, fun hbids hasks => ?_⟩
  · exact hinv.onSide .buy (price, level) ((SortedMap.mem_entries_iff _).mpr hlevel)
  · exact hinv.onSide .sell (price, level) ((SortedMap.mem_entries_iff _).mpr hlevel)
  · obtain ⟨bid, hbid, heq⟩ := OrderBook.bestBid_mem hbids
    obtain ⟨ask, hask, heq'⟩ := OrderBook.bestAsk_mem hasks
    rw [← heq, ← heq']
    exact not_le.mp (of_decide_eq_false (hinv.uncrossed .buy bid hbid ask hask))

end LearnCpp.MatchingEngine
