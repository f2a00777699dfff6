/-
# `LearnCpp.MatchingEngine.Greedy` — the matching loops as one walk along a list

What the two nested loops do, without levels: the resting orders of a side in
priority order, those that the limit accepts in front, and one walk along these
that takes from each what it can (`greedy`).  `matchLevels_eq_greedy` says that
the loops are this walk.
-/
import LearnCpp.MatchingEngine.Basic

namespace LearnCpp.MatchingEngine

/-- Match a quantity along a list of resting orders: what is left of it, what is
left of the list, and the fills. -/
def greedy (id : OrderId) (qty : Quantity) : List Order → Quantity × List Order × List Fill
  | [] => (qty, [], [])
  | resting :: orders =>
      if qty ≤ 0 then (qty, resting :: orders, [])
      else if resting.qty ≤ qty then
        let g := greedy id (qty - resting.qty) orders
        (g.1, g.2.1, ⟨id, resting.id, resting.price, resting.qty⟩ :: g.2.2)
      else
        (0, { resting with qty := resting.qty - qty } :: orders,
          [⟨id, resting.id, resting.price, qty⟩])

/-- The orders that a limit accepts, and the others. -/
def eligible (accepts : Price → Bool) (orders : List Order) : List Order :=
  orders.filter fun order => accepts order.price

def others (accepts : Price → Bool) (orders : List Order) : List Order :=
  orders.filter fun order => !accepts order.price

theorem filter_append_filter {α : Type} {p : α → Bool} : ∀ {as : List α},
    as.Pairwise (fun a b => p b = true → p a = true) → as.filter p ++ as.filter (fun a => !p a) = as
  | [], _ => rfl
  | a :: as, h => by
      obtain ⟨hhead, htail⟩ := List.pairwise_cons.mp h
      have ih := filter_append_filter htail
      cases ha : p a with
      | true => rw [List.filter_cons_of_pos ha, List.filter_cons_of_neg (by simp [ha]), List.cons_append, ih]
      | false =>
          have hnone : as.filter p = [] := by
            refine List.filter_eq_nil_iff.mpr fun b hb hacc => ?_
            exact Bool.false_ne_true (ha.symm.trans (hhead b hb hacc))
          rw [hnone, List.nil_append] at ih
          rw [List.filter_cons_of_neg (by simp [ha]), List.filter_cons_of_pos (by simp [ha]), hnone, ih]
          rfl

section
variable {id : OrderId} {qty : Quantity}

theorem greedy_done (h : qty ≤ 0) (orders : List Order) : greedy id qty orders = (qty, orders, []) := by
  cases orders with
  | nil => rfl
  | cons resting orders => rw [greedy, if_pos h]

theorem greedy_used {resting : Order} {orders : List Order} (hpos : 0 < qty) (hle : resting.qty ≤ qty) :
    greedy id qty (resting :: orders) =
      let g := greedy id (qty - resting.qty) orders
      (g.1, g.2.1, ⟨id, resting.id, resting.price, resting.qty⟩ :: g.2.2) := by
  rw [greedy, if_neg (not_le.mpr hpos), if_pos hle]

theorem greedy_left {resting : Order} {orders : List Order} (hpos : 0 < qty) (hlt : qty < resting.qty) :
    greedy id qty (resting :: orders) =
      (0, { resting with qty := resting.qty - qty } :: orders,
        [⟨id, resting.id, resting.price, qty⟩]) := by
  rw [greedy, if_neg (not_le.mpr hpos), if_neg (not_le.mpr hlt)]

/-- What a walk along two lists does: it goes on to the second list when the
first is used up, and otherwise leaves it alone. -/
theorem greedy_append (orders₂ : List Order) : ∀ (orders₁ : List Order) (qty : Quantity),
    let g := greedy id qty orders₁
    greedy id qty (orders₁ ++ orders₂) =
      if g.2.1 = [] then
        let g₂ := greedy id g.1 orders₂
        (g₂.1, g₂.2.1, g.2.2 ++ g₂.2.2)
      else (g.1, g.2.1 ++ orders₂, g.2.2)
  | [], qty => by simp [greedy]
  | resting :: orders₁, qty => by
      rw [List.cons_append]
      rcases le_or_gt qty 0 with hdone | hpos
      · rw [greedy_done hdone, greedy_done hdone]
        rfl
      · rcases le_or_gt resting.qty qty with hle | hlt
        · rw [greedy_used hpos hle, greedy_used hpos hle]
          dsimp only
          rw [greedy_append orders₂ orders₁ (qty - resting.qty)]
          split <;> rfl
        · rw [greedy_left hpos hlt, greedy_left hpos hlt]
          rfl

end

theorem fillLevel_eq_greedy : ∀ (level : List Order) (order : Order),
    let g := greedy order.id order.qty level
    fillLevel order level = ({ order with qty := g.1 }, g.2.1, g.2.2)
  | [], _ => rfl
  | resting :: level, order => by
      rcases le_or_gt order.qty 0 with hdone | hpos
      · rw [fillLevel_done hdone, greedy_done hdone]
      · rcases le_or_gt resting.qty order.qty with hle | hlt
        · rw [fillLevel_used hpos hle, greedy_used hpos hle, fillLevel_eq_greedy level]
        · rw [fillLevel_left hpos hlt, greedy_left hpos hlt]

/-! ## Levels, the best first -/

/-- The orders of the levels, one after the other. -/
def flat (levels : List (Price × List Order)) : List Order := levels.flatMap Prod.snd

/-- Every order is in the level of its price, and where a level is accepted, so
are those before it. -/
structure BestFirst (accepts : Price → Bool) (levels : List (Price × List Order)) : Prop where
  price : ∀ entry ∈ levels, ∀ order ∈ entry.2, order.price = entry.1
  ordered : levels.Pairwise fun a b => accepts b.1 = true → accepts a.1 = true

section
variable {accepts : Price → Bool}

theorem BestFirst.tail {entry : Price × List Order} {levels : List (Price × List Order)}
    (h : BestFirst accepts (entry :: levels)) : BestFirst accepts levels :=
  ⟨fun e he => h.price e (List.mem_cons_of_mem _ he), (List.pairwise_cons.mp h.ordered).2⟩

theorem BestFirst.filter_head {price : Price} {level : List Order} {levels : List (Price × List Order)}
    (h : BestFirst accepts ((price, level) :: levels)) (p : Price → Bool) :
    level.filter (fun order => p order.price) = if p price then level else [] := by
  have hprice : ∀ order ∈ level, order.price = price := h.price (price, level) List.mem_cons_self
  split
  · next hp => exact List.filter_eq_self.mpr fun order ho => by rw [hprice order ho, hp]
  · next hp => exact List.filter_eq_nil_iff.mpr fun order ho => by rwa [hprice order ho]

theorem BestFirst.filter_of_not {price : Price} {level : List Order}
    {levels : List (Price × List Order)} (h : BestFirst accepts ((price, level) :: levels))
    (hnot : accepts price = false) :
    eligible accepts (flat ((price, level) :: levels)) = [] := by
  rw [eligible, List.filter_eq_nil_iff]
  intro order ho hacc
  obtain ⟨entry, he, ho⟩ := List.mem_flatMap.mp ho
  rw [h.price entry he order ho] at hacc
  rcases List.mem_cons.mp he with rfl | he
  · rw [hnot] at hacc; cases hacc
  · have := (List.pairwise_cons.mp h.ordered).1 entry he hacc
    rw [hnot] at this; cases this

theorem BestFirst.eligible_cons {price : Price} {level : List Order}
    {levels : List (Price × List Order)} (h : BestFirst accepts ((price, level) :: levels))
    (hacc : accepts price = true) :
    eligible accepts (flat ((price, level) :: levels)) = level ++ eligible accepts (flat levels) := by
  have hhead := h.filter_head accepts
  rw [hacc, if_pos rfl] at hhead
  rw [eligible, flat, List.flatMap_cons, List.filter_append, hhead]
  rfl

theorem BestFirst.others_cons {price : Price} {level : List Order}
    {levels : List (Price × List Order)} (h : BestFirst accepts ((price, level) :: levels))
    (hacc : accepts price = true) :
    others accepts (flat ((price, level) :: levels)) = others accepts (flat levels) := by
  have hhead := h.filter_head fun price => !accepts price
  rw [hacc, Bool.not_true, if_neg Bool.false_ne_true] at hhead
  rw [others, flat, List.flatMap_cons, List.filter_append, hhead]
  rfl

theorem BestFirst.partition {levels : List (Price × List Order)} (h : BestFirst accepts levels) :
    flat levels = eligible accepts (flat levels) ++ others accepts (flat levels) := by
  refine (filter_append_filter (List.pairwise_flatMap.mpr ⟨fun entry he => ?_, ?_⟩)).symm
  · refine List.pairwise_of_forall_mem_list fun a ha b hb hacc => ?_
    rwa [h.price entry he a ha, ← h.price entry he b hb]
  · refine h.ordered.imp_of_mem fun {entry entry'} he he' himp a ha b hb hacc => ?_
    rw [h.price entry' he' b hb] at hacc
    rw [h.price entry he a ha]
    exact himp hacc

/-- **The loops are one walk** along the accepted orders, best first; the others
stay behind what the walk leaves. -/
theorem matchLevels_eq_greedy : ∀ {levels : List (Price × List Order)} (order : Order),
    BestFirst accepts levels →
      let g := greedy order.id order.qty (eligible accepts (flat levels))
      let r := matchLevels accepts order levels
      r.1 = { order with qty := g.1 } ∧ r.2.2 = g.2.2 ∧
        flat r.2.1 = g.2.1 ++ others accepts (flat levels)
  | [], _, _ => ⟨rfl, rfl, rfl⟩
  | (price, level) :: levels, order, h => by
      dsimp only
      rcases le_or_gt order.qty 0 with hdone | hpos
      · rw [matchLevels_done hdone, greedy_done hdone]
        exact ⟨rfl, rfl, h.partition⟩
      · cases hacc : accepts price with
        | false =>
            have hnil := h.filter_of_not hacc
            have hpart := h.partition
            rw [hnil] at hpart ⊢
            rw [matchLevels, if_neg (by simp [hacc])]
            exact ⟨rfl, rfl, hpart⟩
        | true =>
            -- the level is the first part of what is eligible
            rw [h.eligible_cons hacc, h.others_cons hacc, greedy_append, matchLevels,
              if_pos ⟨hpos, hacc⟩, fillLevel_eq_greedy]
            dsimp only
            split
            · -- it was used up, so the walk goes on behind it
              obtain ⟨hleft, hfills, hflat⟩ := matchLevels_eq_greedy
                { order with qty := (greedy order.id order.qty level).1 } h.tail
              exact ⟨hleft, congrArg _ hfills, hflat⟩
            · refine ⟨rfl, rfl, ?_⟩
              rw [List.append_assoc, ← h.tail.partition]
              rfl

end

end LearnCpp.MatchingEngine
