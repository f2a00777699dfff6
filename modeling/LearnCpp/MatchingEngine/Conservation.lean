/-
# `LearnCpp.MatchingEngine.Conservation` — no quantity is lost or made

A ledger over whole runs: what an order was submitted with is what rests of it
plus all that was ever filled of it, as the incoming order or as a resting one.
The fills are those returned by every call so far (`fillsAfter`).

One order changes the book as follows (`addOrder_account`).  Of the orders that
rested, some quantity is gone, each time into a fill that names the order; of the
new one, what is left rests under a new id.  So the ledger of an old order moves
within its own entries, and that of the new one begins with its own fills.
-/
import Mathlib.Algebra.BigOperators.Group.List.Basic
import LearnCpp.MatchingEngine.Invariant

namespace LearnCpp.MatchingEngine

open Lib

/-- The quantity that rests under an id. -/
def restingQty (id : OrderId) (orders : List Order) : Quantity :=
  ((orders.filter fun order => order.id = id).map Order.qty).sum

/-- The quantity of the fills in which an id appears. -/
def filledQty (id : OrderId) (fills : List Fill) : Quantity :=
  ((fills.filter fun fill => fill.orderId = id ∨ fill.matchId = id).map Fill.qty).sum

namespace OrderBook

/-- The orders of a book, wherever they rest. -/
def resting (book : OrderBook) : List Order := flat book.bids.entries ++ flat book.asks.entries

/-- The book after a sequence of orders, and the fills that the calls returned. -/
def session (orders : List Order) : OrderBook × List Fill :=
  exec (fun order s => ((s.1.addOrder order).2, s.2 ++ (s.1.addOrder order).1)) orders ({}, [])

/-- All fills returned so far. -/
def fillsAfter (orders : List Order) : List Fill := (session orders).2

theorem session_fst (orders : List Order) : (session orders).1 = after orders := by
  induction orders using List.reverseRecOn with
  | nil => rfl
  | append_singleton orders order ih =>
      rw [session, after, exec_concat, exec_concat]
      exact congrArg (fun book : OrderBook => (book.addOrder order).2) ih

end OrderBook

/-! ## Adding up -/

section
variable {id : OrderId}

theorem restingQty_append (orders orders' : List Order) :
    restingQty id (orders ++ orders') = restingQty id orders + restingQty id orders' := by
  rw [restingQty, List.filter_append, List.map_append, List.sum_append]
  rfl

theorem restingQty_perm {orders orders' : List Order} (h : orders.Perm orders') :
    restingQty id orders = restingQty id orders' :=
  ((h.filter _).map _).sum_eq

theorem restingQty_cons (order : Order) (orders : List Order) :
    restingQty id (order :: orders) =
      (if order.id = id then order.qty else 0) + restingQty id orders := by
  rw [restingQty, List.filter_cons]
  split
  · next hid => rw [if_pos (of_decide_eq_true hid), List.map_cons, List.sum_cons]; rfl
  · next hid => rw [if_neg fun h => hid (decide_eq_true h), zero_add]; rfl

theorem restingQty_eq_zero {orders : List Order} (h : id ∉ orders.map Order.id) :
    restingQty id orders = 0 := by
  have hnone : orders.filter (fun order => order.id = id) = [] := by
    refine List.filter_eq_nil_iff.mpr fun order ho hid => h ?_
    exact List.mem_map.mpr ⟨order, ho, of_decide_eq_true hid⟩
  rw [restingQty, hnone]
  rfl

theorem filledQty_append (fills fills' : List Fill) :
    filledQty id (fills ++ fills') = filledQty id fills + filledQty id fills' := by
  rw [filledQty, List.filter_append, List.map_append, List.sum_append]
  rfl

theorem filledQty_cons (fill : Fill) (fills : List Fill) :
    filledQty id (fill :: fills) =
      (if fill.orderId = id ∨ fill.matchId = id then fill.qty else 0) + filledQty id fills := by
  rw [filledQty, List.filter_cons]
  split
  · next hid => rw [if_pos (of_decide_eq_true hid), List.map_cons, List.sum_cons]; rfl
  · next hid => rw [if_neg fun h => hid (decide_eq_true h), zero_add]; rfl

theorem filledQty_eq_zero {fills : List Fill}
    (h : ∀ fill ∈ fills, fill.orderId ≠ id ∧ fill.matchId ≠ id) : filledQty id fills = 0 := by
  have hnone : fills.filter (fun fill => fill.orderId = id ∨ fill.matchId = id) = [] := by
    refine List.filter_eq_nil_iff.mpr fun fill hf hid => ?_
    rcases of_decide_eq_true hid with horder | hmatch
    · exact (h fill hf).1 horder
    · exact (h fill hf).2 hmatch
  rw [filledQty, hnone]
  rfl

theorem filledQty_eq_sum {fills : List Fill} (h : ∀ fill ∈ fills, fill.orderId = id) :
    filledQty id fills = (fills.map Fill.qty).sum := by
  rw [filledQty, List.filter_eq_self.mpr fun fill hf => decide_eq_true (Or.inl (h fill hf))]

end

/-! ## One walk along the resting orders -/

section
variable {id : OrderId}

theorem greedy_total : ∀ (orders : List Order) (qty : Quantity),
    (greedy id qty orders).1 + ((greedy id qty orders).2.2.map Fill.qty).sum = qty
  | [], qty => add_zero qty
  | resting :: orders, qty => by
      rcases le_or_gt qty 0 with hdone | hpos
      · rw [greedy_done hdone]
        exact add_zero qty
      · rcases le_or_gt resting.qty qty with hle | hlt
        · rw [greedy_used hpos hle, List.map_cons, List.sum_cons, add_left_comm,
            greedy_total orders (qty - resting.qty), add_sub_cancel]
        · rw [greedy_left hpos hlt, List.map_singleton, List.sum_singleton, zero_add]

theorem greedy_nonneg : ∀ (orders : List Order) {qty : Quantity}, 0 ≤ qty → 0 ≤ (greedy id qty orders).1
  | [], _, h => h
  | resting :: orders, qty, h => by
      rcases le_or_gt qty 0 with hdone | hpos
      · rwa [greedy_done hdone]
      · rcases le_or_gt resting.qty qty with hle | hlt
        · rw [greedy_used hpos hle]
          exact greedy_nonneg orders (sub_nonneg.mpr hle)
        · rw [greedy_left hpos hlt]

theorem greedy_ids : ∀ (orders : List Order) (qty : Quantity),
    ((greedy id qty orders).2.1.map Order.id).Sublist (orders.map Order.id)
  | [], _ => .slnil
  | resting :: orders, qty => by
      rcases le_or_gt qty 0 with hdone | hpos
      · rw [greedy_done hdone]
      · rcases le_or_gt resting.qty qty with hle | hlt
        · rw [greedy_used hpos hle]
          exact (greedy_ids orders _).cons _
        · rw [greedy_left hpos hlt]
          exact .refl _

theorem greedy_fills : ∀ (orders : List Order) (qty : Quantity), ∀ fill ∈ (greedy id qty orders).2.2,
    fill.orderId = id ∧ fill.matchId ∈ orders.map Order.id
  | [], _ => List.forall_mem_nil _
  | resting :: orders, qty => by
      rcases le_or_gt qty 0 with hdone | hpos
      · rw [greedy_done hdone]
        exact List.forall_mem_nil _
      · rcases le_or_gt resting.qty qty with hle | hlt
        · rw [greedy_used hpos hle]
          refine List.forall_mem_cons.mpr ⟨⟨rfl, List.mem_cons_self ..⟩, fun fill hf => ?_⟩
          obtain ⟨horder, hmatch⟩ := greedy_fills orders _ fill hf
          exact ⟨horder, List.mem_cons_of_mem _ hmatch⟩
        · rw [greedy_left hpos hlt]
          exact List.forall_mem_singleton.mpr ⟨rfl, List.mem_cons_self ..⟩

/-- What the walk takes of a resting order goes into the fills that name it. -/
theorem greedy_account {i : OrderId} (hne : id ≠ i) : ∀ (orders : List Order) (qty : Quantity),
    restingQty i (greedy id qty orders).2.1 + filledQty i (greedy id qty orders).2.2 =
      restingQty i orders
  | [], _ => rfl
  | resting :: orders, qty => by
      rcases le_or_gt qty 0 with hdone | hpos
      · rw [greedy_done hdone]
        exact add_zero _
      · rcases le_or_gt resting.qty qty with hle | hlt
        · rw [greedy_used hpos hle]
          simp only [filledQty_cons, restingQty_cons, hne, false_or]
          rw [add_left_comm, greedy_account hne orders]
        · rw [greedy_left hpos hlt]
          simp only [filledQty_cons, restingQty_cons, hne, false_or]
          have hnil : filledQty i [] = 0 := rfl
          rw [hnil, add_zero]
          split
          · rw [add_right_comm, sub_add_cancel]
          · rw [add_zero]

end

/-! ## One order -/

theorem flat_perm {levels levels' : List (Price × List Order)} (h : levels.Perm levels') :
    (flat levels).Perm (flat levels') :=
  h.flatMap_right _

theorem Side.bestFirst_perm (side : Side) (levels : Levels) :
    (side.bestFirst levels).Perm levels.entries := by
  cases side with
  | buy => exact List.reverse_perm _
  | sell => exact List.Perm.refl _

theorem OrderBook.resting_perm (book : OrderBook) (side : Side) :
    book.resting.Perm (flat (book.on side).entries ++ flat (side.other.bestFirst (book.on side.other))) := by
  refine List.Perm.trans ?_ ((flat_perm (side.other.bestFirst_perm _)).symm.append_left _)
  cases side with
  | buy => exact List.Perm.refl _
  | sell => exact List.perm_append_comm

theorem flat_rest (levels : Levels) (order : Order) :
    (flat (rest levels order).entries).Perm (order :: flat levels.entries) := by
  obtain ⟨lo, hi, hentries, hupsert, -, -⟩ :=
    levels.upsert_split order.price fun level => level.getD [] ++ [order]
  have hmid : flat ((levels.lookup order.price).toList.map (order.price, ·)) =
      (levels.lookup order.price).getD [] := by
    cases levels.lookup order.price with
    | none => rfl
    | some level => exact List.append_nil level
  rw [rest, hupsert, hentries]
  simp only [flat, List.flatMap_append, List.flatMap_cons] at hmid ⊢
  rw [hmid, List.append_assoc, List.append_assoc]
  refine (List.perm_middle.append_left _).trans ?_
  exact List.perm_middle

/-- **What one order does to the book.**  It is filled with orders that rest, and
what is left of it rests; what remains of the others is what rested before, less
the fills. -/
theorem addOrder_account {book : OrderBook} (h : book.Inv) {order : Order} (hqty : 0 < order.qty) :
    let result := book.addOrder order
    let left := order.qty - (result.1.map Fill.qty).sum
    ∃ kept, result.2.resting.Perm ((if 0 < left then [{ order with qty := left }] else []) ++ kept) ∧
      (kept.map Order.id).Subperm (book.resting.map Order.id) ∧ 0 ≤ left ∧
      (∀ fill ∈ result.1, fill.orderId = order.id ∧ fill.matchId ∈ book.resting.map Order.id) ∧
      ∀ id ≠ order.id, restingQty id kept + filledQty id result.1 = restingQty id book.resting := by
  obtain ⟨hfills, hother, hown⟩ := book.addOrder_eq order
  obtain ⟨hleft, hfilled, hflat⟩ := matchLevels_eq_greedy order (h.bestFirst order)
  let accepts := order.side.accepts order.price
  let own := flat (book.on order.side).entries
  let old := flat (order.side.other.bestFirst (book.on order.side.other))
  let g := greedy order.id order.qty (eligible accepts old)
  have hold : old = eligible accepts old ++ others accepts old := (h.bestFirst order).partition
  have hresting : book.resting.Perm (own ++ (eligible accepts old ++ others accepts old)) := by
    rw [← hold]
    exact book.resting_perm order.side
  have hids := hresting.map Order.id
  rw [List.map_append, List.map_append] at hids
  have hfills : (book.addOrder order).1 = g.2.2 := hfills.trans hfilled
  have hremains : order.qty - (g.2.2.map Fill.qty).sum = g.1 :=
    sub_eq_of_eq_add (greedy_total (eligible accepts old) order.qty).symm
  dsimp only
  rw [hfills, hremains]
  refine ⟨own ++ (g.2.1 ++ others accepts old), ?_, ?_, greedy_nonneg _ hqty.le, ?_, ?_⟩
  · refine ((book.addOrder order).2.resting_perm order.side).trans ?_
    rw [hother, hflat, hown, hleft, ← List.append_assoc _ own]
    refine List.Perm.append_right (g.2.1 ++ others accepts old) ?_
    dsimp only
    split
    · exact flat_rest ..
    · exact List.Perm.refl _
  · refine List.Subperm.trans (List.Sublist.subperm ?_) hids.symm.subperm
    rw [List.map_append, List.map_append]
    exact ((greedy_ids ..).append_right _).append_left _
  · intro fill hf
    obtain ⟨horder, hmatch⟩ := greedy_fills _ _ fill hf
    exact ⟨horder, hids.mem_iff.mpr (List.mem_append_right _ (List.mem_append_left _ hmatch))⟩
  · intro id hid
    rw [restingQty_perm hresting, restingQty_append, restingQty_append, restingQty_append,
      restingQty_append, ← greedy_account hid.symm (eligible accepts old) order.qty,
      add_assoc, add_right_comm (restingQty id g.2.1)]

/-! ## All of them -/

/-- The ledger after some orders. -/
structure Conserved (past : List Order) (book : OrderBook) (fills : List Fill) : Prop where
  nodup : (book.resting.map Order.id).Nodup
  resting : ∀ id ∈ book.resting.map Order.id, id ∈ past.map Order.id
  filled : ∀ fill ∈ fills, fill.orderId ∈ past.map Order.id ∧ fill.matchId ∈ past.map Order.id
  qty : ∀ order ∈ past, order.qty = restingQty order.id book.resting + filledQty order.id fills

theorem Conserved.addOrder {past : List Order} {book : OrderBook} {fills : List Fill}
    (h : Conserved past book fills) (hinv : book.Inv) {order : Order} (hqty : 0 < order.qty)
    (hnew : order.id ∉ past.map Order.id) :
    Conserved (past ++ [order]) (book.addOrder order).2 (fills ++ (book.addOrder order).1) := by
  obtain ⟨kept, hresting, hkept, hnonneg, hfills, haccount⟩ := addOrder_account hinv hqty
  generalize hleft : order.qty - ((book.addOrder order).1.map Fill.qty).sum = left at *
  have hmap : (past ++ [order]).map Order.id = past.map Order.id ++ [order.id] := List.map_append
  let mine : List Order := if 0 < left then [{ order with qty := left }] else []
  have hmine : ∀ id ∈ mine.map Order.id, id = order.id := by
    intro id hid
    dsimp only [mine] at hid
    split at hid
    · exact List.mem_singleton.mp hid
    · cases hid
  have hnewkept : order.id ∉ kept.map Order.id :=
    fun hmem => hnew (h.resting _ (hkept.subset hmem))
  have hids : ((book.addOrder order).2.resting.map Order.id).Perm
      (mine.map Order.id ++ kept.map Order.id) := by
    rw [← List.map_append]
    exact hresting.map _
  refine ⟨?_, ?_, ?_, ?_⟩
  · refine hids.nodup_iff.mpr (List.Nodup.append ?_ ?_ ?_)
    · dsimp only [mine]
      split
      · exact List.nodup_singleton _
      · exact List.nodup_nil
    · obtain ⟨ids, hperm, hsub⟩ := hkept
      exact hperm.nodup_iff.mp (h.nodup.sublist hsub)
    · intro id hid hid'
      exact hnewkept (hmine id hid ▸ hid')
  · intro id hid
    rw [hmap]
    rcases List.mem_append.mp (hids.subset hid) with hid | hid
    · exact List.mem_append_right _ (List.mem_singleton.mpr (hmine id hid))
    · exact List.mem_append_left _ (h.resting id (hkept.subset hid))
  · intro fill hf
    rw [hmap]
    rcases List.mem_append.mp hf with hf | hf
    · exact (h.filled fill hf).imp (List.mem_append_left _) (List.mem_append_left _)
    · obtain ⟨horder, hmatch⟩ := hfills fill hf
      exact ⟨List.mem_append_right _ (List.mem_singleton.mpr horder),
        List.mem_append_left _ (h.resting _ hmatch)⟩
  · intro old hold
    rw [restingQty_perm hresting, restingQty_append, filledQty_append]
    rcases List.mem_append.mp hold with hold | hold
    · -- an old order: its ledger moves within its own entries
      have hne : old.id ≠ order.id := fun heq => hnew (heq ▸ List.mem_map_of_mem hold)
      have hzero : restingQty old.id mine = 0 :=
        restingQty_eq_zero fun hmem => hne (hmine _ hmem)
      rw [hzero, zero_add, h.qty old hold, ← haccount old.id hne, add_assoc,
        add_comm (filledQty old.id _)]
    · -- the new one: all that is filled of it is filled now
      obtain rfl := List.mem_singleton.mp hold
      have hpast : filledQty old.id fills = 0 := filledQty_eq_zero fun fill hf =>
        ⟨fun heq => hnew (heq ▸ (h.filled fill hf).1), fun heq => hnew (heq ▸ (h.filled fill hf).2)⟩
      have hrests : restingQty old.id mine = left := by
        dsimp only [mine]
        split
        · exact (restingQty_cons ..).trans (by rw [if_pos rfl]; exact add_zero left)
        · next hnone => exact le_antisymm hnonneg (not_lt.mp hnone)
      rw [hrests, restingQty_eq_zero hnewkept, add_zero, hpast, zero_add,
        filledQty_eq_sum fun fill hf => (hfills fill hf).1, ← hleft, sub_add_cancel]

/-- **Conservation.**  After every call, what an order was submitted with is what
rests of it and what was filled of it, and no id rests twice. -/
theorem after_conserves (orders : List Order) (hids : (orders.map Order.id).Nodup)
    (hqty : ∀ order ∈ orders, 0 < order.qty) :
    ∀ past, past <+: orders →
      let book := OrderBook.after past
      (∀ order ∈ past, order.qty = restingQty order.id book.resting +
        filledQty order.id (OrderBook.fillsAfter past)) ∧
      (book.resting.map Order.id).Nodup := by
  have hrun : ∀ past, past <+: orders →
      Conserved past (OrderBook.session past).1 (OrderBook.session past).2 := by
    refine exec_rule (fun past (s : OrderBook × List Fill) => Conserved past s.1 s.2) ?_ fun past order hp h => ?_
    · exact ⟨List.nodup_nil, List.forall_mem_nil _, List.forall_mem_nil _, List.forall_mem_nil _⟩
    · have hnodup : ((past ++ [order]).map Order.id).Nodup := hids.sublist (hp.sublist.map _)
      rw [List.map_append] at hnodup
      refine h.addOrder ?_ (hqty order (hp.subset (by simp))) fun hmem => ?_
      · exact (OrderBook.session_fst past).symm ▸ after_inv past
      · exact (List.nodup_append.mp hnodup).2.2 _ hmem _ (List.mem_singleton_self _) rfl
  intro past hp
  have h := hrun past hp
  rw [OrderBook.session_fst] at h
  exact ⟨h.qty, h.nodup⟩

/-- Two sells, a buy that takes one and a part of the other, and a buy that rests. -/
theorem after_conserves_partial_fills :
    let orders : List Order :=
      [⟨1, .sell, 100, 50⟩, ⟨2, .sell, 101, 20⟩, ⟨3, .buy, 101, 60⟩, ⟨4, .buy, 99, 5⟩]
    let book := OrderBook.after orders
    (∀ order ∈ orders, order.qty = restingQty order.id book.resting +
      filledQty order.id (OrderBook.fillsAfter orders)) ∧ (book.resting.map Order.id).Nodup :=
  after_conserves _ (by decide) (by decide) _ (List.prefix_refl _)

end LearnCpp.MatchingEngine
