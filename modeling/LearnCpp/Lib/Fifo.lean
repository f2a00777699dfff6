/-
# `LearnCpp.Lib.Fifo` — queues by key, and by arrival among equal keys

What "first come, first served within a priority" means: each item has the number
of its arrival, and the queue of a collection of items is that collection sorted
by key and then by arrival (`queue`).  No order of the collection itself plays a
part, since a queue is determined by its items (`queue_eq_of_perm`).

A newcomer with the last number goes behind the items with at most its key and
before the others (`queue_concat`).
-/
import Mathlib.Data.List.Sort
import Mathlib.Data.Prod.Lex

namespace LearnCpp.Lib

/-- An item and its number in the order of arrival. -/
structure Arrived (α : Type) where
  item : α
  arrival : Nat
  deriving DecidableEq, Repr

namespace Arrived

variable {α κ : Type} [LinearOrder κ] (key : α → κ)

/-- By key, and then by arrival. -/
def Before (a b : Arrived α) : Prop :=
  toLex (key a.item, a.arrival) ≤ toLex (key b.item, b.arrival)

instance (a b : Arrived α) : Decidable (Before key a b) :=
  inferInstanceAs (Decidable (_ ≤ _))

instance : Std.Total (Before key : Arrived α → Arrived α → Prop) where
  total _ _ := le_total ..

instance : IsTrans (Arrived α) (Before key) where
  trans _ _ _ := le_trans

theorem before_iff {a b : Arrived α} : Before key a b ↔
    key a.item < key b.item ∨ (key a.item = key b.item ∧ a.arrival ≤ b.arrival) :=
  Prod.Lex.toLex_le_toLex

/-- The items with the least key first, and among equal keys by arrival. -/
def queue (as : List (Arrived α)) : List (Arrived α) := as.insertionSort (Before key)

variable {key} {as bs : List (Arrived α)}

theorem queue_perm (as : List (Arrived α)) : (queue key as).Perm as :=
  List.perm_insertionSort ..

@[simp] theorem mem_queue {a : Arrived α} : a ∈ queue key as ↔ a ∈ as :=
  (queue_perm as).mem_iff

theorem queue_pairwise (as : List (Arrived α)) : (queue key as).Pairwise (Before key) :=
  List.pairwise_insertionSort ..

theorem queue_eq_self (h : as.Pairwise (Before key)) : queue key as = as :=
  h.insertionSort_eq

theorem queue_eq_of_perm (hnodup : (as.map arrival).Nodup) (hperm : bs.Perm as)
    (hbs : bs.Pairwise (Before key)) : queue key as = bs := by
  refine List.Perm.eq_of_pairwise ?_ (queue_pairwise as) hbs ((queue_perm as).trans hperm.symm)
  intro a b ha hb hab hba
  have heq : a.arrival = b.arrival := congrArg (fun k => (ofLex k).2) (le_antisymm hab hba)
  exact List.inj_on_of_nodup_map hnodup (mem_queue.mp ha) (hperm.mem_iff.mp hb) heq

/-- The last to arrive goes behind the items with at most its key. -/
theorem queue_concat {front back : List (Arrived α)} {new : Arrived α}
    (hnodup : (as.map arrival).Nodup) (hlast : ∀ a ∈ as, a.arrival < new.arrival)
    (hqueue : queue key as = front ++ back) (hfront : ∀ a ∈ front, key a.item ≤ key new.item)
    (hback : ∀ a ∈ back, key new.item < key a.item) :
    queue key (as ++ [new]) = front ++ [new] ++ back := by
  have hpairwise : (queue key as).Pairwise (Before key) := queue_pairwise as
  rw [hqueue] at hpairwise
  obtain ⟨hf, hb, hfb⟩ := List.pairwise_append.mp hpairwise
  have harrival : ∀ a ∈ front, a.arrival < new.arrival := fun a ha =>
    hlast a (mem_queue.mp (hqueue ▸ List.mem_append_left _ ha))
  refine queue_eq_of_perm ?_ ?_ ?_
  · rw [List.map_append]
    refine hnodup.append (List.nodup_singleton _) ?_
    intro n hn hnew
    obtain ⟨a, ha, rfl⟩ := List.mem_map.mp hn
    exact (hlast a ha).ne (List.mem_singleton.mp hnew)
  · rw [List.append_assoc]
    refine (List.perm_append_comm.append_left front).trans ?_
    rw [← List.append_assoc, ← hqueue]
    exact (queue_perm as).append_right [new]
  · rw [List.append_assoc]
    refine List.pairwise_append.mpr ⟨hf, List.pairwise_cons.mpr ⟨fun b hbm => (before_iff key).mpr (Or.inl (hback b hbm)), hb⟩, ?_⟩
    intro a ha b hbm
    rcases List.mem_cons.mp hbm with rfl | hbm
    · exact (before_iff key).mpr ((hfront a ha).lt_or_eq.imp_right fun heq => ⟨heq, (harrival a ha).le⟩)
    · exact hfb a ha b hbm

end Arrived

end LearnCpp.Lib
