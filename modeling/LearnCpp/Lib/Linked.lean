/-
# `LearnCpp.Lib.Linked` — singly linked lists in a memory

Nodes that are linked by a word in each of them, such as the free list of a pool
that keeps its links in the free blocks.  `next` reads the link of a node, and
`Linked next head nodes` says that the list from `head` on runs through `nodes`
and then ends.

A list owns the links of its nodes and no others: it does not see what is written
elsewhere (`Linked.congr`).  The pointers of a list, from its head to its end,
are its nodes once each and then the null pointer (`pointers_eq`); so two lists
through the same nodes start at the same one (`head_eq_of_perm`).
-/
import Mathlib.Data.List.Perm.Basic
import Mathlib.Data.Multiset.ZeroCons
import Mathlib.Logic.Function.Basic
import Mathlib.Tactic.Common

namespace LearnCpp.Lib

variable {β : Type}

/-- The list from `head` on runs through `nodes`, and ends. -/
inductive Linked (next : β → Option β) : Option β → List β → Prop
  | nil : Linked next none []
  | cons {b : β} {nodes : List β} : Linked next (next b) nodes → Linked next (some b) (b :: nodes)

namespace Linked

variable {next next' : β → Option β} {head head' : Option β} {nodes nodes' : List β} {b : β}

theorem eq_cons (h : Linked next (some b) nodes) :
    ∃ rest, nodes = b :: rest ∧ Linked next (next b) rest := by
  cases h with
  | cons hrest => exact ⟨_, rfl, hrest⟩

theorem head_eq_some (h : Linked next head (b :: nodes)) : head = some b := by
  cases h with
  | cons _ => rfl

theorem head_eq_none (h : Linked next head nodes) : head = none ↔ nodes = [] := by
  cases h <;> simp

/-- Only the links of its own nodes matter to a list. -/
theorem congr (hsame : ∀ b ∈ nodes, next' b = next b) (h : Linked next head nodes) :
    Linked next' head nodes := by
  induction h with
  | nil => exact .nil
  | cons _ ih =>
      refine .cons ?_
      rw [hsame _ List.mem_cons_self]
      exact ih fun b hb => hsame b (List.mem_cons_of_mem _ hb)

theorem unique (h : Linked next head nodes) (h' : Linked next head nodes') : nodes = nodes' := by
  induction h generalizing nodes' with
  | nil => exact (h'.head_eq_none.mp rfl).symm
  | cons _ ih =>
      obtain ⟨rest, rfl, hrest⟩ := h'.eq_cons
      rw [ih hrest]

theorem of_mem (h : Linked next head nodes) (hb : b ∈ nodes) :
    ∃ pre rest, nodes = pre ++ b :: rest ∧ Linked next (next b) rest := by
  induction h with
  | nil => cases hb
  | @cons b' nodes hrest ih =>
      rcases List.mem_cons.mp hb with rfl | hb
      · exact ⟨[], nodes, rfl, hrest⟩
      · obtain ⟨pre, rest, rfl, hlinked⟩ := ih hb
        exact ⟨b' :: pre, rest, rfl, hlinked⟩

theorem pointers_eq (h : Linked next head nodes) :
    head :: nodes.map next = nodes.map some ++ [none] := by
  induction h with
  | nil => rfl
  | cons _ ih =>
      rw [List.map_cons, ih]
      rfl

/-- **Lists through the same nodes have the same head.** -/
theorem head_eq_of_perm (h : Linked next head nodes) (h' : Linked next head' nodes')
    (hperm : nodes.Perm nodes') : head = head' := by
  have hpointers : (head :: nodes.map next).Perm (head' :: nodes.map next) := by
    rw [h.pointers_eq]
    refine ((hperm.map some).append_right [none]).trans ?_
    rw [← h'.pointers_eq]
    exact ((hperm.map next).cons head').symm
  exact (Multiset.cons_inj_left (nodes.map next : Multiset (Option β))).mp (Quotient.sound hpointers)

theorem range' {next : ℕ → Option ℕ} {n : ℕ} :
    ∀ {m i : ℕ}, i + m = n → (∀ j, i ≤ j → j < n → next j = if j + 1 < n then some (j + 1) else none) →
      Linked next (if i < n then some i else none) (List.range' i m)
  | 0, i, hn, _ => by
      rw [if_neg (by omega)]
      exact .nil
  | m + 1, i, hn, hnext => by
      rw [List.range'_succ, if_pos (by omega)]
      refine .cons ?_
      rw [hnext i (Nat.le_refl i) (by omega)]
      exact range' (by omega) fun j hj hjn => hnext j (by omega) hjn

end Linked

end LearnCpp.Lib
