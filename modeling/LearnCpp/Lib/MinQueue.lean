/-
# `LearnCpp.Lib.MinQueue` — a priority queue, and the loop that drains it

A priority queue is only ever used through `empty`, `push`, `top` and `pop`,
and its documentation fixes these up to one choice: which of several elements of
least key `top` shows.  `MinQueue` is therefore a structure: an implementation
together with the laws.  Whatever is proved for every `MinQueue` holds for every
way of breaking ties.

`drain` is the loop

    while (!q.empty()) { x = q.top(); if (!due(x)) break; q.pop(); body(x); }

and `drain_spec` says once what it does: it pops exactly the due elements, and
folds the body over them in the order in which they were popped.
-/
import Mathlib.Data.List.MinMax
import Mathlib.Tactic.Common

namespace LearnCpp.Lib

/-- An implementation of a priority queue that shows an element of least key. -/
structure MinQueue (α : Type) (key : α → ℕ) where
  /-- The queue's own representation. -/
  Q : Type
  /-- The elements stored, in no particular order. -/
  contents : Q → List α
  empty : Q
  push : α → Q → Q
  top : Q → Option α
  pop : Q → Q
  contents_empty : contents empty = []
  contents_push : ∀ a q, (contents (push a q)).Perm (a :: contents q)
  top_eq_none : ∀ q, top q = none ↔ contents q = []
  contents_pop : ∀ q a, top q = some a → (contents q).Perm (a :: contents (pop q))
  top_le : ∀ q a, top q = some a → ∀ b ∈ contents q, key a ≤ key b

namespace MinQueue

variable {α : Type} {key : α → ℕ} (pq : MinQueue α key)

theorem mem_push {a b : α} {q : pq.Q} : b ∈ pq.contents (pq.push a q) ↔ b = a ∨ b ∈ pq.contents q := by
  rw [(pq.contents_push a q).mem_iff, List.mem_cons]

/-- The loop of `drain`.  Each round pops one element, so the number of stored
elements is fuel enough; see `drainLoop_spec`. -/
def drainLoop {σ : Type} (due : α → Bool) (body : α → σ → σ) : ℕ → pq.Q → σ → pq.Q × σ
  | 0, q, s => (q, s)
  | fuel + 1, q, s =>
      match pq.top q with
      | none => (q, s)
      | some a => if due a then drainLoop due body fuel (pq.pop q) (body a s) else (q, s)

/-- Pop while the top is due, running the body on each popped element. -/
def drain {σ : Type} (due : α → Bool) (body : α → σ → σ) (q : pq.Q) (s : σ) : pq.Q × σ :=
  drainLoop pq due body (pq.contents q).length q s

/-- `popped` are exactly the due elements of `q`, and `q'` is what is left. -/
structure Drained (due : α → Bool) (q q' : pq.Q) (popped : List α) : Prop where
  perm : (pq.contents q).Perm (popped ++ pq.contents q')
  popped_due : ∀ a ∈ popped, due a = true
  rest_not_due : ∀ a ∈ pq.contents q', due a = false

theorem drainLoop_spec {due : α → Bool} (hdue : ∀ a b, key a ≤ key b → due b = true → due a = true) :
    ∀ (fuel : ℕ) (q : pq.Q), (pq.contents q).length ≤ fuel →
      ∃ popped q', pq.Drained due q q' popped ∧
        ∀ {σ : Type} (body : α → σ → σ) (s : σ),
          pq.drainLoop due body fuel q s = (q', popped.foldl (fun s a => body a s) s)
  | 0, q, hlen => by
      have hq : pq.contents q = [] := List.eq_nil_of_length_eq_zero (by omega)
      exact ⟨[], q, ⟨by simp, by simp, by simp [hq]⟩, fun _ _ => rfl⟩
  | fuel + 1, q, hlen => by
      cases htop : pq.top q with
      | none =>
          have hq : pq.contents q = [] := (pq.top_eq_none q).mp htop
          exact ⟨[], q, ⟨by simp, by simp, by simp [hq]⟩, fun _ _ => by simp [drainLoop, htop]⟩
      | some a =>
          have hpop := pq.contents_pop q a htop
          cases hda : due a with
          | false =>
              -- the top is not due, so nothing above it in the order is
              refine ⟨[], q, ⟨by simp, by simp, ?_⟩, fun _ _ => by simp [drainLoop, htop, hda]⟩
              intro b hb
              cases hdb : due b with
              | false => rfl
              | true => rw [hdue a b (pq.top_le q a htop b hb) hdb] at hda; exact hda
          | true =>
              have hlen' : (pq.contents (pq.pop q)).length ≤ fuel := by
                have := hpop.length_eq
                simp only [List.length_cons] at this
                omega
              obtain ⟨popped, q', hd, hrun⟩ := drainLoop_spec hdue fuel (pq.pop q) hlen'
              refine ⟨a :: popped, q', ⟨?_, ?_, hd.rest_not_due⟩, ?_⟩
              · exact hpop.trans (hd.perm.cons a)
              · intro b hb
                rcases List.mem_cons.mp hb with rfl | hb
                · exact hda
                · exact hd.popped_due b hb
              · intro σ body s
                simp [drainLoop, htop, hda, hrun]

/-- **What draining does.**  The popped elements depend on the queue alone, not
on the body that is run on them. -/
theorem drain_spec (due : α → Bool) (hdue : ∀ a b, key a ≤ key b → due b = true → due a = true)
    (q : pq.Q) :
    ∃ popped q', pq.Drained due q q' popped ∧
      ∀ {σ : Type} (body : α → σ → σ) (s : σ),
        pq.drain due body q s = (q', popped.foldl (fun s a => body a s) s) :=
  drainLoop_spec pq hdue _ q (Nat.le_refl _)

theorem mem_drain {due : α → Bool} (hdue : ∀ a b, key a ≤ key b → due b = true → due a = true)
    {q : pq.Q} {σ : Type} {body : α → σ → σ} {s : σ} {a : α}
    (ha : a ∈ pq.contents (pq.drain due body q s).1) : a ∈ pq.contents q ∧ due a = false := by
  obtain ⟨popped, q', hd, hrun⟩ := pq.drain_spec due hdue q
  rw [hrun] at ha
  exact ⟨hd.perm.mem_iff.mpr (List.mem_append_right _ ha), hd.rest_not_due a ha⟩

/-- The unordered implementation: a list searched for its least key. -/
def ofList (α : Type) [DecidableEq α] (key : α → ℕ) : MinQueue α key where
  Q := List α
  contents := id
  empty := []
  push := List.cons
  top := List.argmin key
  pop q := match List.argmin key q with
    | none => q
    | some a => q.erase a
  contents_empty := rfl
  contents_push _ _ := List.Perm.refl _
  top_eq_none _ := List.argmin_eq_none
  contents_pop q a h := by
    simp only [id, h]
    exact List.perm_cons_erase (List.argmin_mem (Option.mem_def.mpr h))
  top_le q a h b hb := List.le_of_mem_argmin hb (Option.mem_def.mpr h)

end MinQueue

end LearnCpp.Lib
