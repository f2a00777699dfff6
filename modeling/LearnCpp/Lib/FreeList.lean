/-
# `LearnCpp.Lib.FreeList` — a free list whose links lie in the free slots

A pool hands out slots of memory and keeps the free ones in a list that is linked
through the slots themselves.  A slot holds a link while it is free, and what its
user puts there while it is not; to read a link out of a user's bytes is
undefined, and `pop` is `none` there.

`Free nodes` says that the list runs through `nodes` and that each of them holds a
link.  The list sees no other slot (`Free.write`), and grows and shrinks at its
head:

    push p      nodes  ↦  p :: nodes
    pop         p :: nodes  ↦  nodes
    thread      nodes  ↦  slots of the new block, in order, ++ nodes
-/
import LearnCpp.Lib.Linked

namespace LearnCpp.Lib

/-- What is in a slot. -/
inductive PoolCell (β δ : Type) where
  | link (next : Option β)
  | user (data : δ)

structure FreeList (β δ : Type) where
  cells : β → PoolCell β δ
  head : Option β

variable {β δ : Type}

/-- The link in a slot, which ends the list where there is none. -/
def PoolCell.next : PoolCell β δ → Option β
  | link next => next
  | user _ => none

/-- The slot holds a link. -/
def PoolCell.IsLink (c : PoolCell β δ) : Prop := ∃ next, c = link next

namespace FreeList

variable [DecidableEq β]

/-- The slot is written by its user. -/
def write (p : β) (data : δ) (l : FreeList β δ) : FreeList β δ :=
  { l with cells := Function.update l.cells p (.user data) }

/-- `p->next = head; head = p;` -/
def push (p : β) (l : FreeList β δ) : FreeList β δ where
  cells := Function.update l.cells p (.link l.head)
  head := some p

omit [DecidableEq β] in
/-- `p = head; head = p->next;`, for a head that is not null and whose slot holds a link. -/
def pop (l : FreeList β δ) : Option (β × FreeList β δ) :=
  match l.head with
  | some p =>
      match l.cells p with
      | .link next => some (p, { l with head := next })
      | .user _ => none
  | none => none

/-- Each of the first `n` slots of a block is linked to the one behind it. -/
def linkUp (slot : ℕ → β) (n : ℕ) (cells : β → PoolCell β δ) : β → PoolCell β δ :=
  (List.range n).foldl (fun cells i => Function.update cells (slot i) (.link (some (slot (i + 1))))) cells

/-- The slots of a block are linked up and put in front of the list. -/
def thread (slot : ℕ → β) (size : ℕ) (l : FreeList β δ) : FreeList β δ where
  cells := Function.update (linkUp slot (size - 1) l.cells) (slot (size - 1)) (.link l.head)
  head := some (slot 0)

omit [DecidableEq β] in
/-- The list runs through `nodes`. -/
structure Free (l : FreeList β δ) (nodes : List β) : Prop where
  linked : Linked (fun b => (l.cells b).next) l.head nodes
  links : ∀ b ∈ nodes, (l.cells b).IsLink

section
variable {l l' : FreeList β δ} {nodes : List β} {p : β}

omit [DecidableEq β] in
theorem Free.congr (h : l.Free nodes) (hhead : l'.head = l.head)
    (hsame : ∀ b ∈ nodes, l'.cells b = l.cells b) : l'.Free nodes where
  linked := by
    rw [hhead]
    refine h.linked.congr fun b hb => ?_
    show (l'.cells b).next = (l.cells b).next
    rw [hsame b hb]
  links := fun b hb => by
    rw [hsame b hb]
    exact h.links b hb

theorem Free.write (h : l.Free nodes) (hp : p ∉ nodes) (data : δ) : (l.write p data).Free nodes :=
  h.congr rfl fun _ hb => Function.update_of_ne (ne_of_mem_of_not_mem hb hp) ..

theorem Free.push (h : l.Free nodes) (hp : p ∉ nodes) : (l.push p).Free (p :: nodes) := by
  have hother : ∀ b ∈ nodes, (l.push p).cells b = l.cells b :=
    fun b hb => Function.update_of_ne (ne_of_mem_of_not_mem hb hp) ..
  have hself : (l.push p).cells p = .link l.head := Function.update_self ..
  refine ⟨.cons ?_, ?_⟩
  · show Linked _ ((l.push p).cells p).next nodes
    rw [hself]
    refine h.linked.congr fun b hb => ?_
    show ((l.push p).cells b).next = (l.cells b).next
    rw [hother b hb]
  · intro b hb
    rcases List.mem_cons.mp hb with rfl | hb
    · exact ⟨l.head, hself⟩
    · rw [hother b hb]
      exact h.links b hb

omit [DecidableEq β] in
theorem Free.head_eq_none (h : l.Free nodes) : l.head = none ↔ nodes = [] := h.linked.head_eq_none

omit [DecidableEq β] in
theorem Free.pop (h : l.Free (p :: nodes)) :
    ∃ l', l.pop = some (p, l') ∧ l'.cells = l.cells ∧ l'.Free nodes := by
  obtain ⟨next, hlink⟩ := h.links p List.mem_cons_self
  have hhead : l.head = some p := h.linked.head_eq_some
  refine ⟨{ l with head := next }, ?_, rfl, ?_, fun b hb => h.links b (List.mem_cons_of_mem p hb)⟩
  · rw [FreeList.pop, hhead]
    show (match l.cells p with
      | .link next => some (p, { l with head := next })
      | .user _ => none) = _
    rw [hlink]
  · have hlinked := h.linked
    rw [hhead] at hlinked
    obtain ⟨rest, heq, hrest⟩ := hlinked.eq_cons
    obtain rfl := List.tail_eq_of_cons_eq heq
    rwa [hlink] at hrest

end

/-! ## A new block -/

section
variable {l : FreeList β δ} {nodes : List β} {slot : ℕ → β} {size : ℕ}

theorem linkUp_of_notMem {n : ℕ} {cells : β → PoolCell β δ} {b : β} (hb : ∀ i, i < n → slot i ≠ b) :
    linkUp slot n cells b = cells b := by
  induction n with
  | zero => rfl
  | succ n ih =>
      rw [linkUp, List.range_succ, List.foldl_append]
      refine (Function.update_of_ne (hb n (Nat.lt_succ_self n)).symm ..).trans ?_
      exact ih fun i hi => hb i (Nat.lt_succ_of_lt hi)

theorem linkUp_slot (hinj : slot.Injective) {n i : ℕ} (hi : i < n) {cells : β → PoolCell β δ} :
    linkUp slot n cells (slot i) = .link (some (slot (i + 1))) := by
  induction n with
  | zero => exact absurd hi (Nat.not_lt_zero i)
  | succ n ih =>
      rw [linkUp, List.range_succ, List.foldl_append]
      rcases Nat.lt_succ_iff_lt_or_eq.mp hi with hlt | rfl
      · refine (Function.update_of_ne (fun heq => hlt.ne (hinj heq)) ..).trans ?_
        exact ih hlt
      · exact Function.update_self ..

theorem thread_slot (hinj : slot.Injective) {i : ℕ} (hi : i < size) :
    (l.thread slot size).cells (slot i) =
      .link (if i + 1 < size then some (slot (i + 1)) else l.head) := by
  split
  next hlt =>
    refine (Function.update_of_ne (fun heq => ?_) ..).trans (linkUp_slot hinj (by omega))
    have := hinj heq
    omega
  next hge =>
    obtain rfl : i = size - 1 := by omega
    exact Function.update_self ..

theorem thread_of_ne {b : β} (hsize : 0 < size) (hb : ∀ i, i < size → slot i ≠ b) :
    (l.thread slot size).cells b = l.cells b := by
  refine (Function.update_of_ne (hb (size - 1) (by omega)).symm ..).trans ?_
  exact linkUp_of_notMem fun i hi => hb i (by omega)

theorem linked_thread (h : l.Free nodes) (hinj : slot.Injective) (hsize : 0 < size)
    (hnew : ∀ i, i < size → slot i ∉ nodes) :
    ∀ {m i : ℕ}, i + m = size →
      Linked (fun b => ((l.thread slot size).cells b).next) (if i < size then some (slot i) else l.head)
        ((List.range' i m).map slot ++ nodes)
  | 0, i, hi => by
      rw [if_neg (by omega)]
      refine h.linked.congr fun b hb => ?_
      have hmem : b ∈ nodes := hb
      show ((l.thread slot size).cells b).next = (l.cells b).next
      rw [thread_of_ne hsize fun j hj => (ne_of_mem_of_not_mem hmem (hnew j hj)).symm]
  | m + 1, i, hi => by
      rw [if_pos (by omega), List.range'_succ]
      refine .cons ?_
      show Linked _ ((l.thread slot size).cells (slot i)).next _
      rw [thread_slot hinj (by omega)]
      exact linked_thread h hinj hsize hnew (by omega)

/-- **A new block goes in front of the list**, its slots in order. -/
theorem Free.thread (h : l.Free nodes) (hinj : slot.Injective) (hsize : 0 < size)
    (hnew : ∀ i, i < size → slot i ∉ nodes) :
    (l.thread slot size).Free ((List.range size).map slot ++ nodes) := by
  refine ⟨?_, fun b hb => ?_⟩
  · have hlinked := linked_thread h hinj hsize hnew (Nat.zero_add size)
    rwa [if_pos hsize, ← List.range_eq_range'] at hlinked
  · rcases List.mem_append.mp hb with hb | hb
    · obtain ⟨i, hi, rfl⟩ := List.mem_map.mp hb
      exact ⟨_, thread_slot hinj (List.mem_range.mp hi)⟩
    · rw [thread_of_ne hsize fun j hj => (ne_of_mem_of_not_mem hb (hnew j hj)).symm]
      exact h.links b hb

end

end FreeList

end LearnCpp.Lib
