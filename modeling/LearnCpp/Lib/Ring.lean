/-
# `LearnCpp.Lib.Ring` — circular buffers and the queues they hold

A circular buffer of `n` slots with a write and a read index, each below `n` by
its type.  One slot stays free: the buffer is empty where the indices are equal,
and full where the write index is one behind the read index.

What is stored is read off the indices (`contents`): the slots from `read` up to
`write`.  Whoever works on the buffer, in one piece or step by step, does one of
three things to it.

    store in slots[write]     contents                (nobody's slot)
    advance write             contents ++ [slots[write]]    if it is not full
    advance read              contents without its first    if it is not empty

`push` and `pop` are these in one piece; a bounded queue with room for `n - 1`.
-/
import Mathlib.Logic.Function.Basic
import Mathlib.Data.Nat.Bitwise
import Mathlib.Data.Nat.ModEq
import Mathlib.Tactic.Common

namespace LearnCpp.Lib

/-- A circular buffer of `n` slots. -/
structure Ring (α : Type) (n : ℕ) where
  slots : Fin n → α
  write : Fin n
  read : Fin n

namespace Ring

/-! ## Slots in a circle -/

section
variable {n : ℕ} [NeZero n]

/-- The slot `k` places behind the slot `r`. -/
def slot (r : Fin n) (k : ℕ) : Fin n := ⟨(r + k) % n, Nat.mod_lt _ (Nat.pos_of_neZero n)⟩

/-- The slot behind a slot. -/
def next (r : Fin n) : Fin n := slot r 1

/-- How many places behind `r` the slot `w` is. -/
def span (r w : Fin n) : ℕ := (w + (n - r)) % n

variable {r w : Fin n} {k j : ℕ}

theorem slot_zero (r : Fin n) : slot r 0 = r := Fin.ext (Nat.mod_eq_of_lt r.isLt)

theorem slot_self (r : Fin n) : slot r n = r :=
  Fin.ext ((Nat.add_mod_right ..).trans (Nat.mod_eq_of_lt r.isLt))

theorem slot_slot (r : Fin n) (k j : ℕ) : slot (slot r k) j = slot r (k + j) :=
  Fin.ext (by simp only [slot, Nat.mod_add_mod, Nat.add_assoc])

theorem next_slot (r : Fin n) (k : ℕ) : next (slot r k) = slot r (k + 1) := slot_slot r k 1

theorem slot_next (r : Fin n) (k : ℕ) : slot (next r) k = slot r (k + 1) := by
  rw [next, slot_slot, Nat.add_comm]

theorem slot_inj (hk : k < n) (hj : j < n) (h : slot r k = slot r j) : k = j := by
  have hmod : r + k ≡ r + j [MOD n] := Fin.mk.inj h
  exact (hmod.add_left_cancel' _).eq_of_lt_of_lt hk hj

theorem span_lt (r w : Fin n) : span r w < n := Nat.mod_lt _ (Nat.pos_of_neZero n)

theorem slot_span (r w : Fin n) : slot r (span r w) = w := by
  refine Fin.ext ?_
  have hr : r + (w + (n - r)) = w + n := by omega
  simp only [slot, span]
  rw [Nat.add_mod_mod, hr, Nat.add_mod_right, Nat.mod_eq_of_lt w.isLt]

theorem span_slot (hk : k < n) : span r (slot r k) = k :=
  slot_inj (span_lt ..) hk (slot_span ..)

theorem next_eq_iff (hk : k < n) : next (slot r k) = r ↔ k + 1 = n := by
  rw [next_slot]
  constructor
  · intro h
    by_contra hne
    exact absurd (slot_inj (j := 0) (by omega) (Nat.pos_of_neZero n) (h.trans (slot_zero r).symm)) (by omega)
  · rintro rfl
    exact slot_self r

end

/-! ## What a buffer holds -/

section
variable {α : Type} {n : ℕ}

def store (b : Ring α n) (w : Fin n) (v : α) : Ring α n :=
  { b with slots := Function.update b.slots w v }

def setWrite (b : Ring α n) (w : Fin n) : Ring α n := { b with write := w }

def setRead (b : Ring α n) (r : Fin n) : Ring α n := { b with read := r }

variable {b : Ring α n} {w r : Fin n} {v : α}

@[simp] theorem store_write : (b.store w v).write = b.write := rfl
@[simp] theorem store_slots : (b.store w v).slots w = v := Function.update_self ..
@[simp] theorem setWrite_read : (b.setWrite w).read = b.read := rfl
@[simp] theorem setWrite_write : (b.setWrite w).write = w := rfl
@[simp] theorem setWrite_slots : (b.setWrite w).slots = b.slots := rfl
@[simp] theorem setRead_read : (b.setRead r).read = r := rfl
@[simp] theorem setRead_write : (b.setRead r).write = b.write := rfl

end

section
variable {α : Type} {n : ℕ} [NeZero n]

/-- An empty buffer, whatever its slots hold. -/
def empty (slots : Fin n → α) : Ring α n := ⟨slots, 0, 0⟩

/-- The slots from the read index up to the write index. -/
def filled (b : Ring α n) : List (Fin n) := (List.range (span b.read b.write)).map (slot b.read)

/-- What is stored there, the oldest first. -/
def contents (b : Ring α n) : List α := b.filled.map b.slots

variable {b : Ring α n} {v : α} {w : Fin n}

@[simp] theorem length_filled : b.filled.length = span b.read b.write := by simp [filled]

@[simp] theorem length_contents : b.contents.length = span b.read b.write := by simp [contents]

theorem length_contents_lt (b : Ring α n) : b.contents.length < n := by
  rw [length_contents]
  exact span_lt ..

theorem contents_empty (slots : Fin n → α) : (empty slots).contents = [] := by
  have hspan : span (0 : Fin n) 0 = 0 := by simp [span]
  rw [← List.length_eq_zero_iff, length_contents]
  exact hspan

theorem write_not_mem_filled (b : Ring α n) : b.write ∉ b.filled := by
  intro hmem
  obtain ⟨k, hk, hslot⟩ := List.mem_map.mp hmem
  rw [List.mem_range] at hk
  rw [← slot_span b.read b.write] at hslot
  exact hk.ne (slot_inj (hk.trans (span_lt ..)) (span_lt ..) hslot)

theorem contents_eq_nil : b.contents = [] ↔ b.read = b.write := by
  rw [← List.length_eq_zero_iff, length_contents]
  constructor
  · intro h
    have := slot_span b.read b.write
    rwa [h, slot_zero] at this
  · intro h
    rw [← h]
    exact slot_inj (r := b.read) (span_lt ..) (Nat.pos_of_neZero n) (by rw [slot_span, slot_zero])

/-- The buffer is full just when the write index would meet the read index. -/
theorem next_write_eq : next b.write = b.read ↔ b.contents.length + 1 = n := by
  rw [length_contents]
  nth_rewrite 1 [← slot_span b.read b.write]
  exact next_eq_iff (span_lt ..)

theorem next_write_ne : next b.write ≠ b.read ↔ b.contents.length + 1 < n := by
  rw [ne_eq, next_write_eq]
  have := b.length_contents_lt
  omega

/-- **Storing outside of what is filled** changes nothing. -/
theorem contents_store (h : w ∉ b.filled) (v : α) : (b.store w v).contents = b.contents := by
  refine List.map_congr_left fun i hi => ?_
  exact Function.update_of_ne (fun heq : i = w => h (heq ▸ hi)) ..

/-- **Advancing the write index** takes in the slot it was at. -/
theorem contents_advance (h : next b.write ≠ b.read) :
    (b.setWrite (next b.write)).contents = b.contents ++ [b.slots b.write] := by
  have hroom : span b.read b.write + 1 < n := by
    rw [← length_contents]
    exact next_write_ne.mp h
  have hspan : span b.read (next b.write) = span b.read b.write + 1 := by
    nth_rewrite 1 [← slot_span b.read b.write]
    rw [next_slot, span_slot hroom]
  simp only [contents, filled, setWrite_read, setWrite_write, setWrite_slots, hspan,
    List.range_succ, List.map_append, List.map_singleton, slot_span]

theorem filled_eq_cons (h : b.read ≠ b.write) :
    b.filled = b.read :: (b.setRead (next b.read)).filled := by
  have hpos : 0 < span b.read b.write := by
    rw [← length_contents, List.length_pos_iff]
    exact mt contents_eq_nil.mp h
  obtain ⟨k, hk⟩ := Nat.exists_eq_succ_of_ne_zero hpos.ne'
  have hspan : span (next b.read) b.write = k := by
    have hlt := span_lt b.read b.write
    have hwrite : slot (next b.read) k = b.write := by
      rw [slot_next, ← Nat.succ_eq_add_one, ← hk, slot_span]
    rw [← hwrite, span_slot (by omega)]
  simp only [filled, setRead_read, setRead_write, hspan, hk, List.range_succ_eq_map, List.map_cons,
    List.map_map, slot_zero]
  refine congrArg _ (List.map_congr_left fun j _ => ?_)
  exact (slot_next ..).symm

theorem read_mem_filled (h : b.read ≠ b.write) : b.read ∈ b.filled := by
  rw [filled_eq_cons h]
  exact List.mem_cons_self

/-- **Advancing the read index** drops the oldest. -/
theorem contents_eq_cons (h : b.read ≠ b.write) :
    b.contents = b.slots b.read :: (b.setRead (next b.read)).contents := by
  rw [contents, filled_eq_cons h, List.map_cons]
  rfl

/-! ## Where every slot may be in use

With all `n` slots in use the indices do not tell an empty buffer from a full
one.  Then a flag for each slot does, and the queue is laid out from some slot.
-/

/-- A queue is laid out from the slot `front` on. -/
def Laid (slots : Fin n → α) (front : Fin n) (q : List α) : Prop :=
  ∀ k, (h : k < q.length) → slots (slot front k) = q[k]

/-- The flags of the first `m` slots from `front` on are set, and no others. -/
def Flagged (flags : Fin n → Bool) (front : Fin n) (m : ℕ) : Prop :=
  ∀ k < n, flags (slot front k) = decide (k < m)

variable {slots : Fin n → α} {flags : Fin n → Bool} {front : Fin n} {q : List α} {m : ℕ}

theorem Laid.update (h : Laid slots front q) (hroom : q.length < n) (v : α) :
    Laid (Function.update slots (slot front q.length) v) front q := by
  intro k hk
  refine (Function.update_of_ne (fun heq => ?_) ..).trans (h k hk)
  exact hk.ne (slot_inj (hk.trans hroom) hroom heq)

theorem Laid.concat (h : Laid slots front q) (hv : slots (slot front q.length) = v) :
    Laid slots front (q ++ [v]) := by
  intro k hk
  rw [List.length_append, List.length_singleton] at hk
  rcases Nat.lt_succ_iff_lt_or_eq.mp hk with hlt | rfl
  · rw [List.getElem_append_left hlt]
    exact h k hlt
  · rw [List.getElem_concat_length rfl]
    exact hv

theorem Laid.head (h : Laid slots front (v :: q)) : slots front = v := by
  have := h 0 (Nat.succ_pos _)
  rwa [slot_zero] at this

theorem Laid.tail (h : Laid slots front (v :: q)) : Laid slots (next front) q := by
  intro k hk
  rw [slot_next]
  exact h (k + 1) (Nat.succ_lt_succ hk)

theorem Flagged.set (h : Flagged flags front m) (hm : m < n) :
    Flagged (Function.update flags (slot front m) true) front (m + 1) := by
  intro k hk
  rcases eq_or_ne k m with rfl | hne
  · rw [Function.update_self, decide_eq_true (Nat.lt_succ_self k)]
  · rw [Function.update_of_ne fun heq => hne (slot_inj hk hm heq), h k hk, decide_eq_decide]
    omega

theorem Flagged.clear (h : Flagged flags front (m + 1)) (hm : m < n) :
    Flagged (Function.update flags front false) (next front) m := by
  intro k hk
  rw [slot_next]
  rcases Nat.lt_or_eq_of_le (Nat.succ_le_of_lt hk) with hlt | heq
  · have hne : slot front (k + 1) ≠ front := by
      intro hback
      exact absurd (slot_inj hlt (Nat.pos_of_neZero n) (hback.trans (slot_zero front).symm)) (by omega)
    rw [Function.update_of_ne hne, h (k + 1) hlt, decide_eq_decide]
    omega
  · -- the slot just cleared is the last of the turn
    rw [← Nat.succ_eq_add_one, heq, slot_self, Function.update_self]
    exact (decide_eq_false (by omega)).symm

/-! ## In one piece -/

/-- Store a value and advance the write index, if the buffer is not full. -/
def push (v : α) (b : Ring α n) : Option (Ring α n) :=
  if next b.write = b.read then none else some ((b.store b.write v).setWrite (next b.write))

/-- Take the oldest value and advance the read index, if the buffer is not empty. -/
def pop (b : Ring α n) : Option (α × Ring α n) :=
  if b.read = b.write then none else some (b.slots b.read, b.setRead (next b.read))

theorem push_eq_none : b.push v = none ↔ b.contents.length + 1 = n := by
  rw [push, ← next_write_eq]
  split <;> simp_all

theorem push_eq_some {b' : Ring α n} (h : b.push v = some b') :
    b'.contents = b.contents ++ [v] ∧ b.contents.length + 1 < n := by
  unfold push at h
  split at h
  · cases h
  · next hroom =>
      obtain rfl := Option.some.inj h
      refine ⟨?_, ?_⟩
      · have := contents_advance (b := b.store b.write v) hroom
        rwa [contents_store b.write_not_mem_filled, store_write, store_slots] at this
      · exact next_write_ne.mp hroom

theorem pop_eq_none : b.pop = none ↔ b.contents = [] := by
  rw [pop, contents_eq_nil]
  split <;> simp_all

theorem pop_eq_some {b' : Ring α n} (h : b.pop = some (v, b')) : b.contents = v :: b'.contents := by
  unfold pop at h
  split at h
  · cases h
  · next hne =>
      obtain ⟨rfl, rfl⟩ := Prod.mk.inj (Option.some.inj h)
      exact contents_eq_cons hne

end

/-! ## Capacities that are powers of two -/

section
variable {α : Type} {k : ℕ}

instance (priority := high) neZero_capacity : NeZero (2 ^ k) := ⟨(Nat.two_pow_pos k).ne'⟩

/-- `(i + 1) & mask`, for the mask `2 ^ k - 1` -/
def maskedNext (i : Fin (2 ^ k)) : Fin (2 ^ k) :=
  ⟨(i + 1) &&& (2 ^ k - 1), Nat.and_lt_two_pow _ (Nat.sub_lt (Nat.two_pow_pos k) Nat.one_pos)⟩

theorem maskedNext_eq (i : Fin (2 ^ k)) : maskedNext i = next i :=
  Fin.ext (Nat.and_two_pow_sub_one_eq_mod ..)

/-- `push` with a mask. -/
def maskedPush (v : α) (b : Ring α (2 ^ k)) : Option (Ring α (2 ^ k)) :=
  if maskedNext b.write = b.read then none
  else some ((b.store b.write v).setWrite (maskedNext b.write))

/-- `pop` with a mask. -/
def maskedPop (b : Ring α (2 ^ k)) : Option (α × Ring α (2 ^ k)) :=
  if b.read = b.write then none else some (b.slots b.read, b.setRead (maskedNext b.read))

theorem maskedPush_eq (v : α) (b : Ring α (2 ^ k)) : maskedPush v b = b.push v := by
  rw [maskedPush, maskedNext_eq]
  rfl

theorem maskedPop_eq (b : Ring α (2 ^ k)) : maskedPop b = b.pop := by
  rw [maskedPop, maskedNext_eq]
  rfl

variable {v : α} {b b' : Ring α (2 ^ k)}

theorem maskedPush_eq_none : maskedPush v b = none ↔ b.contents.length + 1 = 2 ^ k := by
  rw [maskedPush_eq, push_eq_none]

theorem maskedPush_eq_some (h : maskedPush v b = some b') :
    b'.contents = b.contents ++ [v] ∧ b.contents.length + 1 < 2 ^ k := by
  rw [maskedPush_eq] at h
  exact push_eq_some h

theorem maskedPop_eq_some (h : maskedPop b = some (v, b')) : b.contents = v :: b'.contents := by
  rw [maskedPop_eq] at h
  exact pop_eq_some h

end

end Ring

end LearnCpp.Lib
