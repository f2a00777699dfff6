/-
# `LearnCpp.Memory.SlabSlotPool` — a block that is free before it is owned

`SlabSlotPool` of `topics/memory/slab_allocator.cpp` begins without a block.  Its
`grow` threads the new block into the free list and then gives it to `blocks_`:

    free_ = &block[0];  blocks_.push_back(std::move(block));

When `push_back` throws, the block goes with the local that still owns it, and the
free list runs through memory that is gone.  As long as no `push_back` throws, the
pool does what `FixedSizePool` does, whose invariant it then has.
-/
import LearnCpp.Memory.FixedSizePool

namespace LearnCpp.Memory.SlabSlotPool

open Lib FixedSizePool

/-- The slots of a block. -/
def N : ℕ := 256

theorem one_le_N : 1 ≤ N := by decide

/-- What `grow` is answered. -/
inductive Answer where
  | block (b : ℕ)
  | makeUniqueThrows
  /-- `make_unique` has returned the block `b`. -/
  | pushBackThrows (b : ℕ)
  deriving DecidableEq

inductive Action (T : Type) where
  | allocate (answer : Answer)
  | deallocate (ptr : Option Slot)
  /-- The user of a slot writes to it. -/
  | write (slot : Slot) (data : T)

variable {T : Type}

def grow (answer : Answer) (s : State T) : Except (State T) (State T) :=
  match answer with
  | .block b =>
      .ok { s with blocks := s.blocks ++ [b], free := s.free.thread (fun i => (b, i)) N }
  | .makeUniqueThrows => .error s
  -- the block is threaded in, and freed on the way out
  | .pushBackThrows b => .error { s with free := s.free.thread (fun i => (b, i)) N }

/-- `allocate`, with the pointer that it returns, or none when it throws.  To read the link
of a slot in no block of the pool is undefined. -/
def allocate (answer : Answer) (s : State T) : Option (Option Slot × State T) :=
  match if s.free.head = none then grow answer s else .ok s with
  | .error s => some (none, s)
  | .ok s =>
      match s.free.pop with
      | some (p, free) =>
          if p.1 ∈ s.blocks then
            some (some p, { s with free := free, outstanding := s.outstanding ++ [p] })
          else none
      | none => none

/-- `deallocate` is that of the other pool. -/
def deallocate (ptr : Option Slot) (s : State T) : State T := FixedSizePool.deallocate ptr s

/-- The block that `make_unique` returns. -/
def Answer.made : Answer → Option ℕ
  | block b => some b
  | makeUniqueThrows => none
  | pushBackThrows b => some b

/-- A new block is none that the pool owns. -/
def Unowned (answer : Answer) (s : State T) : Prop := ∀ b ∈ answer.made, b ∉ s.blocks

instance (answer : Answer) (s : State T) : Decidable (Unowned answer s) :=
  inferInstanceAs (Decidable (∀ b ∈ answer.made, b ∉ s.blocks))

/-- The calls that users make: they deallocate and write what is outstanding. -/
def next : Action T → State T → Option (State T)
  | .allocate answer, s =>
      if Unowned answer s then (allocate answer s).map Prod.snd else none
  | .deallocate ptr, s =>
      if ∀ p ∈ ptr, p ∈ s.outstanding then some (deallocate ptr s) else none
  | .write slot data, s =>
      if slot ∈ s.outstanding then some { s with free := s.free.write slot data } else none

/-- The pool as it is made, for what happens to be in the memory. -/
def new (cells : Slot → PoolCell Slot T) : State T where
  blocks := []
  free := { cells := cells, head := none }

/-- The free list ends, and each of its slots is in a block of the pool and not
outstanding. -/
def Sound (s : State T) : Prop :=
  ∃ nodes, s.free.Free nodes ∧ nodes.Nodup ∧ ∀ slot ∈ nodes, slot ∈ s.slots N ∧ slot ∉ s.outstanding

/-- What the pool promises along a run: it is sound after every call, and a call of
`allocate` that throws leaves it as it was. -/
structure Safe (cells : Slot → PoolCell Slot T) (as : List (Action T)) : Prop where
  sound : Always next (new cells) as Sound
  unchanged : ∀ pre answer s', pre ++ [.allocate answer] <+: as →
    Unowned answer (schedule next pre (new cells)) →
      allocate answer (schedule next pre (new cells)) = some (none, s') →
        s' = schedule next pre (new cells)

/-- No `push_back` throws while the free list is empty. -/
def Owns : Action T → State T → Prop
  | .allocate (.pushBackThrows _), s => s.free.head ≠ none
  | _, _ => True

/-! ## The pool without that exception -/

/-- The same answer for the other pool. -/
def Answer.fixed : Answer → FixedSizePool.Answer
  | block b => .block b
  | makeUniqueThrows => .makeUniqueThrows
  | pushBackThrows _ => .pushBackThrows

/-- The same call of the other pool. -/
def Action.fixed : Action T → FixedSizePool.Action T
  | allocate answer => .allocate answer.fixed
  | deallocate ptr => .deallocate ptr
  | write slot data => .write slot data

section
variable {s s' : State T} {nodes : List Slot}

theorem head_owned {p : Slot} {free : FreeList Slot T} (h : Inv N s nodes)
    (hpop : s.free.pop = some (p, free)) : p.1 ∈ s.blocks := by
  cases nodes with
  | nil =>
      rw [FreeList.pop, h.free.head_eq_none.mpr rfl] at hpop
      cases hpop
  | cons q nodes =>
      obtain ⟨free', hpop', -⟩ := h.pop
      obtain rfl := congrArg Prod.fst (Option.some.inj (hpop.symm.trans hpop'))
      exact (mem_slots.mp (h.mem_nodes.mp List.mem_cons_self).1).1

theorem fresh_fixed {answer : Answer} (hnew : Unowned answer s) :
    Fresh answer.fixed s := by
  rintro b heq
  cases answer with
  | block b' =>
      cases heq
      exact hnew b rfl
  | makeUniqueThrows => cases heq
  | pushBackThrows b' => cases heq

theorem pop_eq (h : Inv N s nodes) :
    (match s.free.pop with
      | some (p, free) =>
          if p.1 ∈ s.blocks then
            some (some p, { s with free := free, outstanding := s.outstanding ++ [p] })
          else none
      | none => none) =
    match s.free.pop with
      | some (p, free) => some (some p, { s with free := free, outstanding := s.outstanding ++ [p] })
      | none => none := by
  cases hpop : s.free.pop with
  | none => rfl
  | some popped => exact if_pos (head_owned h hpop)

/-- **The two pools do the same** where no `push_back` throws. -/
theorem allocate_eq (h : Inv N s nodes) {answer : Answer}
    (hnew : Unowned answer s) (howns : Owns (T := T) (.allocate answer) s) :
    allocate answer s = FixedSizePool.allocate N answer.fixed s := by
  rw [allocate, FixedSizePool.allocate]
  by_cases hhead : s.free.head = none
  · rw [if_pos hhead, if_pos hhead]
    cases answer with
    | block b => exact pop_eq (h.grow one_le_N (hnew b rfl))
    | makeUniqueThrows => rfl
    | pushBackThrows b => exact absurd hhead howns
  · rw [if_neg hhead, if_neg hhead]
    exact pop_eq h

theorem next_fixed (h : Inv N s nodes) {a : Action T} (hstep : next a s = some s') (howns : Owns a s) :
    FixedSizePool.next N a.fixed s = some s' := by
  cases a with
  | allocate answer =>
      rw [next] at hstep
      split at hstep
      next hnew =>
        rw [allocate_eq h hnew howns] at hstep
        exact (if_pos (fresh_fixed hnew)).trans hstep
      next => cases hstep
  | deallocate ptr => exact hstep
  | write slot data => exact hstep

theorem new_inv (cells : Slot → PoolCell Slot T) : Inv N (new cells) [] :=
  ⟨⟨.nil, fun _ hb => absurd hb List.not_mem_nil⟩, List.Perm.refl [], List.nodup_nil⟩

theorem sound_of_inv (h : Inv N s nodes) : Sound s :=
  ⟨nodes, h.free, (List.nodup_append.mp h.nodup).1, fun _ hslot => h.mem_nodes.mp hslot⟩

/-- The exception leaves a free list that begins in a block nobody owns. -/
theorem not_sound_of_not_owns {a : Action T} (hstep : next a s = some s') (hnot : ¬ Owns a s) :
    ¬ Sound s' := by
  rintro ⟨nodes, hfree, -, hnodes⟩
  cases a with
  | allocate answer =>
      cases answer with
      | pushBackThrows b =>
          have hhead : s.free.head = none := Decidable.not_not.mp hnot
          rw [next] at hstep
          split at hstep
          next hnew =>
            rw [allocate, if_pos hhead] at hstep
            obtain rfl := Option.some.inj hstep
            have hfirst : (b, 0) ∈ nodes := by
              cases nodes with
              | nil => cases hfree.head_eq_none.mpr rfl
              | cons p nodes =>
                  obtain rfl := Option.some.inj hfree.linked.head_eq_some
                  exact List.mem_cons_self
            exact hnew b rfl (mem_slots.mp (hnodes _ hfirst).1).1
          next => cases hstep
      | block b => exact hnot trivial
      | makeUniqueThrows => exact hnot trivial
  | deallocate ptr => exact hnot trivial
  | write slot data => exact hnot trivial

/-- A call that throws has changed nothing, where no `push_back` throws. -/
theorem eq_of_throws {answer : Answer} (howns : Owns (T := T) (.allocate answer) s)
    (hthrows : allocate answer s = some (none, s')) : s' = s := by
  rw [allocate] at hthrows
  split at hthrows
  next s₁ hgrow =>
    split at hgrow
    next hhead =>
      cases answer with
      | block b => cases hgrow
      | makeUniqueThrows =>
          cases hgrow
          cases hthrows
          rfl
      | pushBackThrows b => exact absurd hhead howns
    next => cases hgrow
  next s₁ hgrow =>
    split at hthrows
    next =>
      split at hthrows <;> cases hthrows
    next => cases hthrows

end

/-- **The pool is safe** in just those runs in which no `push_back` on `blocks_` throws while
the free list is empty. -/
theorem safe_iff (cells : Slot → PoolCell Slot T) (as : List (Action T)) :
    Safe cells as ↔ EachStep next (new cells) as Owns := by
  have hinv0 : ∃ nodes, Inv N (new cells : State T) nodes := ⟨[], new_inv cells⟩
  have hkeep : ∀ (a : Action T) s s', (∃ nodes, Inv N s nodes) → next a s = some s' → Owns a s →
      ∃ nodes, Inv N s' nodes := by
    rintro a s s' ⟨nodes, h⟩ hstep howns
    exact (h.next one_le_N (next_fixed h hstep howns)).1
  have hsound : Always next (new cells) as Sound ↔ EachStep next (new cells) as Owns := by
    refine always_iff (fun s => ∃ nodes, Inv N s nodes) hinv0 ?_ hkeep ?_
    · rintro s ⟨nodes, h⟩
      exact sound_of_inv h
    · rintro a s s' - hstep hnot
      exact not_sound_of_not_owns hstep hnot
  refine ⟨fun h => hsound.mp h.sound, fun howns => ⟨hsound.mpr howns, ?_⟩⟩
  intro pre answer s' hp hnew hthrows
  refine eq_of_throws (howns pre (.allocate answer) hp ?_) hthrows
  rw [next, if_pos hnew, hthrows]
  rfl

/-- The first block is had, and the vector has no room for it. -/
theorem not_safe_pushBackThrows :
    ¬ Safe (fun _ => .user 0 : Slot → PoolCell Slot ℕ) [.allocate (.pushBackThrows 7)] := by
  intro h
  refine not_sound_of_not_owns (s := new _) (a := .allocate (.pushBackThrows 7)) rfl ?_ (h.sound _ (List.prefix_refl _))
  exact fun howns => howns rfl

end LearnCpp.Memory.SlabSlotPool
