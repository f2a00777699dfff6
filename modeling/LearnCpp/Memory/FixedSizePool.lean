/-
# `LearnCpp.Memory.FixedSizePool` — slots that are free or outstanding

`topics/memory/fixed_size_memory_pool.cpp`: the pool owns blocks of `BlockSize`
slots, keeps the free slots in a list through the slots themselves, and gets
another block when the list is empty.  A slot is the number of its block and its
place there; which number the allocator gives to a new block comes with the
action, and so does the exception that `make_unique` or `push_back` may throw.

A pointer that `allocate` returned is outstanding until it is deallocated, and
while it is, its user may write what it likes.  After every call

    free list ++ outstanding   =   slots of all blocks, each once

so no user's bytes are ever read as a link, and no slot is handed out twice.  Which
pointers are outstanding, the calls themselves say: what they returned and were given.
-/
import LearnCpp.Lib.FreeList
import LearnCpp.Lib.Schedule
import Mathlib.Data.List.Nodup

namespace LearnCpp.Memory.FixedSizePool

open Lib

/-- A `Chunk`, by its block and its place in it. -/
abbrev Slot := ℕ × ℕ

/-- `free` are the memory and `free_list_`; `outstanding` the pointers that were
returned and not deallocated since. -/
structure State (T : Type) where
  blocks : List ℕ
  free : FreeList Slot T
  outstanding : List Slot := []

/-- What `grow` is answered. -/
inductive Answer where
  | block (b : ℕ)
  | makeUniqueThrows
  | pushBackThrows
  deriving DecidableEq

inductive Action (T : Type) where
  | allocate (answer : Answer)
  | deallocate (ptr : Option Slot)
  /-- The user of a slot writes to it. -/
  | write (slot : Slot) (data : T)

variable {T : Type}

/-- `grow`; the state that an exception leaves is that of its first statement. -/
def grow (blockSize : ℕ) (answer : Answer) (s : State T) : Except (State T) (State T) :=
  match answer with
  | .block b =>
      .ok { s with
        blocks := s.blocks ++ [b], free := s.free.thread (fun i => (b, i)) blockSize }
  | .makeUniqueThrows | .pushBackThrows => .error s

/-- `allocate`, with the pointer that it returns, or none when it throws. -/
def allocate (blockSize : ℕ) (answer : Answer) (s : State T) : Option (Option Slot × State T) :=
  match if s.free.head = none then grow blockSize answer s else .ok s with
  | .error s => some (none, s)
  | .ok s =>
      match s.free.pop with
      | some (p, free) => some (some p, { s with free := free, outstanding := s.outstanding ++ [p] })
      | none => none

def deallocate (ptr : Option Slot) (s : State T) : State T :=
  match ptr with
  | some p => { s with free := s.free.push p, outstanding := s.outstanding.erase p }
  | none => s

/-- A new block is none that the pool owns. -/
def Fresh (answer : Answer) (s : State T) : Prop := ∀ b, answer = .block b → b ∉ s.blocks

instance : ∀ (answer : Answer) (s : State T), Decidable (Fresh answer s)
  | .block b, s =>
      decidable_of_iff (b ∉ s.blocks) ⟨fun h _ heq => by cases heq; exact h, fun h => h b rfl⟩
  | .makeUniqueThrows, _ | .pushBackThrows, _ => .isTrue fun _ h => by cases h

/-- The calls that users make: they deallocate and write what is outstanding. -/
def next (blockSize : ℕ) : Action T → State T → Option (State T)
  | .allocate answer, s =>
      if Fresh answer s then (allocate blockSize answer s).map Prod.snd else none
  | .deallocate ptr, s =>
      if ∀ p ∈ ptr, p ∈ s.outstanding then some (deallocate ptr s) else none
  | .write slot data, s =>
      if slot ∈ s.outstanding then some { s with free := s.free.write slot data } else none

instance decidableOutstanding (slot : Slot) (s : State T) : Decidable (slot ∈ s.outstanding) :=
  inferInstance

/-- What the users see of the pool. -/
inductive Event where
  | returned (ptr : Slot)
  | deallocated (ptr : Slot)
  deriving DecidableEq

/-- What a call shows. -/
def event (blockSize : ℕ) : Action T → State T → List Event
  | .allocate answer, s =>
      match allocate blockSize answer s with
      | some (some p, _) => [.returned p]
      | _ => []
  | .deallocate (some p), _ => [.deallocated p]
  | .deallocate none, _ | .write _ _, _ => []

/-- The pointers that users hold, before and after an event. -/
def hold (held : List Slot) : Event → List Slot
  | .returned p => held ++ [p]
  | .deallocated p => held.erase p

/-- The constructor, for what happens to be in the memory and the block it gets. -/
def new (blockSize : ℕ) (cells : Slot → PoolCell Slot T) (b : ℕ) : State T where
  blocks := [b]
  free := FreeList.thread (fun i => (b, i)) blockSize { cells := cells, head := none }

/-- The slots of all blocks. -/
def State.slots (blockSize : ℕ) (s : State T) : List Slot :=
  s.blocks.flatMap fun b => (List.range blockSize).map fun i => (b, i)

/-- What users may call. -/
def Allowed : Action T → State T → Prop
  | .allocate answer, s => Fresh answer s
  | .deallocate ptr, s => ∀ p ∈ ptr, p ∈ s.outstanding
  | .write slot _, s => slot ∈ s.outstanding

/-- What the pool promises: its list ends and has the slots that are not outstanding,
each once; `allocate` returns one of them, or throws, which it does only when there is none
and a block cannot be had, and changes nothing; and every call that is allowed returns. -/
structure Sound (blockSize : ℕ) (s : State T) : Prop where
  freeList : ∃ nodes, s.free.Free nodes ∧ nodes.Nodup ∧
    ∀ slot, slot ∈ nodes ↔ slot ∈ s.slots blockSize ∧ slot ∉ s.outstanding
  allocates : ∀ answer, Fresh answer s → ∃ result s', allocate blockSize answer s = some (result, s') ∧
    (∀ slot, result = some slot → slot ∉ s.outstanding) ∧
    (result = none → s' = s ∧ (∀ slot ∈ s.slots blockSize, slot ∈ s.outstanding) ∧
      ∀ b, answer ≠ .block b)
  serves : ∀ a, Allowed a s → (next blockSize a s).isSome

/-! ## The invariant -/

structure Inv (blockSize : ℕ) (s : State T) (nodes : List Slot) : Prop where
  free : s.free.Free nodes
  places : (nodes ++ s.outstanding).Perm (s.slots blockSize)
  blocks : s.blocks.Nodup

section
variable {blockSize : ℕ} {s s' : State T} {nodes : List Slot} {p : Slot}

theorem mem_slots : p ∈ s.slots blockSize ↔ p.1 ∈ s.blocks ∧ p.2 < blockSize := by
  simp only [State.slots, List.mem_flatMap, List.mem_map, List.mem_range]
  constructor
  · rintro ⟨b, hb, i, hi, rfl⟩
    exact ⟨hb, hi⟩
  · rintro ⟨hb, hi⟩
    exact ⟨p.1, hb, p.2, hi, rfl⟩

theorem slot_injective (b : ℕ) : Function.Injective fun i : ℕ => (b, i) :=
  fun _ _ heq => congrArg Prod.snd heq

theorem slots_nodup (h : s.blocks.Nodup) : (s.slots blockSize).Nodup := by
  refine List.nodup_flatMap.mpr ⟨fun b _ => List.nodup_range.map (slot_injective b), ?_⟩
  refine h.imp fun hne => ?_
  intro slot hslot hslot'
  obtain ⟨i, -, rfl⟩ := List.mem_map.mp hslot
  obtain ⟨j, -, heq⟩ := List.mem_map.mp hslot'
  exact hne (congrArg Prod.fst heq).symm

theorem Inv.nodup (h : Inv blockSize s nodes) : (nodes ++ s.outstanding).Nodup :=
  h.places.nodup_iff.mpr (slots_nodup h.blocks)

theorem Inv.mem_nodes (h : Inv blockSize s nodes) :
    p ∈ nodes ↔ p ∈ s.slots blockSize ∧ p ∉ s.outstanding := by
  rw [← h.places.mem_iff, List.mem_append]
  constructor
  · intro hp
    exact ⟨Or.inl hp, fun hout => (List.nodup_append.mp h.nodup).2.2 p hp p hout rfl⟩
  · rintro ⟨hp, hout⟩
    exact hp.resolve_right hout

theorem Inv.grow (h : Inv blockSize s nodes) (hsize : 1 ≤ blockSize) {b : ℕ} (hb : b ∉ s.blocks) :
    Inv blockSize { s with
      blocks := s.blocks ++ [b], free := s.free.thread (fun i => (b, i)) blockSize }
      ((List.range blockSize).map (fun i => (b, i)) ++ nodes) where
  free := by
    refine h.free.thread (slot_injective b) hsize fun i _ hmem => hb ?_
    exact (mem_slots.mp (h.mem_nodes.mp hmem).1).1
  places := by
    rw [State.slots, List.flatMap_append, List.flatMap_singleton, List.append_assoc]
    exact List.perm_append_comm.trans (h.places.append_right _)
  blocks := by
    refine List.nodup_append.mpr ⟨h.blocks, List.nodup_singleton b, ?_⟩
    intro b' hb' b'' hb'' heq
    rw [heq, List.mem_singleton.mp hb''] at hb'
    exact hb hb'

theorem Inv.pop (h : Inv blockSize s (p :: nodes)) :
    ∃ free, s.free.pop = some (p, free) ∧
      Inv blockSize { s with free := free, outstanding := s.outstanding ++ [p] } nodes := by
  obtain ⟨free, hpop, -, hfree⟩ := h.free.pop
  refine ⟨free, hpop, hfree, ?_, h.blocks⟩
  refine List.Perm.trans ?_ h.places
  rw [← List.append_assoc]
  exact List.perm_append_singleton p _

/-- Every call of `allocate` returns a free slot, or throws and changes nothing. -/
theorem Inv.allocate (h : Inv blockSize s nodes) (hsize : 1 ≤ blockSize) {answer : Answer}
    (hfresh : Fresh answer s) :
    (allocate blockSize answer s = some (none, s) ∧ nodes = [] ∧ ∀ b, answer ≠ .block b) ∨
    ∃ slot s' nodes', allocate blockSize answer s = some (some slot, s') ∧
      slot ∉ s.outstanding ∧ s'.outstanding = s.outstanding ++ [slot] ∧ Inv blockSize s' nodes' := by
  have htake : ∀ (s₁ : State T) {p : Slot} {nodes₁ : List Slot}, s₁.outstanding = s.outstanding →
      Inv blockSize s₁ (p :: nodes₁) →
      ∃ s', (match s₁.free.pop with
        | some (p, free) =>
            some (some p, { s₁ with free := free, outstanding := s₁.outstanding ++ [p] })
        | none => none) = some (some p, s') ∧ p ∉ s.outstanding ∧
          s'.outstanding = s.outstanding ++ [p] ∧ Inv blockSize s' nodes₁ := by
    intro s₁ p nodes₁ hout h₁
    obtain ⟨free, hpop, hinv⟩ := h₁.pop
    rw [hpop, ← hout]
    exact ⟨_, rfl, (h₁.mem_nodes.mp List.mem_cons_self).2, rfl, hinv⟩
  cases nodes with
  | nil =>
      have hhead : s.free.head = none := h.free.head_eq_none.mpr rfl
      rw [FixedSizePool.allocate, if_pos hhead]
      cases answer with
      | makeUniqueThrows | pushBackThrows =>
          refine Or.inl ⟨rfl, rfl, fun b hb => ?_⟩
          cases hb
      | block b =>
          have hgrown := h.grow hsize (hfresh b rfl)
          obtain ⟨n, rfl⟩ := Nat.exists_eq_add_of_le' hsize
          rw [List.range_succ_eq_map, List.map_cons, List.cons_append] at hgrown
          obtain ⟨s', heq, hslot, hout, hinv⟩ := htake { s with
            blocks := s.blocks ++ [b], free := s.free.thread (fun i => (b, i)) (n + 1) } rfl hgrown
          exact Or.inr ⟨_, s', _, heq, hslot, hout, hinv⟩
  | cons p nodes =>
      have hhead : s.free.head ≠ none := fun hnone => List.cons_ne_nil p nodes (h.free.head_eq_none.mp hnone)
      rw [FixedSizePool.allocate, if_neg hhead]
      obtain ⟨s', heq, hslot, hout, hinv⟩ := htake s rfl h
      exact Or.inr ⟨_, s', _, heq, hslot, hout, hinv⟩

theorem Inv.deallocate (h : Inv blockSize s nodes) (hp : p ∈ s.outstanding) :
    Inv blockSize (deallocate (some p) s) (p :: nodes) where
  free := h.free.push fun hmem => (h.mem_nodes.mp hmem).2 hp
  places := by
    refine List.Perm.trans ?_ h.places
    refine List.perm_middle.symm.trans ?_
    exact (List.perm_cons_erase hp).symm.append_left nodes
  blocks := h.blocks

theorem Inv.write (h : Inv blockSize s nodes) (hp : p ∈ s.outstanding) (data : T) :
    Inv blockSize { s with free := s.free.write p data } nodes where
  free := h.free.write (fun hmem => (h.mem_nodes.mp hmem).2 hp) data
  places := h.places
  blocks := h.blocks

theorem Inv.next (h : Inv blockSize s nodes) (hsize : 1 ≤ blockSize) {a : Action T}
    (hstep : next blockSize a s = some s') :
    (∃ nodes', Inv blockSize s' nodes') ∧
      s'.outstanding = (event blockSize a s).foldl hold s.outstanding := by
  cases a with
  | allocate answer =>
      rw [FixedSizePool.next] at hstep
      split at hstep
      next hfresh =>
        obtain ⟨heq, -, -⟩ | ⟨slot, s₁, nodes', heq, -, hout, hinv⟩ := h.allocate hsize hfresh
        · rw [heq] at hstep
          obtain rfl := Option.some.inj hstep
          rw [event, heq]
          exact ⟨⟨nodes, h⟩, rfl⟩
        · rw [heq] at hstep
          obtain rfl := Option.some.inj hstep
          rw [event, heq]
          exact ⟨⟨nodes', hinv⟩, hout⟩
      next => cases hstep
  | deallocate ptr =>
      rw [FixedSizePool.next] at hstep
      split at hstep
      next hptr =>
        obtain rfl := Option.some.inj hstep
        cases ptr with
        | none => exact ⟨⟨nodes, h⟩, rfl⟩
        | some p => exact ⟨⟨p :: nodes, h.deallocate (hptr p rfl)⟩, rfl⟩
      next => cases hstep
  | write slot data =>
      rw [FixedSizePool.next] at hstep
      split at hstep
      next hslot =>
        obtain rfl := Option.some.inj hstep
        exact ⟨⟨nodes, h.write hslot data⟩, rfl⟩
      next => cases hstep

theorem new_inv (hsize : 1 ≤ blockSize) (cells : Slot → PoolCell Slot T) (b : ℕ) :
    Inv blockSize (new blockSize cells b) ((List.range blockSize).map fun i => (b, i)) := by
  have hempty : Inv blockSize (⟨[], ⟨cells, none⟩, []⟩ : State T) [] :=
    ⟨⟨.nil, fun _ hb => absurd hb List.not_mem_nil⟩, List.Perm.refl [], List.nodup_nil⟩
  have hgrown := hempty.grow hsize (b := b) List.not_mem_nil
  rwa [List.append_nil] at hgrown

theorem Inv.serves (h : Inv blockSize s nodes) (hsize : 1 ≤ blockSize) {a : Action T}
    (ha : Allowed a s) : (FixedSizePool.next blockSize a s).isSome := by
  cases a with
  | allocate answer =>
      have hfresh : Fresh answer s := ha
      rw [FixedSizePool.next, if_pos hfresh]
      obtain ⟨heq, -, -⟩ | ⟨slot, s', nodes', heq, -, -, -⟩ := h.allocate hsize hfresh
      · rw [heq]
        rfl
      · rw [heq]
        rfl
  | deallocate ptr =>
      have hptr : ∀ p ∈ ptr, p ∈ s.outstanding := ha
      rw [FixedSizePool.next, if_pos hptr]
      rfl
  | write slot data =>
      have hslot : slot ∈ s.outstanding := ha
      rw [FixedSizePool.next, if_pos hslot]
      rfl

theorem Inv.sound (h : Inv blockSize s nodes) (hsize : 1 ≤ blockSize) : Sound blockSize s where
  freeList := ⟨nodes, h.free, (List.nodup_append.mp h.nodup).1, fun _ => h.mem_nodes⟩
  allocates := fun answer hfresh => by
    obtain ⟨heq, hnone, hanswer⟩ | ⟨slot, s', nodes', heq, hslot, -, -⟩ := h.allocate hsize hfresh
    · refine ⟨none, s, heq, fun slot hsome => ?_, fun _ => ⟨rfl, fun slot hslot => ?_, hanswer⟩⟩
      · cases hsome
      · by_contra hout
        have hmem := h.mem_nodes.mpr ⟨hslot, hout⟩
        rw [hnone] at hmem
        cases hmem
    · refine ⟨some slot, s', heq, fun slot' hsome => ?_, fun hnone => ?_⟩
      · obtain rfl := Option.some.inj hsome
        exact hslot
      · cases hnone
  serves := fun _ => h.serves hsize

end

/-- **The pool is sound** after every sequence of calls and writes, whichever of its
allocations fail: what is outstanding is what was returned and not deallocated since. -/
theorem pool_sound {blockSize : ℕ} (hsize : 1 ≤ blockSize) (cells : Slot → PoolCell Slot T) (b : ℕ)
    (as : List (Action T)) :
    Sound blockSize (schedule (next blockSize) as (new blockSize cells b)) ∧
    (schedule (next blockSize) as (new blockSize cells b)).outstanding =
      (trace (next blockSize) (event blockSize) as (new blockSize cells b)).foldl hold [] := by
  have hnew := new_inv hsize cells b
  obtain ⟨nodes, hinv⟩ := schedule_rule (fun s => ∃ nodes, Inv blockSize s nodes) ⟨_, hnew⟩
    (fun a s s' ⟨nodes, h⟩ hstep => (h.next hsize hstep).1) as
  refine ⟨hinv.sound hsize, ?_⟩
  exact replay_of_inv (fun s => ∃ nodes, Inv blockSize s nodes) State.outstanding (event blockSize) hold
    (fun a s s' ⟨nodes, h⟩ hstep => h.next hsize hstep) as ⟨_, hnew⟩

/-- Two slots, of which one is written and returned, and a block that cannot be had. -/
def two : List (Action ℕ) :=
  [.allocate .pushBackThrows, .write (7, 0) 42, .allocate .makeUniqueThrows,
    .deallocate (some (7, 0)), .allocate (.block 8), .allocate .makeUniqueThrows, .allocate (.block 8)]

theorem pool_sound_two : Sound 2 (schedule (next 2) two (new 2 (fun _ => .user 0) 7)) ∧
    (schedule (next 2) two (new 2 (fun _ => .user 0) 7)).outstanding = [(7, 1), (7, 0), (8, 0)] := by
  obtain ⟨hsound, hout⟩ := pool_sound (by decide : 1 ≤ 2) (fun _ => .user 0) 7 two
  refine ⟨hsound, hout.trans ?_⟩
  decide

end LearnCpp.Memory.FixedSizePool
