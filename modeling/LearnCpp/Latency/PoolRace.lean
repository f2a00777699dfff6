/-
# `LearnCpp.Latency.PoolRace` — the pool between two threads

`MemoryPool::alloc` and `MemoryPool::free` (`extras/latency/common.hpp`) as the
two threads of `v1_epoll_pool_lockfree.cpp` run them next to each other, on one
pool and without a lock.  Every read and write of `free_head_` and of the link of
a block is a step; the operations of the queue are one each.  Between two
payloads the network thread touches neither.

A block changes hands at the stores to `free_head_`.  At every step the blocks
are in one place each (`Owned`):

    free list ++ queue ++ in the network thread ++ in the consumer

until a thread stores to `free_head_` what it has worked out from an older value.
-/
import LearnCpp.Latency.Common
import LearnCpp.Lib.Schedule

namespace LearnCpp.Latency.PoolRace

open Lib

/-- What `recv` returned, and `now_ns` behind it. -/
structure Payload where
  bytes : List UInt8
  ts : Int64
  deriving DecidableEq, Repr

/-- Where `network_thread` is. -/
inductive Network where
  /-- at the load of `g_running` -/
  | loop
  /-- at `recv` -/
  | recv
  /-- in `alloc`, at the test of `free_head_` -/
  | test (p : Payload)
  /-- in `alloc`, at the load of `free_head_` -/
  | load (p : Payload)
  /-- in `alloc`, at the read of the link of `blk` -/
  | link (p : Payload) (blk : Option ℕ)
  /-- in `alloc`, at `free_head_ = next` -/
  | store (p : Payload) (blk : ℕ) (next : Option ℕ)
  /-- at the writes to the message -/
  | fill (p : Payload) (msg : ℕ)
  /-- in the spin loop of the push -/
  | push (msg : ℕ)
  | returned
  deriving DecidableEq, Repr

/-- Where `consumer_thread` is. -/
inductive Consumer where
  /-- at the load of `g_running` -/
  | loop
  /-- at the pop -/
  | pop
  /-- in `free`, at the load of `free_head_` -/
  | load (msg : ℕ)
  /-- in `free`, at the write of the link of `msg` -/
  | link (msg : ℕ) (head : Option ℕ)
  /-- in `free`, at `free_head_ = msg`, with `head` for the link -/
  | store (msg : ℕ) (head : Option ℕ)
  | returned
  deriving DecidableEq, Repr

structure State (k : ℕ) where
  pool : MemoryPool
  queue : Ring ℕ (2 ^ k)
  running : Bool := true
  seq : UInt32 := 0
  network : Network := .loop
  consumer : Consumer := .loop

def init {k : ℕ} (capacity : ℕ) (storage : ℕ → Block) (slots : Fin (2 ^ k) → ℕ) : State k where
  pool := .new capacity storage
  queue := .empty slots

section
variable (bits : Bits) {k : ℕ}

/-- `io` is what `recv` returns: a payload, or nothing more. -/
def networkStep (io : Option Payload) (s : State k) : Option (State k) :=
  match s.network with
  | .loop => some { s with network := if s.running then .recv else .returned }
  | .recv =>
      match io with
      | none => some { s with network := .loop }
      | some p => some { s with network := .test p }
  | .test p =>
      match s.pool.freeHead with
      | none => some { s with network := .recv }
      | some _ => some { s with network := .load p }
  | .load p => some { s with network := .link p s.pool.freeHead }
  -- the null pointer cannot be read
  | .link _ none => none
  | .link p (some blk) => some { s with network := .store p blk (links bits s.pool.storage blk) }
  | .store p blk next =>
      some { s with pool := { s.pool with freeHead := next }, network := .fill p blk }
  | .fill p msg =>
      some { s with
        pool := { s.pool with storage := Function.update s.pool.storage msg (.message p.ts s.seq p.bytes) }
        seq := s.seq + 1
        network := .push msg }
  | .push msg =>
      match SPSCQueue.push msg s.queue with
      | some queue => some { s with queue := queue, network := .recv }
      | none => some s
  | .returned => none

/-- The accounting only reads the message and is part of the pop. -/
def consumerStep (s : State k) : Option (State k) :=
  match s.consumer with
  | .loop => some { s with consumer := if s.running then .pop else .returned }
  | .pop =>
      match SPSCQueue.pop s.queue with
      | none => some { s with consumer := .loop }
      | some (msg, queue) => some { s with queue := queue, consumer := .load msg }
  | .load msg => some { s with consumer := .link msg s.pool.freeHead }
  | .link msg head =>
      some { s with
        pool := { s.pool with storage := setLink msg head s.pool.storage }
        consumer := .store msg head }
  | .store msg _ =>
      some { s with pool := { s.pool with freeHead := some msg }, consumer := .loop }
  | .returned => none

inductive Action where
  | network (io : Option Payload)
  | consumer
  /-- `main` stores `g_running = false`. -/
  | stop
  deriving DecidableEq

def step : Action → State k → Option (State k)
  | .network io, s => networkStep bits io s
  | .consumer, s => consumerStep s
  | .stop, s => some { s with running := false }

end

/-! ## Where the blocks are -/

def Network.hand : Network → List ℕ
  | fill _ msg => [msg]
  | push msg => [msg]
  | _ => []

def Consumer.hand : Consumer → List ℕ
  | load msg => [msg]
  | link msg _ => [msg]
  | store msg _ => [msg]
  | _ => []

section
variable {k : ℕ}

/-- The blocks that are not free. -/
def State.inUse (s : State k) : List ℕ := s.queue.contents ++ s.network.hand ++ s.consumer.hand

/-- Each block is in one place. -/
def Owned (bits : Bits) (capacity : ℕ) (s : State k) : Prop :=
  ∃ nodes, s.pool.Free bits nodes ∧ (nodes ++ s.inUse).Perm (List.range capacity)

/-- A store to `free_head_` finds there what the thread has loaded. -/
def Unchanged : Action → State k → Prop
  | .network _, s =>
      match s.network with
      | .store _ blk _ => s.pool.freeHead = some blk
      | _ => True
  | .consumer, s =>
      match s.consumer with
      | .store _ head => s.pool.freeHead = head
      | _ => True
  | .stop, _ => True

instance (a : Action) (s : State k) : Decidable (Unchanged a s) := by
  unfold Unchanged
  cases a <;> dsimp only
  · split <;> infer_instance
  · split <;> infer_instance
  · infer_instance

/-- What the network thread knows of the free list. -/
def Network.Knows (next : ℕ → Option ℕ) (nodes : List ℕ) : Network → Prop
  | load _ => nodes ≠ []
  | link _ blk => ∃ b ∈ nodes, blk = some b
  | store _ blk succ => blk ∈ nodes ∧ next blk = succ
  | _ => True

/-- What the consumer knows of its block. -/
def Consumer.Knows (next : ℕ → Option ℕ) : Consumer → Prop
  | store msg head => next msg = head
  | _ => True

structure InvAt (bits : Bits) (capacity : ℕ) (nodes : List ℕ) (s : State k) : Prop where
  free : s.pool.Free bits nodes
  owned : (nodes ++ s.inUse).Perm (List.range capacity)
  network : s.network.Knows (links bits s.pool.storage) nodes
  consumer : s.consumer.Knows (links bits s.pool.storage)

def Inv (bits : Bits) (capacity : ℕ) (s : State k) : Prop := ∃ nodes, InvAt bits capacity nodes s

end

section
variable {bits : Bits} {k capacity : ℕ} {nodes : List ℕ} {s s' : State k}

/-- What the network thread knows is about the free blocks, and the free list only grows under it. -/
theorem Network.Knows.mono {next next' : ℕ → Option ℕ} {nodes nodes' : List ℕ} {n : Network}
    (h : n.Knows next nodes) (hsame : ∀ b ∈ nodes, next' b = next b) (hsub : nodes ⊆ nodes') :
    n.Knows next' nodes' := by
  cases n with
  | load p =>
      intro hnil
      exact h (List.subset_nil.mp (hnil ▸ hsub))
  | link p blk =>
      obtain ⟨b, hb, rfl⟩ := h
      exact ⟨b, hsub hb, rfl⟩
  | store p blk succ => exact ⟨hsub h.1, (hsame blk h.1).trans h.2⟩
  | _ => trivial

theorem Consumer.Knows.congr {next next' : ℕ → Option ℕ} {c : Consumer} (h : c.Knows next)
    (hsame : ∀ b ∈ c.hand, next' b = next b) : c.Knows next' := by
  cases c with
  | store msg head => exact (hsame msg (List.mem_singleton_self msg)).trans h
  | _ => trivial

theorem InvAt.network_moves {n : Network} (h : InvAt bits capacity nodes s) (hhand : n.hand = s.network.hand)
    (hknows : n.Knows (links bits s.pool.storage) nodes) : Inv bits capacity { s with network := n } := by
  refine ⟨nodes, h.free, ?_, hknows, h.consumer⟩
  rw [State.inUse]
  dsimp only
  rw [hhand]
  exact h.owned

theorem InvAt.consumer_moves {c : Consumer} (h : InvAt bits capacity nodes s) (hhand : c.hand = s.consumer.hand)
    (hknows : c.Knows (links bits s.pool.storage)) : Inv bits capacity { s with consumer := c } := by
  refine ⟨nodes, h.free, ?_, h.network, hknows⟩
  rw [State.inUse]
  dsimp only
  rw [hhand]
  exact h.owned

theorem InvAt.hands_ne {a b : ℕ} (h : InvAt bits capacity nodes s) (ha : a ∈ s.network.hand)
    (hb : b ∈ s.consumer.hand) : a ≠ b := by
  have hnodup := (List.nodup_append.mp (h.owned.nodup_iff.mpr List.nodup_range)).2.1
  exact (List.nodup_append.mp hnodup).2.2 a (List.mem_append_right _ ha) b hb

theorem InvAt.network_keep {io : Option Payload} (h : InvAt bits capacity nodes s)
    (hstep : networkStep bits io s = some s') (hok : Unchanged (.network io) s) :
    Inv bits capacity s' := by
  have hknows := h.network
  cases hn : s.network with
  | loop =>
      simp only [networkStep, hn, Option.some.injEq] at hstep
      subst hstep
      refine h.network_moves ?_ ?_
      · rw [hn]
        cases s.running <;> rfl
      · cases s.running <;> trivial
  | recv =>
      simp only [networkStep, hn] at hstep
      split at hstep <;> cases hstep <;> exact h.network_moves (by rw [hn]; rfl) trivial
  | test p =>
      simp only [networkStep, hn] at hstep
      split at hstep
      · cases hstep
        exact h.network_moves (by rw [hn]; rfl) trivial
      · next hhead =>
          cases hstep
          refine h.network_moves (by rw [hn]; rfl) ?_
          intro hnil
          rw [h.free.head_eq_none.mpr hnil] at hhead
          cases hhead
  | load p =>
      simp only [networkStep, hn, Option.some.injEq] at hstep
      subst hstep
      refine h.network_moves (by rw [hn]; rfl) ?_
      rw [hn] at hknows
      obtain ⟨blk, hblk⟩ := Option.ne_none_iff_exists'.mp (mt h.free.head_eq_none.mp hknows)
      obtain ⟨rest, rfl, -⟩ := h.free.eq_cons hblk
      exact ⟨blk, List.mem_cons_self, hblk⟩
  | link p blk =>
      rw [hn] at hknows
      obtain ⟨b, hb, rfl⟩ := hknows
      simp only [networkStep, hn, Option.some.injEq] at hstep
      subst hstep
      exact h.network_moves (by rw [hn]; rfl) ⟨hb, rfl⟩
  | store p blk next =>
      rw [hn] at hknows
      simp only [Unchanged, hn] at hok
      simp only [networkStep, hn, Option.some.injEq] at hstep
      subst hstep
      obtain ⟨rest, rfl, hrest⟩ := h.free.eq_cons hok
      refine ⟨rest, ⟨hknows.2 ▸ hrest, ?_, trivial, h.consumer⟩⟩
      have howned := h.owned
      rw [State.inUse, hn] at howned
      have hnone : s.queue.contents ++ Network.hand (.store p blk next) = s.queue.contents := List.append_nil _
      rw [hnone] at howned
      exact perm_taken.trans howned
  | fill p msg =>
      simp only [networkStep, hn, Option.some.injEq] at hstep
      subst hstep
      have hmsg : msg ∉ nodes := not_mem_of_perm h.owned (by simp [State.inUse, hn, Network.hand])
      have howned := h.owned
      rw [State.inUse, hn] at howned
      refine ⟨nodes, ⟨h.free.update hmsg _, howned, trivial, ?_⟩⟩
      refine h.consumer.congr fun b hb => links_update_of_ne (h.hands_ne ?_ hb).symm
      rw [hn]
      exact List.mem_singleton_self msg
  | push msg =>
      simp only [networkStep, hn] at hstep
      split at hstep
      · next queue hpush =>
          cases hstep
          have howned := h.owned
          rw [State.inUse, hn] at howned
          refine ⟨nodes, h.free, ?_, trivial, h.consumer⟩
          show (nodes ++ (queue.contents ++ [] ++ s.consumer.hand)).Perm _
          rw [SPSCQueue.push_eq_some hpush, List.append_nil]
          exact howned
      · cases hstep
        exact ⟨nodes, h⟩
  | returned => simp [networkStep, hn] at hstep

theorem InvAt.consumer_keep (h : InvAt bits capacity nodes s) (hstep : consumerStep s = some s')
    (hok : Unchanged .consumer s) : Inv bits capacity s' := by
  have hknows := h.consumer
  cases hc : s.consumer with
  | loop =>
      simp only [consumerStep, hc, Option.some.injEq] at hstep
      subst hstep
      refine h.consumer_moves ?_ ?_
      · rw [hc]
        cases s.running <;> rfl
      · cases s.running <;> trivial
  | pop =>
      simp only [consumerStep, hc] at hstep
      split at hstep
      · cases hstep
        exact h.consumer_moves (by rw [hc]; rfl) trivial
      · next msg queue hpop =>
          cases hstep
          have howned := h.owned
          rw [State.inUse, hc, SPSCQueue.pop_eq_some hpop] at howned
          exact ⟨nodes, h.free, (perm_popped.append_left _).trans howned, h.network, trivial⟩
  | load msg =>
      simp only [consumerStep, hc, Option.some.injEq] at hstep
      subst hstep
      exact h.consumer_moves (by rw [hc]; rfl) trivial
  | link msg head =>
      simp only [consumerStep, hc, Option.some.injEq] at hstep
      subst hstep
      have hmsg : msg ∉ nodes := not_mem_of_perm h.owned (by simp [State.inUse, hc, Consumer.hand])
      have howned := h.owned
      rw [State.inUse, hc] at howned
      refine ⟨nodes, ⟨h.free.update hmsg _, howned, ?_, links_setLink⟩⟩
      exact h.network.mono (fun b hb => links_setLink_of_ne fun heq => hmsg (heq ▸ hb)) (List.Subset.refl _)
  | store msg head =>
      rw [hc] at hknows
      simp only [Unchanged, hc] at hok
      simp only [consumerStep, hc, Option.some.injEq] at hstep
      subst hstep
      have hfree : Linked (links bits s.pool.storage) (links bits s.pool.storage msg) nodes := by
        rw [show links bits s.pool.storage msg = head from hknows, ← hok]
        exact h.free
      have howned := h.owned
      rw [State.inUse, hc] at howned
      refine ⟨msg :: nodes, ⟨hfree.cons, perm_freed.trans howned, ?_, trivial⟩⟩
      exact h.network.mono (fun _ _ => rfl) (List.subset_cons_self ..)
  | returned => simp [consumerStep, hc] at hstep

/-- **A stale `alloc`** loses the blocks that came in front of the one it takes. -/
theorem InvAt.network_break {io : Option Payload} (h : InvAt bits capacity nodes s)
    (hstep : networkStep bits io s = some s') (hnot : ¬ Unchanged (.network io) s) :
    ¬ Owned bits capacity s' := by
  have hknows := h.network
  have howned := h.owned
  cases hn : s.network with
  | store p blk next =>
      rw [hn] at hknows
      simp only [Unchanged, hn] at hnot
      simp only [networkStep, hn, Option.some.injEq] at hstep
      subst hstep
      rintro ⟨nodes', hfree', howned'⟩
      obtain ⟨pre, rest, rfl, hrest⟩ := Linked.of_mem h.free hknows.1
      rw [hknows.2] at hrest
      obtain rfl : nodes' = rest := Linked.unique hfree' hrest
      have hlength := howned'.length_eq.trans howned.length_eq.symm
      simp only [State.inUse, hn, Network.hand, List.length_append, List.length_cons, List.length_nil] at hlength
      obtain rfl : pre = [] := List.length_eq_zero_iff.mp (by omega)
      exact hnot (Linked.head_eq_some h.free)
  | _ => exact absurd (by simp only [Unchanged, hn]) hnot

/-- **A stale `free`** puts its block in front of a list that is no longer the free one. -/
theorem InvAt.consumer_break (h : InvAt bits capacity nodes s) (hstep : consumerStep s = some s')
    (hnot : ¬ Unchanged .consumer s) : ¬ Owned bits capacity s' := by
  have hknows := h.consumer
  have howned := h.owned
  cases hc : s.consumer with
  | store msg head =>
      rw [hc] at hknows
      simp only [Unchanged, hc] at hnot
      simp only [consumerStep, hc, Option.some.injEq] at hstep
      subst hstep
      rintro ⟨nodes', hfree', howned'⟩
      obtain ⟨rest, rfl, hrest⟩ := Linked.eq_cons hfree'
      rw [State.inUse, hc] at howned
      -- both lists run through the same blocks
      have hperm := perm_freed.trans (howned.trans howned'.symm)
      have hsame : nodes.Perm rest := ((List.perm_append_right_iff _).mp hperm).cons_inv
      have hhead : links bits s.pool.storage msg = s.pool.freeHead :=
        (Linked.head_eq_of_perm h.free hrest hsame).symm
      exact hnot (hhead.symm.trans hknows)
  | _ => exact absurd (by simp only [Unchanged, hc]) hnot

end

theorem init_inv {k capacity : ℕ} (bits : Bits) (hcap : 0 < capacity) (storage : ℕ → Block)
    (slots : Fin (2 ^ k) → ℕ) : Inv bits capacity (init capacity storage slots) := by
  have hnone : (init capacity storage slots).inUse = [] := by
    rw [State.inUse, init]
    dsimp only
    rw [Ring.contents_empty]
    rfl
  refine ⟨List.range capacity, ⟨MemoryPool.free_new hcap, ?_, trivial, trivial⟩⟩
  rw [hnone, List.append_nil]

/-- **Each block is in one place** just as long as every store to `free_head_`, of
`alloc` as of `free`, finds there what the thread has loaded. -/
theorem owned_iff {k capacity : ℕ} (bits : Bits) (hcap : 0 < capacity) (storage : ℕ → Block)
    (slots : Fin (2 ^ k) → ℕ) (actions : List Action) :
    Always (step bits) (init capacity storage slots) actions (Owned bits capacity) ↔
      EachStep (step bits) (init capacity storage slots) actions Unchanged := by
  refine always_iff (Inv bits capacity) (init_inv bits hcap storage slots) ?_ ?_ ?_
  · rintro s ⟨nodes, h⟩
    exact ⟨nodes, h.free, h.owned⟩
  · rintro a s s' ⟨nodes, h⟩ hstep hok
    cases a with
    | network io => exact h.network_keep hstep hok
    | consumer => exact h.consumer_keep hstep hok
    | stop =>
        cases hstep
        exact ⟨nodes, h.free, h.owned, h.network, h.consumer⟩
  · rintro a s s' ⟨nodes, h⟩ hstep hnot
    cases a with
    | network io => exact h.network_break hstep hnot
    | consumer => exact h.consumer_break hstep hnot
    | stop => exact absurd trivial hnot

/-- Two blocks, and two payloads one after the other. -/
theorem owned_iff_in_turn :
    let bits : Bits := ⟨fun _ => none, fun _ => 0⟩
    let s₀ : State 1 := init 2 (fun _ => ⟨.link none, 0, 0, []⟩) (fun _ => 0)
    let receive : List Action := List.replicate 7 (.network (some ⟨[65], 7⟩))
    let actions := .network none :: receive ++ List.replicate 5 .consumer ++ receive
    let s := schedule (step bits) actions s₀
    s.pool.freeHead = some 1 ∧ s.queue.contents = [0] ∧ Owned bits 2 s :=
  ⟨by decide, by decide,
    (owned_iff _ (by decide) _ _ _).mpr (by decide) _ (List.prefix_refl _)⟩

/-- Two blocks.  The consumer has loaded `free_head_` to put the block 0 in front of
the block 1, and the network thread takes the block 1 before it stores; now the
block 1 is in the hand of the network thread and in the free list. -/
theorem alloc_within_free :
    let bits : Bits := ⟨fun _ => none, fun _ => 0⟩
    let s₀ : State 1 := init 2 (fun _ => ⟨.link none, 0, 0, []⟩) (fun _ => 0)
    let receive (n : ℕ) : List Action := List.replicate n (.network (some ⟨[65], 7⟩))
    let actions := .network none :: receive 7 ++ List.replicate 3 .consumer ++ receive 5 ++
      List.replicate 2 .consumer
    let s := schedule (step bits) actions s₀
    s.inUse = [1] ∧ s.pool.Free bits [0, 1] ∧ ¬ Owned bits 2 s := by
  intro bits s₀ receive actions s
  have hinUse : s.inUse = [1] := by decide
  have hhead : s.pool.freeHead = some 0 := by decide
  have hlinks : links bits s.pool.storage 0 = some 1 ∧ links bits s.pool.storage 1 = none := by decide
  have hfree : s.pool.Free bits [0, 1] := by
    rw [MemoryPool.Free, hhead]
    refine .cons ?_
    rw [hlinks.1]
    refine .cons ?_
    rw [hlinks.2]
    exact .nil
  refine ⟨hinUse, hfree, ?_⟩
  rintro ⟨nodes, hfree', hperm⟩
  obtain rfl := Linked.unique hfree hfree'
  rw [hinUse] at hperm
  exact absurd hperm.length_eq (by decide)

/-! ## In one piece -/

section
variable {bits : Bits} {k : ℕ} {s : State k}

/-- An `alloc` that nothing interrupts is `alloc` in one piece. -/
theorem alloc_uninterrupted {p : Payload} {msg : ℕ} {pool : MemoryPool} (hn : s.network = .test p)
    (halloc : s.pool.alloc bits = some (msg, pool)) :
    schedule (step bits) (List.replicate 4 (.network none)) s =
      { s with pool := pool, network := .fill p msg } := by
  unfold MemoryPool.alloc at halloc
  split at halloc
  · cases halloc
  · next hhead =>
      cases halloc
      simp [schedule, exec, List.replicate, attempt, step, networkStep, hn, hhead]

theorem free_uninterrupted {msg : ℕ} (hc : s.consumer = .load msg) :
    schedule (step bits) (List.replicate 3 .consumer) s =
      { s with pool := s.pool.free msg, consumer := .loop } := by
  simp [schedule, exec, List.replicate, attempt, step, consumerStep, hc, MemoryPool.free]

end

end LearnCpp.Latency.PoolRace
