/-
# `LearnCpp.Latency.Common` — messages, the memory pool and the queue

`extras/latency/common.hpp`.  Pointers to messages and blocks are the numbers of
the blocks in `storage_`, and the null pointer is `none`.

A free block keeps the link to the next one in its first word; when the block is
a message, that word is `recv_ns`.  What either reads as when it is taken for the
other is up to the machine, and left open (`Bits`).
-/
import LearnCpp.Lib.Linked
import LearnCpp.Lib.Ring

namespace LearnCpp.Latency

open Lib

/-! ## Blocks -/

/-- The first word of a block. -/
inductive Word where
  | link (next : Option ℕ)
  | recvNs (ns : Int64)
  deriving DecidableEq, Repr

/-- How the bits of a time read as a pointer, and those of a pointer as a time. -/
structure Bits where
  asLink : Int64 → Option ℕ
  asNs : Option ℕ → Int64

def Word.next (bits : Bits) : Word → Option ℕ
  | link next => next
  | recvNs ns => bits.asLink ns

def Word.ns (bits : Bits) : Word → Int64
  | link next => bits.asNs next
  | recvNs ns => ns

/-- A block: a `Message`, or a link of the free list in its first word. -/
structure Block where
  word : Word
  seq : UInt32
  len : UInt16
  data : List UInt8
  deriving DecidableEq, Repr

/-- `sizeof(Message::data)` -/
def dataSize : ℕ := 46

/-- The fields of a message, for the payload `bytes` received at `ts`. -/
def Block.message (ts : Int64) (seq : UInt32) (bytes : List UInt8) : Block where
  word := .recvNs ts
  seq := seq
  len := UInt16.ofNat (min dataSize bytes.length)
  data := bytes.take dataSize

/-! ## The memory pool -/

/-- `*reinterpret_cast<Block **>(&storage[blk]) = next` -/
def setLink (blk : ℕ) (next : Option ℕ) (storage : ℕ → Block) : ℕ → Block :=
  Function.update storage blk { storage blk with word := .link next }

/-- Where the blocks link to. -/
def links (bits : Bits) (storage : ℕ → Block) (blk : ℕ) : Option ℕ := (storage blk).word.next bits

section
variable {bits : Bits} {storage : ℕ → Block} {blk blk' : ℕ} {next : Option ℕ}

@[simp] theorem links_setLink : links bits (setLink blk next storage) blk = next := by
  simp [links, setLink, Word.next]

theorem links_setLink_of_ne (h : blk' ≠ blk) :
    links bits (setLink blk next storage) blk' = links bits storage blk' := by
  rw [links, setLink, Function.update_of_ne h, links]

theorem links_update_of_ne {b : Block} (h : blk' ≠ blk) :
    links bits (Function.update storage blk b) blk' = links bits storage blk' := by
  rw [links, Function.update_of_ne h, links]

end

structure MemoryPool where
  storage : ℕ → Block
  freeHead : Option ℕ

namespace MemoryPool

/-- The links of the first `n` blocks, as the constructor sets them. -/
def linkUp (n : ℕ) (storage : ℕ → Block) : ℕ → Block :=
  (List.range n).foldl (fun storage i => setLink i (some (i + 1)) storage) storage

/-- The constructor, for what happens to be in the memory. -/
def new (capacity : ℕ) (storage : ℕ → Block) : MemoryPool where
  storage := setLink (capacity - 1) none (linkUp (capacity - 1) storage)
  freeHead := some 0

def alloc (bits : Bits) (pool : MemoryPool) : Option (ℕ × MemoryPool) :=
  match pool.freeHead with
  | none => none
  | some blk => some (blk, { pool with freeHead := links bits pool.storage blk })

def free (blk : ℕ) (pool : MemoryPool) : MemoryPool where
  storage := setLink blk pool.freeHead pool.storage
  freeHead := some blk

/-- `nodes` is the free list. -/
def Free (bits : Bits) (pool : MemoryPool) (nodes : List ℕ) : Prop :=
  Linked (links bits pool.storage) pool.freeHead nodes

variable {bits : Bits} {storage : ℕ → Block} {pool pool' : MemoryPool} {nodes : List ℕ} {blk : ℕ}

theorem links_linkUp {n i : ℕ} (hi : i < n) : links bits (linkUp n storage) i = some (i + 1) := by
  induction n with
  | zero => exact absurd hi (Nat.not_lt_zero i)
  | succ n ih =>
      rw [linkUp, List.range_succ, List.foldl_append]
      rcases Nat.lt_succ_iff_lt_or_eq.mp hi with hlt | rfl
      · exact (links_setLink_of_ne hlt.ne).trans (ih hlt)
      · exact links_setLink

theorem free_new {capacity : ℕ} (hcap : 0 < capacity) :
    (new capacity storage).Free bits (List.range capacity) := by
  have hnext : ∀ j, 0 ≤ j → j < capacity →
      links bits (new capacity storage).storage j = if j + 1 < capacity then some (j + 1) else none := by
    intro j _ hj
    show links bits (setLink (capacity - 1) none (linkUp (capacity - 1) storage)) j = _
    split
    · rw [links_setLink_of_ne (by omega), links_linkUp (by omega)]
    · obtain rfl : j = capacity - 1 := by omega
      exact links_setLink
  have hlinked := Linked.range' (Nat.zero_add capacity) hnext
  rwa [if_pos hcap, ← List.range_eq_range'] at hlinked

theorem alloc_eq_none (h : pool.Free bits nodes) : pool.alloc bits = none ↔ nodes = [] := by
  rw [← h.head_eq_none, alloc]
  cases pool.freeHead <;> simp

theorem Free.eq_cons (h : pool.Free bits nodes) (hhead : pool.freeHead = some blk) :
    ∃ rest, nodes = blk :: rest ∧ Linked (links bits pool.storage) (links bits pool.storage blk) rest := by
  rw [Free, hhead] at h
  exact Linked.eq_cons h

theorem alloc_eq_some (h : pool.Free bits nodes) (halloc : pool.alloc bits = some (blk, pool')) :
    pool'.storage = pool.storage ∧ ∃ rest, nodes = blk :: rest ∧ pool'.Free bits rest := by
  unfold alloc at halloc
  split at halloc
  · cases halloc
  · next hhead =>
      cases halloc
      exact ⟨rfl, h.eq_cons hhead⟩

theorem free_free (h : pool.Free bits nodes) (hblk : blk ∉ nodes) :
    (pool.free blk).Free bits (blk :: nodes) := by
  refine .cons ?_
  rw [free, links_setLink]
  exact h.congr fun b hb => links_setLink_of_ne fun heq => hblk (heq ▸ hb)

theorem Free.update (h : pool.Free bits nodes) (hblk : blk ∉ nodes) (b : Block) :
    Free bits { pool with storage := Function.update pool.storage blk b } nodes :=
  Linked.congr (fun _ hb' => links_update_of_ne fun heq => hblk (heq ▸ hb')) h

end MemoryPool

/-! ## Where the blocks are -/

section
variable {capacity blk : ℕ} {nodes used queue hand : List ℕ}

theorem not_mem_of_perm (h : (nodes ++ used).Perm (List.range capacity)) (hblk : blk ∈ used) :
    blk ∉ nodes := by
  intro hmem
  have hnodup := h.nodup_iff.mpr List.nodup_range
  exact (List.nodup_append.mp hnodup).2.2 blk hmem blk hblk rfl

theorem perm_taken : (nodes ++ (queue ++ [blk] ++ hand)).Perm (blk :: nodes ++ (queue ++ hand)) := by
  have hmiddle : (nodes ++ queue ++ blk :: hand).Perm (blk :: (nodes ++ queue ++ hand)) :=
    List.perm_middle
  simpa only [List.append_assoc, List.singleton_append, List.cons_append, List.nil_append] using hmiddle

theorem perm_popped : (queue ++ hand ++ [blk]).Perm (blk :: queue ++ hand ++ []) := by
  rw [List.append_nil]
  exact List.perm_append_singleton ..

theorem perm_freed : (blk :: nodes ++ (used ++ [])).Perm (nodes ++ (used ++ [blk])) := by
  rw [List.append_nil, ← List.append_assoc nodes]
  exact (List.perm_append_singleton ..).symm

end

/-! ## The queue -/

namespace SPSCQueue

variable {α : Type} {k : ℕ}

def push (item : α) (queue : Ring α (2 ^ k)) : Option (Ring α (2 ^ k)) := Ring.maskedPush item queue

def pop (queue : Ring α (2 ^ k)) : Option (α × Ring α (2 ^ k)) := Ring.maskedPop queue

variable {item : α} {queue queue' : Ring α (2 ^ k)}

theorem push_eq_none : push item queue = none ↔ queue.contents.length + 1 = 2 ^ k :=
  Ring.maskedPush_eq_none

theorem push_eq_some (h : push item queue = some queue') :
    queue'.contents = queue.contents ++ [item] :=
  (Ring.maskedPush_eq_some h).1

theorem pop_eq_some (h : pop queue = some (item, queue')) : queue.contents = item :: queue'.contents :=
  Ring.maskedPop_eq_some h

end SPSCQueue

end LearnCpp.Latency
