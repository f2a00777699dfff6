/-
# `LearnCpp.Concurrency.DoubleRing` — buffers that circulate through two rings

`run_double_ring_fixed` of `topics/concurrency/notes_spsc_bump_vs_double_ring.cpp`:
buffers out of a fixed pool wait in `free_ring`; the producer takes them there
and gives them to `used_ring`, and the consumer takes them there and gives them
back.  The two lambdas are one worker with the rings exchanged, except that the
consumer counts what it takes (`Worker.step`).

In batch mode a worker first collects a batch in `batch_buf` and then sends it
off, all over again if a push fails.  `batch_buf` is declared outside of the
lambdas, so it is *one* array that both workers use.

Where the buffers are, at every step (`State.owned`):

    free_ring ++ used_ring ++ held by the producer ++ held by the consumer

A worker holds what it has in a local variable, and what is in the cells of
`batch_buf` that it has still to read (`Pc.cells`).  A single worker only moves
buffers around (`Worker.step_spec`), so each stays in one place until a worker
writes into a cell that the other has still to read; and then one is lost.
-/
import LearnCpp.Concurrency.NotesRing
import LearnCpp.Lib.Schedule

namespace LearnCpp.Concurrency.DoubleRing

open Lib

/-- `&pool[i]` -/
abbrev Buffer := ℕ

/-- Where a worker is. -/
inductive Pc where
  /-- at `!stop.load()` -/
  | loop
  /-- single: at the pop -/
  | take
  /-- single, consumer: at `processed.fetch_add(1)` -/
  | count (buf : Buffer)
  /-- single: in the spin loop of the push -/
  | give (buf : Buffer)
  /-- batch: at the pop of the entry `n` -/
  | fill (n : ℕ)
  /-- batch: at `batch_buf[n] = buf` -/
  | write (n : ℕ) (buf : Buffer)
  /-- batch, consumer: at `processed.fetch_add(n)` -/
  | countBatch (n : ℕ)
  /-- batch: in `push_batch`, at the read of the entry `i` of `n` -/
  | read (n i : ℕ)
  /-- batch: in `push_batch`, at the push of that entry -/
  | send (n i : ℕ) (buf : Buffer)
  | returned
  deriving DecidableEq, Repr

/-- What a worker sees: the ring it takes from and the one it gives to. -/
structure Worker (k : ℕ) where
  src : Ring Buffer (2 ^ k)
  dst : Ring Buffer (2 ^ k)
  batchBuf : ℕ → Buffer
  processed : UInt64
  pc : Pc

section
variable (batch : Bool) (batchSize : ℕ) (counts stop : Bool)

/-- Behind the loop that collects a batch, with `n` entries. -/
def collected (n : ℕ) : Pc :=
  if n = 0 then .loop else if counts then .countBatch n else .read n 0

/-- In the loop that collects a batch, with `n` entries. -/
def collect (n : ℕ) : Pc := if n < batchSize then .fill n else collected counts n

/-- Behind the push of the entry `i` of `n`. -/
def sent (n i : ℕ) : Pc := if i + 1 = n then .loop else .read n (i + 1)

variable {k : ℕ}

/-- A step of a worker.  `pop_batch` pops into a cell of `batch_buf`; the pop and
the write are two steps, as they are in the producer. -/
def Worker.step (v : Worker k) : Option (Worker k) :=
  match v.pc with
  | .loop => some { v with
      pc := if stop then .returned else if batch then collect batchSize counts 0 else .take }
  | .take =>
      match SPSCRing.pop v.src with
      | some (buf, src) => some { v with src := src, pc := if counts then .count buf else .give buf }
      | none => some { v with pc := .loop }
  | .count buf => some { v with processed := v.processed + 1, pc := .give buf }
  | .give buf =>
      match SPSCRing.push buf v.dst with
      | some dst => some { v with dst := dst, pc := .loop }
      | none => some v
  | .fill n =>
      match SPSCRing.pop v.src with
      | some (buf, src) => some { v with src := src, pc := .write n buf }
      | none => some { v with pc := collected counts n }
  | .write n buf => some { v with
      batchBuf := Function.update v.batchBuf n buf, pc := collect batchSize counts (n + 1) }
  | .countBatch n => some { v with processed := v.processed + UInt64.ofNat n, pc := .read n 0 }
  | .read n i => some { v with pc := .send n i (v.batchBuf i) }
  | .send n i buf =>
      match SPSCRing.push buf v.dst with
      | some dst => some { v with dst := dst, pc := sent n i }
      | none => some { v with pc := .read n 0 }
  | .returned => none

end

/-! ## The two of them -/

structure State (k : ℕ) where
  freeRing : Ring Buffer (2 ^ k)
  usedRing : Ring Buffer (2 ^ k)
  batchBuf : ℕ → Buffer
  stop : Bool := false
  processed : UInt64 := 0
  producer : Pc := .loop
  consumer : Pc := .loop

inductive Action where
  | producer
  | consumer
  | stop
  deriving DecidableEq

namespace State

variable {k : ℕ}

def asProducer (s : State k) : Worker k := ⟨s.freeRing, s.usedRing, s.batchBuf, s.processed, s.producer⟩

def asConsumer (s : State k) : Worker k := ⟨s.usedRing, s.freeRing, s.batchBuf, s.processed, s.consumer⟩

def ofProducer (s : State k) (v : Worker k) : State k :=
  { s with
    freeRing := v.src, usedRing := v.dst, batchBuf := v.batchBuf, processed := v.processed
    producer := v.pc }

def ofConsumer (s : State k) (v : Worker k) : State k :=
  { s with
    usedRing := v.src, freeRing := v.dst, batchBuf := v.batchBuf, processed := v.processed
    consumer := v.pc }

end State

def step (batch : Bool) (batchSize : ℕ) {k : ℕ} : Action → State k → Option (State k)
  | .producer, s => (s.asProducer.step batch batchSize false s.stop).map s.ofProducer
  | .consumer, s => (s.asConsumer.step batch batchSize true s.stop).map s.ofConsumer
  | .stop, s => some { s with stop := true }

/-- Before the threads start: `free_ring` has what it took of the pool.  The slots
of the rings and the cells of `batch_buf` are not initialised. -/
def init {k : ℕ} (poolSize : ℕ) (freeSlots usedSlots : Fin (2 ^ k) → Buffer) (batchBuf : ℕ → Buffer) :
    State k where
  freeRing := SPSCRing.pushAll (List.range poolSize) (.empty freeSlots)
  usedRing := .empty usedSlots
  batchBuf := batchBuf

/-! ## Where the buffers are -/

namespace Pc

/-- The cells of `batch_buf` that a worker has written and has still to read. -/
def cells : Pc → List ℕ
  | fill n => List.range n
  | write n _ => List.range n
  | countBatch n => List.range n
  | read n i => (List.range n).drop i
  | send n i _ => (List.range n).drop (i + 1)
  | _ => []

/-- What a worker has in a local variable. -/
def register : Pc → List Buffer
  | count buf => [buf]
  | give buf => [buf]
  | write _ buf => [buf]
  | send _ _ buf => [buf]
  | _ => []

/-- What a worker holds. -/
def held (batchBuf : ℕ → Buffer) (pc : Pc) : List Buffer := pc.register ++ pc.cells.map batchBuf

/-- The program points of a mode, with the counters in their ranges. -/
def Ok (batch : Bool) : Pc → Prop
  | take => batch = false
  | count _ => batch = false
  | give _ => batch = false
  | fill _ => batch = true
  | write _ _ => batch = true
  | countBatch n => batch = true ∧ 0 < n
  | read n i => batch = true ∧ i < n
  | send n i _ => batch = true ∧ i < n
  | loop => True
  | returned => True

/-- The cell that a worker is about to write. -/
def writes : Pc → Option ℕ
  | write n _ => some n
  | _ => none

end Pc

section
variable {batch counts : Bool} {batchSize n : ℕ} {batchBuf : ℕ → Buffer}

theorem held_collected : (collected counts n).held batchBuf = (List.range n).map batchBuf := by
  unfold collected
  split
  · next hzero => rw [hzero]; rfl
  · cases counts <;> rfl

theorem held_collect : (collect batchSize counts n).held batchBuf = (List.range n).map batchBuf := by
  unfold collect
  split
  · rfl
  · exact held_collected

theorem held_sent {i : ℕ} :
    (sent n i).held batchBuf = ((List.range n).drop (i + 1)).map batchBuf := by
  unfold sent
  split
  · next hlast => rw [List.drop_eq_nil_of_le (by rw [List.length_range, hlast])]; rfl
  · rfl

theorem collected_ok : (collected counts n).Ok true := by
  unfold collected
  split
  · trivial
  · next hzero => cases counts <;> exact ⟨rfl, Nat.pos_of_ne_zero hzero⟩

theorem collect_ok : (collect batchSize counts n).Ok true := by
  unfold collect
  split
  · rfl
  · exact collected_ok

theorem sent_ok {i : ℕ} (hi : i < n) : (sent n i).Ok true := by
  unfold sent
  split
  · trivial
  · exact ⟨rfl, by omega⟩

end

/-- What a worker holds, and the rings it works on. -/
def Worker.owned {k : ℕ} (v : Worker k) : List Buffer :=
  v.src.contents ++ v.dst.contents ++ v.pc.held v.batchBuf

theorem given {src dst rest : List Buffer} {buf : Buffer} :
    (src ++ (dst ++ [buf]) ++ rest).Perm (src ++ dst ++ (buf :: rest)) := by
  rw [← List.append_assoc, List.append_assoc _ [buf]]
  exact .refl _

theorem map_update_range {n : ℕ} {batchBuf : ℕ → Buffer} {buf : Buffer} :
    (List.range (n + 1)).map (Function.update batchBuf n buf) = (List.range n).map batchBuf ++ [buf] := by
  rw [List.range_succ, List.map_append, List.map_singleton, Function.update_self]
  refine congrArg (· ++ [buf]) (List.map_congr_left fun i hi => ?_)
  exact Function.update_of_ne (List.mem_range.mp hi).ne ..

theorem range_drop {n i : ℕ} (hi : i < n) : (List.range n).drop i = i :: (List.range n).drop (i + 1) := by
  rw [List.drop_eq_getElem_cons (by rwa [List.length_range]), List.getElem_range]

/-- **A worker only moves buffers around**, as long as there is room for what it
has in hand; and it writes no cell but the one it is at. -/
theorem Worker.step_spec {k : ℕ} {batch counts stop : Bool} {batchSize : ℕ} {v v' : Worker k}
    (hok : v.pc.Ok batch) (hroom : v.pc.register ≠ [] → v.dst.contents.length + 1 < 2 ^ k)
    (hstep : v.step batch batchSize counts stop = some v') :
    v'.pc.Ok batch ∧ v'.owned.Perm v.owned ∧
      ∀ i, v.pc.writes ≠ some i → v'.batchBuf i = v.batchBuf i := by
  obtain ⟨src, dst, batchBuf, processed, pc⟩ := v
  cases pc with
  | loop =>
      simp only [Worker.step, Option.some.injEq] at hstep
      subst hstep
      cases stop with
      | true => exact ⟨trivial, .refl _, fun _ _ => rfl⟩
      | false =>
          cases batch with
          | true =>
              refine ⟨collect_ok, ?_, fun _ _ => rfl⟩
              dsimp only [Worker.owned, if_true]
              exact held_collect ▸ .refl _
          | false => exact ⟨rfl, .refl _, fun _ _ => rfl⟩
  | take =>
      simp only [Worker.step] at hstep
      split at hstep
      · next buf src' hpop =>
          cases hstep
          refine ⟨by cases counts <;> exact hok, ?_, fun _ _ => rfl⟩
          simp only [Worker.owned, SPSCRing.pop_eq_some hpop]
          cases counts <;> exact List.perm_middle
      · cases hstep
        exact ⟨trivial, .refl _, fun _ _ => rfl⟩
  | count buf =>
      simp only [Worker.step, Option.some.injEq] at hstep
      subst hstep
      exact ⟨hok, .refl _, fun _ _ => rfl⟩
  | give buf =>
      simp only [Worker.step] at hstep
      split at hstep
      · next dst' hpush =>
          cases hstep
          refine ⟨trivial, ?_, fun _ _ => rfl⟩
          simp only [Worker.owned, (SPSCRing.push_eq_some hpush).1]
          exact given ..
      · cases hstep
        exact ⟨hok, .refl _, fun _ _ => rfl⟩
  | fill n =>
      simp only [Worker.step] at hstep
      split at hstep
      · next buf src' hpop =>
          cases hstep
          refine ⟨hok, ?_, fun _ _ => rfl⟩
          simp only [Worker.owned, SPSCRing.pop_eq_some hpop]
          exact List.perm_middle
      · cases hstep
        refine ⟨?_, ?_, fun _ _ => rfl⟩
        · obtain rfl : batch = true := hok
          exact collected_ok
        · simp only [Worker.owned, held_collected]
          exact .refl _
  | write n buf =>
      simp only [Worker.step, Option.some.injEq] at hstep
      subst hstep
      obtain rfl : batch = true := hok
      refine ⟨collect_ok, ?_, fun i hi => Function.update_of_ne (fun heq => hi (congrArg some heq.symm)) ..⟩
      simp only [Worker.owned, held_collect, map_update_range]
      exact (List.perm_append_comm).append_left _
  | countBatch n =>
      simp only [Worker.step, Option.some.injEq] at hstep
      subst hstep
      exact ⟨hok, .refl _, fun _ _ => rfl⟩
  | read n i =>
      simp only [Worker.step, Option.some.injEq] at hstep
      subst hstep
      refine ⟨hok, ?_, fun _ _ => rfl⟩
      simp only [Worker.owned, Pc.held, Pc.register, Pc.cells, range_drop hok.2]
      exact .refl _
  | send n i buf =>
      simp only [Worker.step] at hstep
      split at hstep
      · next dst' hpush =>
          cases hstep
          obtain ⟨rfl, hi⟩ := hok
          refine ⟨sent_ok hi, ?_, fun _ _ => rfl⟩
          simp only [Worker.owned, (SPSCRing.push_eq_some hpush).1, held_sent]
          exact given ..
      · next hpush =>
          have := hroom (List.cons_ne_nil _ _)
          exact absurd (SPSCRing.push_eq_none.mp hpush) this.ne
  | returned => simp [Worker.step] at hstep

/-! ## One worker next to the other -/

section
variable {k m : ℕ} {batch counts stop : Bool} {batchSize : ℕ} {v v' : Worker k}

theorem held_congr {pc : Pc} {batchBuf batchBuf' : ℕ → Buffer}
    (h : ∀ i ∈ pc.cells, batchBuf' i = batchBuf i) : pc.held batchBuf' = pc.held batchBuf :=
  congrArg (pc.register ++ ·) (List.map_congr_left h)

/-- There is room for what a worker has in hand: the other buffers are too few to fill a ring. -/
theorem Worker.room (other : Pc) (hm : m < 2 ^ k) (howned : (v.owned ++ other.held v.batchBuf).Perm (List.range m))
    (hhand : v.pc.register ≠ []) : v.dst.contents.length + 1 < 2 ^ k := by
  have hlength := howned.length_eq
  have hpos := List.length_pos_iff.mpr hhand
  simp only [Worker.owned, Pc.held, List.length_append, List.length_range] at hlength
  omega

theorem Worker.step_write {n : ℕ} (hn : n ∈ v.pc.writes)
    (hstep : v.step batch batchSize counts stop = some v') : v'.batchBuf n ∈ v.pc.register := by
  obtain ⟨src, dst, batchBuf, processed, pc⟩ := v
  cases pc with
  | write n' buf =>
      obtain rfl : n' = n := Option.some.inj hn
      simp only [Worker.step, Option.some.injEq] at hstep
      subst hstep
      dsimp only
      rw [Function.update_self]
      exact List.mem_singleton_self buf
  | _ => cases hn

/-- **Next to each other, the buffers stay in one place each** just when no worker
writes into a cell that the other has still to read. -/
theorem Worker.step_beside (other : Pc) (hm : m < 2 ^ k) (hok : v.pc.Ok batch)
    (howned : (v.owned ++ other.held v.batchBuf).Perm (List.range m))
    (hstep : v.step batch batchSize counts stop = some v') :
    v'.pc.Ok batch ∧ ((∀ n ∈ v.pc.writes, n ∉ other.cells) ↔
      (v'.owned ++ other.held v'.batchBuf).Perm (List.range m)) := by
  obtain ⟨hok', hmoved, hframe⟩ := v.step_spec hok (v.room other hm howned) hstep
  refine ⟨hok', fun hapart => ?_, fun howned' n hn hcell => ?_⟩
  · have hheld : other.held v'.batchBuf = other.held v.batchBuf := by
      refine held_congr fun i hi => hframe i fun hwrites => ?_
      exact hapart i hwrites hi
    rw [hheld]
    exact (hmoved.append_right _).trans howned
  · -- the entry is now in the hands of both
    have hmine : v'.batchBuf n ∈ v'.owned := by
      refine hmoved.mem_iff.mpr (List.mem_append_right _ (List.mem_append_left _ ?_))
      exact v.step_write hn hstep
    have hyours : v'.batchBuf n ∈ other.held v'.batchBuf :=
      List.mem_append_right _ (List.mem_map_of_mem hcell)
    have hnodup := howned'.nodup_iff.mpr List.nodup_range
    exact (List.nodup_append.mp hnodup).2.2 _ hmine _ hyours rfl

end

/-! ## Every interleaving -/

section
variable {k : ℕ} {poolSize batchSize : ℕ} {batch : Bool} {a : Action} {s s' : State k}

/-- All buffers, place by place. -/
def State.owned (s : State k) : List Buffer :=
  s.freeRing.contents ++ s.usedRing.contents ++ s.producer.held s.batchBuf ++ s.consumer.held s.batchBuf

/-- Each of the buffers that `free_ring` took is in exactly one place, and no other buffer is. -/
def Owned (poolSize : ℕ) (s : State k) : Prop :=
  s.owned.Perm (List.range (min poolSize (2 ^ k - 1)))

theorem circulating_lt (poolSize k : ℕ) : min poolSize (2 ^ k - 1) < 2 ^ k := by
  have := Nat.two_pow_pos k
  omega

/-- A worker that writes a cell of `batch_buf` finds it read by the other. -/
def Apart : Action → State k → Prop
  | .producer, s => ∀ n ∈ s.producer.writes, n ∉ s.consumer.cells
  | .consumer, s => ∀ n ∈ s.consumer.writes, n ∉ s.producer.cells
  | .stop, _ => True

instance (a : Action) (s : State k) : Decidable (Apart a s) := by
  unfold Apart
  cases a <;> infer_instance

structure Inv (batch : Bool) (poolSize : ℕ) (s : State k) : Prop where
  owned : Owned poolSize s
  producer : s.producer.Ok batch
  consumer : s.consumer.Ok batch

theorem State.owned_perm (s : State k) :
    s.owned.Perm (s.asConsumer.owned ++ s.producer.held s.batchBuf) := by
  have hrings : (s.freeRing.contents ++ s.usedRing.contents).Perm
      (s.usedRing.contents ++ s.freeRing.contents) := List.perm_append_comm
  rw [State.owned, List.append_assoc]
  refine (hrings.append List.perm_append_comm).trans ?_
  rw [← List.append_assoc]
  exact .refl _

theorem init_owned (freeSlots usedSlots : Fin (2 ^ k) → Buffer) (batchBuf : ℕ → Buffer) :
    Owned poolSize (init poolSize freeSlots usedSlots batchBuf) := by
  have hfree : (SPSCRing.pushAll (List.range poolSize) (Ring.empty freeSlots)).contents =
      List.range (min (2 ^ k - 1) poolSize) := by
    rw [SPSCRing.contents_pushAll, Ring.contents_empty, List.nil_append, List.length_nil,
      Nat.sub_zero, List.take_range]
  rw [Owned, State.owned, init]
  dsimp only
  rw [hfree, Ring.contents_empty, min_comm]
  simp [Pc.held, Pc.register, Pc.cells]

/-- **A step keeps every buffer in one place** just when it is apart from the other worker. -/
theorem Inv.step_iff (h : Inv batch poolSize s) (hstep : step batch batchSize a s = some s') :
    (s'.producer.Ok batch ∧ s'.consumer.Ok batch) ∧ (Apart a s ↔ Owned poolSize s') := by
  have hm := circulating_lt poolSize k
  cases a with
  | producer =>
      obtain ⟨v, hv, rfl⟩ := Option.map_eq_some_iff.mp hstep
      have howned : (s.asProducer.owned ++ s.consumer.held s.batchBuf).Perm _ := h.owned
      obtain ⟨hok, hiff⟩ := Worker.step_beside s.consumer hm h.producer howned hv
      exact ⟨⟨hok, h.consumer⟩, hiff⟩
  | consumer =>
      obtain ⟨v, hv, rfl⟩ := Option.map_eq_some_iff.mp hstep
      have howned := s.owned_perm.symm.trans h.owned
      obtain ⟨hok, hiff⟩ := Worker.step_beside s.producer hm h.consumer howned hv
      refine ⟨⟨h.producer, hok⟩, hiff.trans ?_⟩
      have hperm := (s.ofConsumer v).owned_perm
      exact ⟨hperm.trans, hperm.symm.trans⟩
  | stop =>
      cases hstep
      exact ⟨⟨h.producer, h.consumer⟩, fun _ => h.owned, fun _ => trivial⟩

theorem Inv.room (h : Inv batch poolSize s) :
    (s.producer.register ≠ [] → s.usedRing.contents.length + 1 < 2 ^ k) ∧
      (s.consumer.register ≠ [] → s.freeRing.contents.length + 1 < 2 ^ k) := by
  have hm := circulating_lt poolSize k
  have howned : (s.asProducer.owned ++ s.consumer.held s.batchBuf).Perm _ := h.owned
  have howned' := s.owned_perm.symm.trans h.owned
  exact ⟨s.asProducer.room s.consumer hm howned, s.asConsumer.room s.producer hm howned'⟩

end

/-- **Batch mode keeps every buffer in one place** just as long as no worker writes
into a cell of `batch_buf` that the other has still to read. -/
theorem batch_owned_iff {k : ℕ} (poolSize batchSize : ℕ) (freeSlots usedSlots : Fin (2 ^ k) → Buffer)
    (batchBuf : ℕ → Buffer) (actions : List Action) :
    let s₀ := init poolSize freeSlots usedSlots batchBuf
    Always (step true batchSize) s₀ actions (Owned poolSize) ↔
      EachStep (step true batchSize) s₀ actions Apart := by
  refine always_iff (Inv true poolSize) ⟨init_owned .., trivial, trivial⟩ (fun s h => h.owned) ?_ ?_
  · intro a s s' h hstep hapart
    obtain ⟨⟨hproducer, hconsumer⟩, hiff⟩ := h.step_iff hstep
    exact ⟨hiff.mp hapart, hproducer, hconsumer⟩
  · intro a s s' h hstep hapart howned
    exact hapart ((h.step_iff hstep).2.mpr howned)

/-- A ring of four with three buffers, and batches of one.  The consumer has put
the buffer 0 into the cell and not yet read it when the producer puts the buffer 1
there; so 1 is sent on by both of them, and 0 by nobody. -/
theorem batch_loses_buffer :
    let s₀ : State 2 := init 3 (fun _ => 0) (fun _ => 0) (fun _ => 0)
    let actions : List Action :=
      [.producer, .producer, .producer, .producer, .producer, .producer, .producer,
        .consumer, .consumer, .consumer, .producer, .producer, .producer,
        .consumer, .consumer, .consumer]
    let s := schedule (step true 1) actions s₀
    s.owned = [2, 1, 1] ∧ ¬ Owned 3 s := by
  intro s₀ actions s
  have howned : s.owned = [2, 1, 1] := by decide
  refine ⟨howned, ?_⟩
  rw [Owned, howned]
  decide

theorem Pc.Ok.writes {pc : Pc} (h : pc.Ok false) : pc.writes = none := by
  cases pc with
  | write n buf => exact absurd h (by simp [Pc.Ok])
  | _ => rfl

theorem Inv.apart {k poolSize : ℕ} {a : Action} {s : State k} (h : Inv false poolSize s) :
    Apart a s := by
  cases a with
  | producer => simp [Apart, h.producer.writes]
  | consumer => simp [Apart, h.consumer.writes]
  | stop => trivial

/-- **Single mode keeps every buffer in one place**, whatever the interleaving, and
no push has to be tried again. -/
theorem single_owned {k : ℕ} (poolSize batchSize : ℕ) (freeSlots usedSlots : Fin (2 ^ k) → Buffer)
    (batchBuf : ℕ → Buffer) (actions : List Action) :
    let s := schedule (step false batchSize) actions (init poolSize freeSlots usedSlots batchBuf)
    Owned poolSize s ∧
      (∀ buf, s.producer = .give buf → SPSCRing.push buf s.usedRing ≠ none) ∧
      (∀ buf, s.consumer = .give buf → SPSCRing.push buf s.freeRing ≠ none) := by
  intro s
  have hinv : Inv false poolSize s := by
    refine schedule_rule (Inv false poolSize) ⟨init_owned .., trivial, trivial⟩ ?_ ..
    intro a s s' h hstep
    obtain ⟨⟨hproducer, hconsumer⟩, hiff⟩ := h.step_iff hstep
    exact ⟨hiff.mp h.apart, hproducer, hconsumer⟩
  refine ⟨hinv.owned, fun buf hgive hfull => ?_, fun buf hgive hfull => ?_⟩
  · have hroom := hinv.room.1 (by rw [hgive]; simp [Pc.register])
    exact hroom.ne (SPSCRing.push_eq_none.mp hfull)
  · have hroom := hinv.room.2 (by rw [hgive]; simp [Pc.register])
    exact hroom.ne (SPSCRing.push_eq_none.mp hfull)

end LearnCpp.Concurrency.DoubleRing
