/-
# `LearnCpp.Latency.V1` — the epoll server, and how it shuts down

`extras/latency/v1_epoll_pool_lockfree.cpp`: `network_thread` puts each payload
into a block of the pool and queues it, `consumer_thread` takes it off, counts it
and frees the block, and `main` stores `g_running = false` and joins both.  A step
is an operation on the pool or the queue, or a load of `g_running`; what `epoll`
and the sockets answer comes with the action (`Io`).

At every step each block is in one place (`Inv`):

    free list ++ queue ++ in the network thread ++ in the consumer

The network thread looks at `g_running` only between two rounds of events, and
the consumer looks at nothing else.  Once the consumer is gone the queue only
grows, by one for each payload, and the pool has more blocks than the queue has
room for; so what is still to come decides whether the network thread gets out.
-/
import LearnCpp.Latency.Common
import LearnCpp.Lib.Schedule

namespace LearnCpp.Latency.V1

open Lib

def poolSize : ℕ := 1024

/-- `QUEUE_SIZE` is `2 ^ queueBits`. -/
def queueBits : ℕ := 9

abbrev Fd := ℕ

/-- Where `network_thread` is.  `fds` are the events it has still to look at. -/
inductive Network where
  /-- at the load of `g_running` -/
  | loop
  /-- at `epoll_wait` -/
  | wait
  /-- at the head of the loop over the events -/
  | events (fds : List Fd)
  /-- at `recv` -/
  | recv (fd : Fd) (fds : List Fd)
  /-- in the spin loop of the push -/
  | push (fd : Fd) (fds : List Fd) (msg : ℕ)
  | returned
  deriving DecidableEq, Repr

/-- Where `consumer_thread` is. -/
inductive Consumer where
  /-- at the load of `g_running` -/
  | loop
  /-- at the pop -/
  | pop
  /-- at the latency accounting -/
  | account (msg : ℕ)
  /-- at `g_pool.free` -/
  | free (msg : ℕ)
  | returned
  deriving DecidableEq, Repr

structure State where
  pool : MemoryPool
  queue : Ring ℕ (2 ^ queueBits)
  running : Bool := true
  totalNs : Int64 := 0
  count : UInt64 := 0
  maxNs : Int64 := 0
  listenFd : Fd
  /-- what is registered with `epoll` -/
  registered : List Fd
  seq : UInt32 := 0
  network : Network := .loop
  consumer : Consumer := .loop
  /-- how many payloads `recv` has delivered -/
  received : ℕ := 0

/-- When the threads start, with `g_pool` as constructed and the listening socket
registered. -/
def init (storage : ℕ → Block) (slots : Fin (2 ^ queueBits) → ℕ) (listenFd : Fd) : State where
  pool := .new poolSize storage
  queue := .empty slots
  listenFd := listenFd
  registered := [listenFd]

/-- What the network thread gets to know in a step. -/
inductive Io where
  | none
  /-- `epoll_wait` reports these, or none at all. -/
  | ready (fds : List Fd)
  /-- `accept4` returns a connection, or fails. -/
  | accepted (conn : Option Fd)
  /-- `recv` returns bytes (none at the end of the stream), or fails; and `now_ns` behind it. -/
  | received (bytes : Option (List UInt8)) (ts : Int64)
  deriving DecidableEq

section
variable (bits : Bits)

/-- `alloc` and what is written into the block; without a block the payload is dropped. -/
def receive (fd : Fd) (fds : List Fd) (bytes : List UInt8) (ts : Int64) (s : State) : State :=
  match s.pool.alloc bits with
  | none => { s with network := .recv fd fds, received := s.received + 1 }
  | some (msg, pool) =>
      { s with
        pool := { pool with storage := Function.update pool.storage msg (.message ts s.seq bytes) }
        seq := s.seq + 1
        network := .push fd fds msg
        received := s.received + 1 }

def networkStep (io : Io) (s : State) : Option State :=
  match s.network, io with
  | .loop, .none => some { s with network := if s.running then .wait else .returned }
  | .wait, .ready fds =>
      if fds.length ≤ 32 ∧ fds.Nodup ∧ fds ⊆ s.registered then some { s with network := .events fds }
      else none
  | .events [], .none => some { s with network := .loop }
  | .events (fd :: fds), io =>
      if fd = s.listenFd then
        match io with
        | .accepted none => some { s with network := .events fds }
        | .accepted (some conn) =>
            if conn ∈ s.registered then none
            else some { s with registered := conn :: s.registered, network := .events fds }
        | _ => none
      else if io = .none then some { s with network := .recv fd fds }
      else none
  | .recv fd fds, .received bytes ts =>
      match bytes with
      | none => some { s with network := .events fds }
      | some [] => some { s with registered := s.registered.erase fd, network := .events fds }
      | some bytes => if bytes.length ≤ 1024 then some (receive bits fd fds bytes ts s) else none
  | .push fd fds msg, .none =>
      match SPSCQueue.push msg s.queue with
      | some queue => some { s with queue := queue, network := .recv fd fds }
      | none => some s
  | _, _ => none

/-- `now` is what `now_ns` returns in the accounting. -/
def consumerStep (now : Int64) (s : State) : Option State :=
  match s.consumer with
  | .loop => some { s with consumer := if s.running then .pop else .returned }
  | .pop =>
      match SPSCQueue.pop s.queue with
      | none => some { s with consumer := .loop }
      | some (msg, queue) => some { s with queue := queue, consumer := .account msg }
  | .account msg =>
      let latency := now - (s.pool.storage msg).word.ns bits
      some { s with
        totalNs := s.totalNs + latency
        count := s.count + 1
        maxNs := if s.maxNs < latency then latency else s.maxNs
        consumer := .free msg }
  | .free msg => some { s with pool := s.pool.free msg, consumer := .loop }
  | .returned => none

inductive Action where
  | network (io : Io)
  | consumer (now : Int64)
  /-- `main` stores `g_running = false`. -/
  | stop
  deriving DecidableEq

def step : Action → State → Option State
  | .network io, s => networkStep bits io s
  | .consumer now, s => consumerStep bits now s
  | .stop, s => some { s with running := false }

end

/-! ## Where the blocks are -/

def Network.hand : Network → List ℕ
  | push _ _ msg => [msg]
  | _ => []

def Consumer.hand : Consumer → List ℕ
  | account msg => [msg]
  | free msg => [msg]
  | _ => []

/-- The blocks that are not free. -/
def State.inUse (s : State) : List ℕ := s.queue.contents ++ s.network.hand ++ s.consumer.hand

/-- The messages that the consumer has still to take. -/
def State.waiting (s : State) : ℕ := s.queue.contents.length + s.network.hand.length

/-- The consumer is gone, and the network thread spins on a full queue. -/
def State.Wedged (s : State) : Prop :=
  s.consumer = .returned ∧
    ∃ fd fds msg, s.network = .push fd fds msg ∧ SPSCQueue.push msg s.queue = none

/-- The consumer is about to see that `g_running` is false. -/
def Leaves : Action → State → Prop
  | .consumer _, s => s.consumer = .loop ∧ s.running = false
  | _, _ => False

section
variable {bits : Bits} {a : Action} {s s' : State}

/-- Each block is in one place. -/
def Inv (bits : Bits) (s : State) : Prop :=
  ∃ nodes, s.pool.Free bits nodes ∧ (nodes ++ s.inUse).Perm (List.range poolSize)

theorem init_inv (storage : ℕ → Block) (slots : Fin (2 ^ queueBits) → ℕ) (listenFd : Fd) :
    Inv bits (init storage slots listenFd) := by
  have hpos : 0 < poolSize := by simp [poolSize]
  have hfree : (MemoryPool.new poolSize storage).Free bits (List.range poolSize) :=
    MemoryPool.free_new hpos
  have hnone : (init storage slots listenFd).inUse = [] := by
    rw [State.inUse, init]
    dsimp only
    rw [Ring.contents_empty]
    rfl
  refine ⟨List.range poolSize, ?_, ?_⟩
  · rw [init]
    exact hfree
  · rw [hnone, List.append_nil]

/-- **What a payload does**: as long as the messages are fewer than the blocks,
there is a block for it. -/
theorem Inv.receive (h : Inv bits s) (fd : Fd) (fds : List Fd) (bytes : List UInt8) (ts : Int64)
    (hhand : s.network.hand = []) :
    Inv bits (receive bits fd fds bytes ts s) ∧
      (s.inUse.length < poolSize → ∃ msg, (V1.receive bits fd fds bytes ts s).network = .push fd fds msg) := by
  obtain ⟨nodes, hfree, hperm⟩ := h
  unfold V1.receive
  split
  · next hnone =>
      obtain rfl := (MemoryPool.alloc_eq_none hfree).mp hnone
      refine ⟨⟨[], hfree, ?_⟩, fun hlt => absurd hperm.length_eq ?_⟩
      · rwa [State.inUse, hhand] at hperm
      · rw [List.nil_append, List.length_range]
        exact hlt.ne
  · next msg pool halloc =>
      obtain ⟨-, rest, rfl, hrest⟩ := MemoryPool.alloc_eq_some hfree halloc
      have hnodup := hperm.nodup_iff.mpr List.nodup_range
      refine ⟨⟨rest, hrest.update (List.nodup_cons.mp (List.nodup_append.mp hnodup).1).1 _, ?_⟩, fun _ => ⟨msg, rfl⟩⟩
      rw [State.inUse, hhand, List.append_nil] at hperm
      exact perm_taken.trans hperm

theorem Inv.congr (h : Inv bits s) (hpool : s'.pool = s.pool) (hinUse : s'.inUse = s.inUse) : Inv bits s' := by
  rw [Inv, hpool, hinUse]
  exact h

theorem network_cases {io : Io} (hstep : networkStep bits io s = some s') :
    (s.network.hand = [] ∧ ∃ fd fds bytes ts, s' = receive bits fd fds bytes ts s) ∨
    (s'.pool = s.pool ∧ s'.consumer = s.consumer ∧ s'.running = s.running ∧ s'.received = s.received ∧
      s'.queue.contents ++ s'.network.hand = s.queue.contents ++ s.network.hand) := by
  cases hn : s.network with
  | loop =>
      cases io with
      | none =>
          simp only [networkStep, hn, Option.some.injEq] at hstep
          subst hstep
          refine Or.inr ⟨rfl, rfl, rfl, rfl, ?_⟩
          cases s.running <;> rfl
      | _ => simp [networkStep, hn] at hstep
  | wait =>
      cases io with
      | ready fds =>
          simp only [networkStep, hn] at hstep
          split at hstep <;> cases hstep
          exact Or.inr ⟨rfl, rfl, rfl, rfl, rfl⟩
      | _ => simp [networkStep, hn] at hstep
  | events fds =>
      right
      cases fds with
      | nil =>
          cases io with
          | none =>
              simp only [networkStep, hn, Option.some.injEq] at hstep
              subst hstep
              exact ⟨rfl, rfl, rfl, rfl, rfl⟩
          | _ => simp [networkStep, hn] at hstep
      | cons fd fds =>
          simp only [networkStep, hn] at hstep
          split at hstep
          · split at hstep
            · cases hstep
              exact ⟨rfl, rfl, rfl, rfl, rfl⟩
            · split at hstep <;> cases hstep
              exact ⟨rfl, rfl, rfl, rfl, rfl⟩
            · cases hstep
          · split at hstep <;> cases hstep
            exact ⟨rfl, rfl, rfl, rfl, rfl⟩
  | recv fd fds =>
      cases io with
      | received bytes ts =>
          simp only [networkStep, hn] at hstep
          split at hstep
          · cases hstep
            exact Or.inr ⟨rfl, rfl, rfl, rfl, rfl⟩
          · cases hstep
            exact Or.inr ⟨rfl, rfl, rfl, rfl, rfl⟩
          · split at hstep <;> cases hstep
            exact Or.inl ⟨rfl, fd, fds, _, ts, rfl⟩
      | _ => simp [networkStep, hn] at hstep
  | push fd fds msg =>
      cases io with
      | none =>
          right
          simp only [networkStep, hn] at hstep
          split at hstep
          · next queue hpush =>
              cases hstep
              refine ⟨rfl, rfl, rfl, rfl, ?_⟩
              rw [SPSCQueue.push_eq_some hpush]
              exact List.append_nil _
          · cases hstep
            exact ⟨rfl, rfl, rfl, rfl, by rw [hn]⟩
      | _ => simp [networkStep, hn] at hstep
  | returned => simp [networkStep, hn] at hstep

theorem Inv.consumerStep {now : Int64} (h : Inv bits s) (hstep : consumerStep bits now s = some s') :
    Inv bits s' := by
  obtain ⟨nodes, hfree, hperm⟩ := h
  cases hc : s.consumer with
  | loop =>
      simp only [V1.consumerStep, hc, Option.some.injEq] at hstep
      subst hstep
      refine ⟨nodes, hfree, ?_⟩
      rw [State.inUse, hc] at hperm
      cases hrunning : s.running <;> exact hperm
  | pop =>
      simp only [V1.consumerStep, hc] at hstep
      rw [State.inUse, hc] at hperm
      split at hstep
      · cases hstep
        exact ⟨nodes, hfree, hperm⟩
      · next msg queue hpop =>
          cases hstep
          rw [SPSCQueue.pop_eq_some hpop] at hperm
          exact ⟨nodes, hfree, (perm_popped.append_left _).trans hperm⟩
  | account msg =>
      simp only [V1.consumerStep, hc, Option.some.injEq] at hstep
      subst hstep
      rw [State.inUse, hc] at hperm
      exact ⟨nodes, hfree, hperm⟩
  | free msg =>
      simp only [V1.consumerStep, hc, Option.some.injEq] at hstep
      subst hstep
      have hmsg : msg ∉ nodes := not_mem_of_perm hperm (by simp [State.inUse, hc, Consumer.hand])
      refine ⟨msg :: nodes, MemoryPool.free_free hfree hmsg, ?_⟩
      rw [State.inUse, hc] at hperm
      exact perm_freed.trans hperm
  | returned => simp [V1.consumerStep, hc] at hstep

theorem Inv.step (h : Inv bits s) (hstep : step bits a s = some s') : Inv bits s' := by
  cases a with
  | network io =>
      rcases network_cases hstep with ⟨hhand, fd, fds, bytes, ts, rfl⟩ | ⟨hpool, hconsumer, -, -, hsame⟩
      · exact (h.receive fd fds bytes ts hhand).1
      · refine h.congr hpool ?_
        rw [State.inUse, State.inUse, hsame, hconsumer]
  | consumer now => exact h.consumerStep hstep
  | stop =>
      cases hstep
      exact h

/-! ## Once the consumer is gone -/

theorem length_queue_lt (s : State) : s.queue.contents.length < 512 := s.queue.length_contents_lt

theorem Network.length_hand_le (n : Network) : n.hand.length ≤ 1 := by
  cases n <;> simp [hand]

theorem receive_frame (fd : Fd) (fds : List Fd) (bytes : List UInt8) (ts : Int64) :
    (V1.receive bits fd fds bytes ts s).queue = s.queue ∧
      (V1.receive bits fd fds bytes ts s).consumer = s.consumer ∧
      (V1.receive bits fd fds bytes ts s).received = s.received + 1 := by
  unfold V1.receive
  split <;> exact ⟨rfl, rfl, rfl⟩

theorem State.waiting_le (s : State) : s.waiting ≤ 512 := by
  have hqueue := length_queue_lt s
  have hhand := s.network.length_hand_le
  rw [State.waiting]
  omega

theorem inUse_lt (hhand : s.network.hand = []) (hc : s.consumer = .returned) :
    s.inUse.length < poolSize := by
  have hqueue := length_queue_lt s
  rw [State.inUse, hhand, hc]
  simp only [Consumer.hand, List.append_nil, poolSize]
  omega

theorem Inv.waiting_step (h : Inv bits s) (hc : s.consumer = .returned) (hstep : V1.step bits a s = some s') :
    s'.consumer = .returned ∧ s.received ≤ s'.received ∧ s'.waiting + s.received = s.waiting + s'.received := by
  cases a with
  | network io =>
      rcases network_cases hstep with ⟨hhand, fd, fds, bytes, ts, rfl⟩ | ⟨-, hconsumer, -, hreceived, hsame⟩
      · obtain ⟨hqueue, hconsumer, hreceived⟩ := receive_frame fd fds bytes ts
        obtain ⟨msg, hpush⟩ := (h.receive fd fds bytes ts hhand).2 (inUse_lt hhand hc)
        refine ⟨hconsumer.trans hc, by omega, ?_⟩
        rw [State.waiting, State.waiting, hqueue, hpush, hhand, hreceived]
        exact Nat.add_right_comm ..
      · refine ⟨hconsumer.trans hc, hreceived.ge, ?_⟩
        have hlength := congrArg List.length hsame
        rw [List.length_append, List.length_append] at hlength
        rw [State.waiting, State.waiting, hlength, hreceived]
  | consumer now => simp [V1.step, V1.consumerStep, hc] at hstep
  | stop =>
      cases hstep
      exact ⟨hc, Nat.le_refl _, rfl⟩

/-- When the consumer is gone, the threads are wedged just when the queue and the
hand of the network thread are full. -/
theorem wedged_iff (hc : s.consumer = .returned) : s.Wedged ↔ s.waiting = 512 := by
  have hlt := length_queue_lt s
  constructor
  · rintro ⟨-, fd, fds, msg, hpush, hfull⟩
    have hlength : s.queue.contents.length + 1 = 512 := SPSCQueue.push_eq_none.mp hfull
    rw [State.waiting, hpush]
    exact hlength
  · intro hwaiting
    rw [State.waiting] at hwaiting
    cases hn : s.network with
    | push fd fds msg =>
        refine ⟨hc, fd, fds, msg, hn, SPSCQueue.push_eq_none.mpr ?_⟩
        rw [hn] at hwaiting
        exact hwaiting
    | _ =>
        rw [hn] at hwaiting
        exact absurd hwaiting hlt.ne

/-- **A wedge is for good.** -/
theorem wedged_step (hwedged : s.Wedged) (hstep : V1.step bits a s = some s') : s'.Wedged := by
  obtain ⟨hc, fd, fds, msg, hpush, hfull⟩ := hwedged
  cases a with
  | network io =>
      cases io with
      | none =>
          simp only [V1.step, networkStep, hpush, hfull, Option.some.injEq] at hstep
          subst hstep
          exact ⟨hc, fd, fds, msg, hpush, hfull⟩
      | _ => simp [V1.step, networkStep, hpush] at hstep
  | consumer now => simp [V1.step, V1.consumerStep, hc] at hstep
  | stop =>
      cases hstep
      exact ⟨hc, fd, fds, msg, hpush, hfull⟩

theorem leaves_of_returned (hbefore : s.consumer ≠ .returned) (hstep : V1.step bits a s = some s')
    (hafter : s'.consumer = .returned) : Leaves a s := by
  cases a with
  | network io =>
      rcases network_cases hstep with ⟨-, fd, fds, bytes, ts, rfl⟩ | ⟨-, hconsumer, -⟩
      · exact absurd ((receive_frame fd fds bytes ts).2.1.symm.trans hafter) hbefore
      · exact absurd (hconsumer.symm.trans hafter) hbefore
  | consumer now =>
      simp only [V1.step, V1.consumerStep] at hstep
      cases hc : s.consumer with
      | loop =>
          rw [hc] at hstep
          refine ⟨hc, ?_⟩
          cases hrunning : s.running with
          | false => rfl
          | true =>
              rw [hrunning] at hstep
              cases hstep
              cases hafter
      | pop =>
          rw [hc] at hstep
          dsimp only at hstep
          split at hstep <;> cases hstep <;> cases hafter
      | returned => exact absurd hc hbefore
      | _ =>
          rw [hc] at hstep
          cases hstep
          cases hafter
  | stop =>
      cases hstep
      exact absurd hafter hbefore

theorem leaves_step (hleaves : Leaves a s) (hstep : V1.step bits a s = some s') :
    s'.consumer = .returned ∧ s'.waiting = s.waiting ∧ s'.received = s.received := by
  cases a with
  | consumer now =>
      obtain ⟨hc, hrunning⟩ := hleaves
      simp only [V1.step, V1.consumerStep, hc, hrunning, Option.some.injEq] at hstep
      subst hstep
      exact ⟨rfl, rfl, rfl⟩
  | _ => cases hleaves

theorem Inv.waiting_schedule (h : Inv bits s) (hc : s.consumer = .returned) (actions : List Action) :
    (schedule (V1.step bits) actions s).consumer = .returned ∧
      (schedule (V1.step bits) actions s).waiting =
        s.waiting + ((schedule (V1.step bits) actions s).received - s.received) := by
  have hrun : Inv bits (schedule (V1.step bits) actions s) ∧
      (schedule (V1.step bits) actions s).consumer = .returned ∧
      s.received ≤ (schedule (V1.step bits) actions s).received ∧
      (schedule (V1.step bits) actions s).waiting + s.received =
        s.waiting + (schedule (V1.step bits) actions s).received := by
    refine schedule_rule (fun t => Inv bits t ∧ t.consumer = .returned ∧ s.received ≤ t.received ∧
      t.waiting + s.received = s.waiting + t.received) ⟨h, hc, Nat.le_refl _, rfl⟩ ?_ actions
    rintro a t t' ⟨hinv, hgone, hle, hcount⟩ hstep
    obtain ⟨hgone', hle', hcount'⟩ := hinv.waiting_step hgone hstep
    exact ⟨hinv.step hstep, hgone', hle.trans hle', by omega⟩
  obtain ⟨-, hgone, hle, hcount⟩ := hrun
  exact ⟨hgone, by omega⟩

end

/-- **Shutdown cannot wedge** just when, at the moment that the consumer sees that
`g_running` is false, there is room in the queue for all that waits and all that
`recv` will still deliver. -/
theorem never_wedged_iff (bits : Bits) (storage : ℕ → Block) (slots : Fin (2 ^ queueBits) → ℕ)
    (listenFd : Fd) (actions : List Action) :
    let s₀ := init storage slots listenFd
    let last := schedule (step bits) actions s₀
    Always (step bits) s₀ actions (fun s => ¬ s.Wedged) ↔
      EachStep (step bits) s₀ actions fun a s =>
        Leaves a s → s.waiting + (last.received - s.received) < 512 := by
  intro s₀ last
  have hinv : ∀ pre, Inv bits (schedule (step bits) pre s₀) := fun pre =>
    schedule_rule (Inv bits) (init_inv ..) (fun _ _ _ h hstep => h.step hstep) pre
  have hlast : Always (step bits) s₀ actions (fun s => ¬ s.Wedged) ↔ ¬ last.Wedged :=
    always_iff_last fun a s s' hwedged hstep =>
      not_not_intro (wedged_step (not_not.mp hwedged) hstep)
  -- a step with which the consumer goes, and all that comes after it
  have hrest : ∀ pre a post s', actions = pre ++ a :: post → Leaves a (schedule (step bits) pre s₀) →
      step bits a (schedule (step bits) pre s₀) = some s' → last.consumer = .returned ∧
        last.waiting = (schedule (step bits) pre s₀).waiting +
          (last.received - (schedule (step bits) pre s₀).received) := by
    intro pre a post s' hactions hleaves hstep
    obtain ⟨hgone, hwaiting, hreceived⟩ := leaves_step hleaves hstep
    have hpost : last = schedule (step bits) post s' := by
      rw [← schedule_cons_of_some hstep, ← schedule_append, ← hactions]
    rw [← hwaiting, ← hreceived, hpost]
    exact ((hinv pre).step hstep).waiting_schedule hgone post
  rw [hlast]
  constructor
  · rintro hfree pre a ⟨post, hactions⟩ hsome hleaves
    obtain ⟨s', hstep⟩ := Option.isSome_iff_exists.mp hsome
    rw [List.append_assoc, List.singleton_append] at hactions
    obtain ⟨hgone, hcount⟩ := hrest pre a post s' hactions.symm hleaves hstep
    rw [wedged_iff hgone, hcount] at hfree
    have hle := last.waiting_le
    omega
  · intro hroom hwedged
    obtain ⟨pre, a, post, s', hactions, hbefore, hstep, hgone⟩ :=
      exists_step_of_not (P := fun s : State => s.consumer = .returned) (by simp [s₀, init]) hwedged.1
    have hleaves := leaves_of_returned hbefore hstep hgone
    obtain ⟨hgone, hcount⟩ := hrest pre a post s' hactions hleaves hstep
    have hprefix : pre ++ [a] <+: actions := ⟨post, by rw [hactions, List.append_assoc]; rfl⟩
    have hlt := hroom pre a hprefix (Option.isSome_of_mem hstep) hleaves
    rw [← hcount, (wedged_iff hgone).mp hwedged] at hlt
    exact absurd hlt (Nat.lt_irrefl _)

/-! ## Payloads that nobody takes -/

/-- A payload of one byte, and the first try to queue it. -/
def payload : List Action := [.network (.received (some [0]) 0), .network .none]

/-- The consumer is gone, and the network thread is at `recv` with `n` messages in the queue. -/
structure Filling (bits : Bits) (fd : Fd) (fds : List Fd) (n : ℕ) (s : State) : Prop where
  inv : Inv bits s
  gone : s.consumer = .returned
  recv : s.network = .recv fd fds
  queued : s.queue.contents.length = n

section
variable {bits : Bits} {s : State} {fd : Fd} {fds : List Fd} {n : ℕ}

theorem Filling.receive (h : Filling bits fd fds n s) :
    ∃ s' msg, step bits (.network (.received (some [0]) 0)) s = some s' ∧ Inv bits s' ∧
      s'.consumer = .returned ∧ s'.network = .push fd fds msg ∧ s'.queue.contents.length = n := by
  obtain ⟨hqueue, hconsumer, -⟩ : (V1.receive bits fd fds [0] 0 s).queue = s.queue ∧
      (V1.receive bits fd fds [0] 0 s).consumer = s.consumer ∧ _ := receive_frame fd fds [0] 0
  have hhand : s.network.hand = [] := by rw [h.recv]; rfl
  obtain ⟨hinv, hpush⟩ := h.inv.receive fd fds [0] 0 hhand
  obtain ⟨msg, hpush⟩ := hpush (inUse_lt hhand h.gone)
  refine ⟨V1.receive bits fd fds [0] 0 s, msg, ?_, hinv, hconsumer.trans h.gone, hpush, ?_⟩
  · simp [step, networkStep, h.recv]
  · rw [hqueue, h.queued]

theorem Filling.payload (h : Filling bits fd fds n s) (hroom : n + 1 < 512) :
    Filling bits fd fds (n + 1) (schedule (step bits) payload s) := by
  obtain ⟨s₁, msg, hstep, hinv, hgone, hnetwork, hlength⟩ := h.receive
  have hpush : SPSCQueue.push msg s₁.queue ≠ none := by
    intro hfull
    have hlast : s₁.queue.contents.length + 1 = 512 := SPSCQueue.push_eq_none.mp hfull
    omega
  obtain ⟨queue, hqueue⟩ := Option.ne_none_iff_exists'.mp hpush
  have hstep' : step bits (.network .none) s₁ =
      some { s₁ with queue := queue, network := .recv fd fds } := by
    simp [step, networkStep, hnetwork, hqueue]
  have hrun : schedule (step bits) V1.payload s = { s₁ with queue := queue, network := .recv fd fds } := by
    rw [V1.payload, schedule_cons_of_some hstep, schedule_cons_of_some hstep', schedule_nil]
  rw [hrun]
  refine ⟨hinv.step hstep', hgone, rfl, ?_⟩
  show queue.contents.length = n + 1
  rw [SPSCQueue.push_eq_some hqueue, List.length_append, hlength, List.length_singleton]

theorem Filling.payloads (h : Filling bits fd fds n s) :
    ∀ m, n + m < 512 →
      Filling bits fd fds (n + m) (schedule (step bits) (List.replicate m V1.payload).flatten s) := by
  intro m
  induction m with
  | zero => exact fun _ => h
  | succ m ih =>
      intro hroom
      rw [List.replicate_succ', List.flatten_append, List.flatten_singleton, schedule_append]
      exact (ih (by omega)).payload hroom

theorem Filling.wedged (h : Filling bits fd fds 511 s) : (schedule (step bits) V1.payload s).Wedged := by
  obtain ⟨s₁, msg, hstep, hinv, hgone, hnetwork, hlength⟩ := h.receive
  have hwedged : s₁.Wedged :=
    ⟨hgone, fd, fds, msg, hnetwork, SPSCQueue.push_eq_none.mpr (by rw [hlength]; rfl)⟩
  rw [V1.payload, schedule_cons_of_some hstep]
  exact attempt_keeps hwedged fun s' => wedged_step hwedged

end

/-- One connection.  `main` stores `g_running = false` while the network thread is
at `recv`, and the consumer goes with nothing in the queue; 512 payloads come in. -/
theorem wedged_by_payloads :
    let bits : Bits := ⟨fun _ => none, fun _ => 0⟩
    let s₀ := init (fun _ => ⟨.link none, 0, 0, []⟩) (fun _ => 0) 3
    let connect : List Action :=
      [.network .none, .network (.ready [3]), .network (.accepted (some 4)), .network .none,
        .network .none, .network (.ready [4]), .network .none, .stop, .consumer 0]
    (schedule (step bits) (connect ++ (List.replicate 512 payload).flatten) s₀).Wedged := by
  intro bits s₀ connect
  have hconnect : Filling bits 4 [] 0 (schedule (step bits) connect s₀) := by
    refine ⟨schedule_rule (Inv bits) (init_inv ..) (fun _ _ _ h hstep => h.step hstep) connect, rfl, rfl, ?_⟩
    show s₀.queue.contents.length = 0
    rw [show s₀.queue.contents = [] from Ring.contents_empty _, List.length_nil]
  rw [List.replicate_succ', List.flatten_append, List.flatten_singleton, schedule_append, schedule_append]
  exact (hconnect.payloads 511 (by decide)).wedged

end LearnCpp.Latency.V1
