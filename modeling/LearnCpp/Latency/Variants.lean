/-
# `LearnCpp.Latency.Variants` — one server, three ways to hand a message over

`extras/latency`: the servers v1, v2 and v3 are the same two threads.  They differ
in where the messages live and in the queue between the threads:

    v1    MemoryPool    SPSCQueue
    v2    new, delete   SPSCQueue
    v3    MemoryPool    MutexQueue

The threads are written once, for any memory and any queue that keep what they
promise (`Memory`, `Queue`).  Each payload that `recv` delivers becomes a message,
with consecutive numbers, and the consumer finds them all, each once and in order,
as they were written:

    handled  ++  under way   =   payloads received

and as long as the servers run, it gets through with what is in the queue.

An operation on the memory or the queue is one step here, as in `V1`; `PoolRace` is
about the pool when they are not.
-/
import LearnCpp.Latency.V1
import LearnCpp.Lib.Progress
import Mathlib.Algebra.Order.BigOperators.Group.List
import Mathlib.Algebra.Order.Ring.Nat

namespace LearnCpp.Latency.Variants

open Lib

/-! ## What the threads rely on -/

/-- Where messages live.  `Uses` says which are in use, `HasRoom` with how many of them there is
one more. -/
structure Memory (M : Type) where
  alloc : M → Option (ℕ × M)
  read : M → ℕ → Block
  write : ℕ → Block → M → M
  /-- nothing, where the behaviour is undefined -/
  free : ℕ → M → Option M
  Uses : M → List ℕ → Prop
  HasRoom : ℕ → Prop
  uses_perm : ∀ {m used used'}, used.Perm used' → Uses m used → Uses m used'
  alloc_isSome : ∀ {m used}, Uses m used → HasRoom used.length → (alloc m).isSome
  alloc_some : ∀ {m m' used msg}, Uses m used → alloc m = some (msg, m') →
    Uses m' (msg :: used) ∧ ∀ x, read m' x = read m x
  nodup : ∀ {m used}, Uses m used → used.Nodup
  uses_write : ∀ {m used msg} b, Uses m used → msg ∈ used → Uses (write msg b m) used
  read_write : ∀ m msg b, read (write msg b m) msg = b
  read_write_of_ne : ∀ {m msg x} b, x ≠ msg → read (write msg b m) x = read m x
  free_some : ∀ {m used msg}, Uses m (msg :: used) → ∃ m', free msg m = some m' ∧ Uses m' used ∧
    ∀ x ∈ used, read m' x = read m x

/-- A queue of messages with room for `room` of them. -/
structure Queue (Q : Type) where
  push : ℕ → Q → Option Q
  pop : Q → Option (ℕ × Q)
  contents : Q → List ℕ
  room : ℕ
  length_le : ∀ q, (contents q).length ≤ room
  push_some : ∀ {msg q q'}, push msg q = some q' → contents q' = contents q ++ [msg]
  pop_some : ∀ {msg q q'}, pop q = some (msg, q') → contents q = msg :: contents q'
  pop_none : ∀ {q}, pop q = none → contents q = []

/-- There is a message for each place in the queue, one for the consumer and one more. -/
structure Variant (M Q : Type) where
  memory : Memory M
  queue : Queue Q
  enough : ∀ k, k ≤ queue.room + 1 → memory.HasRoom k

/-! ## The threads -/

/-- `payloads` is what `recv` has delivered, `handled` the messages as the consumer found them. -/
structure State (M Q : Type) where
  memory : M
  queue : Q
  running : Bool := true
  totalNs : Int64 := 0
  count : UInt64 := 0
  maxNs : Int64 := 0
  listenFd : V1.Fd
  registered : List V1.Fd
  seq : UInt32 := 0
  network : V1.Network := .loop
  consumer : V1.Consumer := .loop
  payloads : List (Int64 × List UInt8) := []
  handled : List Block := []

variable {M Q : Type}

def init (memory : M) (queue : Q) (listenFd : V1.Fd) : State M Q where
  memory := memory
  queue := queue
  listenFd := listenFd
  registered := [listenFd]

section
variable (bits : Bits) (v : Variant M Q)

/-- The message for a payload; without one the payload is dropped. -/
def receive (fd : V1.Fd) (fds : List V1.Fd) (bytes : List UInt8) (ts : Int64) (s : State M Q) :
    State M Q :=
  match v.memory.alloc s.memory with
  | none => { s with network := .recv fd fds, payloads := s.payloads ++ [(ts, bytes)] }
  | some (msg, memory) =>
      { s with
        memory := v.memory.write msg (.message ts s.seq bytes) memory
        seq := s.seq + 1
        network := .push fd fds msg
        payloads := s.payloads ++ [(ts, bytes)] }

def networkStep (io : V1.Io) (s : State M Q) : Option (State M Q) :=
  match s.network, io with
  | .loop, .none => some { s with network := if s.running then .wait else .returned }
  | .wait, .ready fds =>
      if fds.length ≤ 32 ∧ fds.Nodup ∧ fds ⊆ s.registered then
        some { s with network := .events fds }
      else none
  | .events [], .none => some { s with network := .loop }
  | .events (fd :: fds), io =>
      if fd = s.listenFd then
        match io with
        | .accepted none => some { s with network := .events fds }
        | .accepted (some conn) =>
            if conn ∈ s.registered then none
            else some { s with registered := conn :: s.registered, network := .events fds }
        | _ => none
      else if io = .none then some { s with network := .recv fd fds }
      else none
  | .recv fd fds, .received bytes ts =>
      match bytes with
      | none => some { s with network := .events fds }
      | some [] => some { s with registered := s.registered.erase fd, network := .events fds }
      | some bytes => if bytes.length ≤ 1024 then some (receive v fd fds bytes ts s) else none
  | .push fd fds msg, .none =>
      match v.queue.push msg s.queue with
      | some queue => some { s with queue := queue, network := .recv fd fds }
      | none => some s
  | _, _ => none

/-- `now` is what `now_ns` returns in the accounting. -/
def consumerStep (now : Int64) (s : State M Q) : Option (State M Q) :=
  match s.consumer with
  | .loop => some { s with consumer := if s.running then .pop else .returned }
  | .pop =>
      match v.queue.pop s.queue with
      | none => some { s with consumer := .loop }
      | some (msg, queue) => some { s with queue := queue, consumer := .account msg }
  | .account msg =>
      let latency := now - (v.memory.read s.memory msg).word.ns bits
      some { s with
        totalNs := s.totalNs + latency
        count := s.count + 1
        maxNs := if s.maxNs < latency then latency else s.maxNs
        consumer := .free msg
        handled := s.handled ++ [v.memory.read s.memory msg] }
  | .free msg =>
      (v.memory.free msg s.memory).map fun memory => { s with memory := memory, consumer := .loop }
  | .returned => none

def step : V1.Action → State M Q → Option (State M Q)
  | .network io, s => networkStep v io s
  | .consumer now, s => consumerStep bits v now s
  | .stop, s => some { s with running := false }

end

/-- The payload that a call of `recv` delivers, with the time at which it does. -/
def receivedBy : V1.Action → State M Q → List (Int64 × List UInt8)
  | .network (.received (some (b :: bytes)) ts), _ => [(ts, b :: bytes)]
  | _, _ => []

/-! ## Where the messages are -/

/-- The message that the consumer has still to look at. -/
def unread : V1.Consumer → List ℕ
  | .account msg => [msg]
  | _ => []

/-- The messages in use. -/
def State.inUse (v : Variant M Q) (s : State M Q) : List ℕ :=
  v.queue.contents s.queue ++ s.network.hand ++ s.consumer.hand

/-- The messages under way, the oldest first. -/
def State.underWay (v : Variant M Q) (s : State M Q) : List ℕ :=
  unread s.consumer ++ v.queue.contents s.queue ++ s.network.hand

/-- The messages that are made of payloads, with consecutive numbers. -/
def messages (payloads : List (Int64 × List UInt8)) : List Block :=
  payloads.zipIdx.map fun p => .message p.1.1 (UInt32.ofNat p.2) p.1.2

structure Inv (v : Variant M Q) (s : State M Q) : Prop where
  uses : v.memory.Uses s.memory (s.inUse v)
  seq : s.seq = UInt32.ofNat s.payloads.length
  order : s.handled ++ (s.underWay v).map (v.memory.read s.memory) = messages s.payloads

section
variable {bits : Bits} {v : Variant M Q} {s s' : State M Q} {a : V1.Action}

theorem messages_concat (payloads : List (Int64 × List UInt8)) (p : Int64 × List UInt8) :
    messages (payloads ++ [p]) =
      messages payloads ++ [.message p.1 (UInt32.ofNat payloads.length) p.2] := by
  rw [messages, List.zipIdx_append, List.map_append]
  simp [messages]

theorem length_hand_le (c : V1.Consumer) : c.hand.length ≤ 1 := by
  cases c <;> simp [V1.Consumer.hand]

theorem unread_subset (c : V1.Consumer) : unread c ⊆ c.hand := by
  cases c <;> simp [unread, V1.Consumer.hand]

theorem underWay_subset : s.underWay v ⊆ s.inUse v := by
  intro x hx
  simp only [State.underWay, State.inUse, List.mem_append] at hx ⊢
  have hsub := @unread_subset s.consumer x
  tauto

theorem init_inv {memory : M} {queue : Q} (huses : v.memory.Uses memory [])
    (hempty : v.queue.contents queue = []) (listenFd : V1.Fd) :
    Inv v (init memory queue listenFd) where
  uses := by
    have hnone : (init memory queue listenFd).inUse v = [] := by
      simp [State.inUse, init, hempty, V1.Network.hand, V1.Consumer.hand]
    rw [hnone]
    exact huses
  seq := rfl
  order := by simp [State.underWay, init, hempty, unread, V1.Network.hand, messages]

/-- **What a payload does**: there is a message for it, and what is under way stays as it is. -/
theorem Inv.receive (h : Inv v s) (fd : V1.Fd) (fds : List V1.Fd) (bytes : List UInt8) (ts : Int64)
    (hhand : s.network.hand = []) : Inv v (receive v fd fds bytes ts s) := by
  obtain ⟨huses, hseq, horder⟩ := h
  have hbefore : s.inUse v = v.queue.contents s.queue ++ s.consumer.hand := by
    rw [State.inUse, hhand, List.append_nil]
  have hlen : (s.inUse v).length ≤ v.queue.room + 1 := by
    rw [hbefore, List.length_append]
    exact Nat.add_le_add (v.queue.length_le s.queue) (length_hand_le s.consumer)
  have hroom := v.memory.alloc_isSome huses (v.enough _ hlen)
  obtain ⟨⟨msg, memory⟩, halloc⟩ := Option.isSome_iff_exists.mp hroom
  obtain ⟨huses', hread⟩ := v.memory.alloc_some huses halloc
  have hnew : msg ∉ s.inUse v := (List.nodup_cons.mp (v.memory.nodup huses')).1
  rw [Variants.receive, halloc]
  constructor
  case uses =>
      have hperm : (msg :: s.inUse v).Perm
          (v.queue.contents s.queue ++ [msg] ++ s.consumer.hand) := by
        rw [hbefore, List.append_assoc]
        exact List.perm_middle.symm
      refine v.memory.uses_write _ (v.memory.uses_perm hperm huses') ?_
      simp [State.inUse, V1.Network.hand]
  case seq =>
      simp only [List.length_append, List.length_singleton]
      rw [hseq, UInt32.ofNat_add]
      rfl
  case order =>
      have hunderWay : s.underWay v = unread s.consumer ++ v.queue.contents s.queue := by
        rw [State.underWay, hhand, List.append_nil]
      have hsame : ∀ x ∈ s.underWay v,
          v.memory.read (v.memory.write msg (.message ts s.seq bytes) memory) x =
            v.memory.read s.memory x := by
        intro x hx
        have hne : x ≠ msg := by
          rintro rfl
          exact hnew (underWay_subset hx)
        rw [v.memory.read_write_of_ne _ hne, hread]
      rw [messages_concat, ← horder, ← List.map_congr_left hsame, ← hseq, List.append_assoc,
        hunderWay]
      simp only [State.underWay, V1.Network.hand, List.map_append, List.map_cons, List.map_nil,
        v.memory.read_write]

theorem network_cases {io : V1.Io} (hstep : networkStep v io s = some s') :
    (s.network.hand = [] ∧ ∃ fd fds b bytes ts, io = .received (some (b :: bytes)) ts ∧
      s' = Variants.receive v fd fds (b :: bytes) ts s) ∨
    (receivedBy (.network io) s = [] ∧ s'.memory = s.memory ∧ s'.consumer = s.consumer ∧
      s'.seq = s.seq ∧ s'.payloads = s.payloads ∧ s'.handled = s.handled ∧
      v.queue.contents s'.queue ++ s'.network.hand =
        v.queue.contents s.queue ++ s.network.hand) := by
  cases hn : s.network with
  | loop =>
      cases io with
      | none =>
          simp only [networkStep, hn, Option.some.injEq] at hstep
          subst hstep
          refine .inr ⟨rfl, rfl, rfl, rfl, rfl, rfl, ?_⟩
          cases s.running <;> rfl
      | _ => simp [networkStep, hn] at hstep
  | wait =>
      cases io with
      | ready fds =>
          simp only [networkStep, hn] at hstep
          split at hstep <;> cases hstep
          exact .inr ⟨rfl, rfl, rfl, rfl, rfl, rfl, rfl⟩
      | _ => simp [networkStep, hn] at hstep
  | events fds =>
      right
      cases fds with
      | nil =>
          cases io with
          | none =>
              simp only [networkStep, hn, Option.some.injEq] at hstep
              subst hstep
              exact ⟨rfl, rfl, rfl, rfl, rfl, rfl, rfl⟩
          | _ => simp [networkStep, hn] at hstep
      | cons fd fds =>
          simp only [networkStep, hn] at hstep
          split at hstep
          · split at hstep
            · cases hstep
              exact ⟨rfl, rfl, rfl, rfl, rfl, rfl, rfl⟩
            · split at hstep <;> cases hstep
              exact ⟨rfl, rfl, rfl, rfl, rfl, rfl, rfl⟩
            · cases hstep
          · split at hstep
            · next hio =>
                subst hio
                cases hstep
                exact ⟨rfl, rfl, rfl, rfl, rfl, rfl, rfl⟩
            · cases hstep
  | recv fd fds =>
      cases io with
      | received bytes ts =>
          rcases bytes with _ | _ | ⟨b, bytes⟩
          · simp only [networkStep, hn] at hstep
            cases hstep
            exact .inr ⟨rfl, rfl, rfl, rfl, rfl, rfl, rfl⟩
          · simp only [networkStep, hn] at hstep
            cases hstep
            exact .inr ⟨rfl, rfl, rfl, rfl, rfl, rfl, rfl⟩
          · simp only [networkStep, hn] at hstep
            split at hstep <;> cases hstep
            exact .inl ⟨rfl, fd, fds, b, bytes, ts, rfl, rfl⟩
      | _ => simp [networkStep, hn] at hstep
  | push fd fds msg =>
      cases io with
      | none =>
          right
          simp only [networkStep, hn] at hstep
          split at hstep
          · next queue hpush =>
              cases hstep
              refine ⟨rfl, rfl, rfl, rfl, rfl, rfl, ?_⟩
              rw [v.queue.push_some hpush]
              exact List.append_nil _
          · cases hstep
            exact ⟨rfl, rfl, rfl, rfl, rfl, rfl, by rw [hn]⟩
      | _ => simp [networkStep, hn] at hstep
  | returned => simp [networkStep, hn] at hstep

theorem Inv.networkStep {io : V1.Io} (h : Inv v s) (hstep : networkStep v io s = some s') :
    Inv v s' := by
  rcases network_cases hstep with
    ⟨hhand, fd, fds, b, bytes, ts, -, rfl⟩ | ⟨-, hm, hc, hs, hp, hh, hsame⟩
  · exact h.receive fd fds (b :: bytes) ts hhand
  · have hinUse : s'.inUse v = s.inUse v := by
      rw [State.inUse, hsame, hc, State.inUse]
    have hunderWay : s'.underWay v = s.underWay v := by
      rw [State.underWay, List.append_assoc, hsame, hc, State.underWay, List.append_assoc]
    exact ⟨by rw [hm, hinUse]; exact h.uses, by rw [hs, hp]; exact h.seq,
      by rw [hh, hunderWay, hm, hp]; exact h.order⟩

/-- `free` is only asked to free a message in use. -/
theorem Inv.free_some {msg : ℕ} (h : Inv v s) (hc : s.consumer = .free msg) :
    ∃ m', v.memory.free msg s.memory = some m' ∧
      v.memory.Uses m' (v.queue.contents s.queue ++ s.network.hand) ∧
      ∀ x ∈ v.queue.contents s.queue ++ s.network.hand,
        v.memory.read m' x = v.memory.read s.memory x := by
  have huses := h.uses
  rw [State.inUse, hc] at huses
  exact v.memory.free_some (v.memory.uses_perm (List.perm_append_singleton ..) huses)

theorem Inv.consumerStep {now : Int64} (h : Inv v s) (hstep : consumerStep bits v now s = some s') :
    Inv v s' := by
  have hfree (msg : ℕ) (hc : s.consumer = .free msg) := h.free_some hc
  obtain ⟨huses, hseq, horder⟩ := h
  rw [State.inUse] at huses
  rw [State.underWay] at horder
  cases hc : s.consumer with
  | loop =>
      simp only [Variants.consumerStep, hc, Option.some.injEq] at hstep
      subst hstep
      rw [hc] at huses horder
      refine ⟨?_, hseq, ?_⟩
      · simp only [State.inUse]
        cases s.running <;> exact huses
      · simp only [State.underWay]
        cases s.running <;> exact horder
  | pop =>
      simp only [Variants.consumerStep, hc] at hstep
      rw [hc] at huses horder
      split at hstep
      · cases hstep
        exact ⟨huses, hseq, horder⟩
      · next msg queue hpop =>
          cases hstep
          rw [v.queue.pop_some hpop] at huses horder
          refine ⟨v.memory.uses_perm ?_ huses, hseq, horder⟩
          exact perm_popped.symm
  | account msg =>
      simp only [Variants.consumerStep, hc, Option.some.injEq] at hstep
      subst hstep
      rw [hc] at huses horder
      refine ⟨huses, hseq, ?_⟩
      simp only [State.underWay, unread, List.nil_append, List.append_assoc, List.singleton_append]
        at horder ⊢
      exact horder
  | free msg =>
      obtain ⟨memory, hmemory, huses', hread⟩ := hfree msg hc
      simp only [Variants.consumerStep, hc, hmemory, Option.map_some, Option.some.injEq] at hstep
      subst hstep
      refine ⟨?_, hseq, ?_⟩
      · simp only [State.inUse, V1.Consumer.hand, List.append_nil]
        exact huses'
      · rw [hc] at horder
        simp only [State.underWay, unread, List.nil_append] at horder ⊢
        rw [List.map_congr_left hread]
        exact horder
  | returned => simp [Variants.consumerStep, hc] at hstep

theorem Inv.step (h : Inv v s) (hstep : step bits v a s = some s') : Inv v s' := by
  cases a with
  | network io => exact h.networkStep hstep
  | consumer now => exact h.consumerStep hstep
  | stop =>
      cases hstep
      exact ⟨h.uses, h.seq, h.order⟩

/-! ## What the calls say -/

theorem payloads_receive (fd : V1.Fd) (fds : List V1.Fd) (bytes : List UInt8) (ts : Int64) :
    (receive v fd fds bytes ts s).payloads = s.payloads ++ [(ts, bytes)] := by
  rw [receive]
  split <;> rfl

theorem consumer_frame {now : Int64} (hstep : consumerStep bits v now s = some s') :
    s'.payloads = s.payloads ∧ s'.running = s.running := by
  rw [consumerStep] at hstep
  split at hstep
  next =>
    cases hstep
    exact ⟨rfl, rfl⟩
  next =>
    split at hstep
    next =>
      cases hstep
      exact ⟨rfl, rfl⟩
    next =>
      cases hstep
      exact ⟨rfl, rfl⟩
  next =>
    cases hstep
    exact ⟨rfl, rfl⟩
  next =>
    obtain ⟨memory, -, rfl⟩ := Option.map_eq_some_iff.mp hstep
    exact ⟨rfl, rfl⟩
  next => cases hstep

theorem payloads_step (hstep : step bits v a s = some s') :
    s'.payloads = s.payloads ++ receivedBy a s := by
  cases a with
  | network io =>
      rcases network_cases hstep with ⟨-, fd, fds, b, bytes, ts, rfl, rfl⟩ | ⟨hnone, -, -, -, hp, -⟩
      · exact payloads_receive fd fds (b :: bytes) ts
      · rw [hnone, hp, List.append_nil]
  | consumer now => exact (consumer_frame hstep).1.trans (List.append_nil _).symm
  | stop =>
      cases hstep
      exact (List.append_nil _).symm

theorem receives {fd : V1.Fd} {fds : List V1.Fd} {bytes : List UInt8} (hn : s.network = .recv fd fds)
    (hlength : bytes.length ≤ 1024) (ts : Int64) :
    (step bits v (.network (.received (some bytes) ts)) s).isSome := by
  cases bytes with
  | nil =>
      simp only [step, networkStep, hn]
      rfl
  | cons b bytes =>
      simp only [step, networkStep, hn, if_pos hlength]
      rfl

/-! ## The consumer catches up -/

/-- A step of the consumer. -/
def Consumes : V1.Action → Prop
  | .consumer _ => True
  | .network _ | .stop => False

/-- The consumer has found all messages, but for one that is not in the queue yet. -/
def CaughtUp (v : Variant M Q) (payloads : List (Int64 × List UInt8)) (s : State M Q) : Prop :=
  s.handled ++ s.network.hand.map (v.memory.read s.memory) = messages payloads

/-- The consumer at work, with so much received. -/
structure AtWork (v : Variant M Q) (payloads : List (Int64 × List UInt8)) (s : State M Q) : Prop where
  inv : Inv v s
  running : s.running = true
  stays : s.consumer ≠ .returned
  payloads : s.payloads = payloads

/-- How far the consumer is from its next pop. -/
def steps : V1.Consumer → ℕ
  | .account _ => 3
  | .free _ => 2
  | .loop => 1
  | .pop | .returned => 0

def State.left (v : Variant M Q) (s : State M Q) : ℕ :=
  4 * (v.queue.contents s.queue).length + steps s.consumer

variable {payloads : List (Int64 × List UInt8)}

theorem AtWork.caughtUp (h : AtWork v payloads s) (hunread : unread s.consumer = [])
    (hempty : v.queue.contents s.queue = []) : CaughtUp v payloads s := by
  have horder := h.inv.order
  rwa [State.underWay, hunread, hempty, h.payloads] at horder

theorem AtWork.goes_on (h : AtWork v payloads s) (hnot : ¬ CaughtUp v payloads s) (now : Int64) :
    ∃ s', consumerStep bits v now s = some s' ∧ s'.consumer ≠ .returned ∧ s'.left v < s.left v := by
  have hstays := h.stays
  rw [State.left]
  cases hc : s.consumer with
  | loop =>
      refine ⟨{ s with consumer := .pop }, ?_, V1.Consumer.noConfusion, ?_⟩
      · simp only [consumerStep, hc, h.running]
        rfl
      · exact Nat.lt_succ_self _
  | pop =>
      cases hpop : v.queue.pop s.queue with
      | none =>
          refine absurd (h.caughtUp ?_ (v.queue.pop_none hpop)) hnot
          rw [hc]
          rfl
      | some popped =>
          obtain ⟨msg, queue⟩ := popped
          refine ⟨{ s with queue := queue, consumer := .account msg }, ?_, V1.Consumer.noConfusion, ?_⟩
          · simp only [consumerStep, hc, hpop]
          · rw [v.queue.pop_some hpop, List.length_cons]
            show 4 * (v.queue.contents queue).length + 3 < 4 * ((v.queue.contents queue).length + 1) + 0
            omega
  | account msg =>
      rw [consumerStep, hc]
      exact ⟨_, rfl, V1.Consumer.noConfusion, Nat.lt_succ_self _⟩
  | free msg =>
      obtain ⟨memory, hmemory, -⟩ := h.inv.free_some hc
      refine ⟨{ s with memory := memory, consumer := .loop }, ?_, V1.Consumer.noConfusion, ?_⟩
      · simp only [consumerStep, hc, hmemory, Option.map_some]
      · exact Nat.lt_succ_self _
  | returned => exact absurd hc hstays

/-- **The consumer catches up**, by itself. -/
theorem AtWork.catchesUp (h : AtWork v payloads s) :
    CanFinishBy Consumes (step bits v) (CaughtUp v payloads) s := by
  have hprogress : Progress Consumes (step bits v) (AtWork v payloads) (CaughtUp v payloads)
      (State.left v) := by
    intro s h hnot
    obtain ⟨s', hstep, hstays, hless⟩ := @AtWork.goes_on M Q bits v s payloads h hnot 0
    obtain ⟨hpayloads, hrunning⟩ := consumer_frame hstep
    exact ⟨.consumer 0, s', trivial, hstep, ⟨h.inv.consumerStep hstep, hrunning.trans h.running,
      hstays, hpayloads.trans h.payloads⟩, hless⟩
  exact hprogress.canFinishBy h

end

/-! ## The three servers -/

/-- `MemoryPool<Message, POOL_SIZE>`; the blocks that are not in use are in the free list. -/
def pool (bits : Bits) : Memory MemoryPool where
  alloc := MemoryPool.alloc bits
  read p := p.storage
  write msg b p := { p with storage := Function.update p.storage msg b }
  free msg p := some (p.free msg)
  Uses p used := ∃ nodes, p.Free bits nodes ∧ (nodes ++ used).Perm (List.range V1.poolSize)
  HasRoom k := k < V1.poolSize
  uses_perm := by
    rintro p used used' hperm ⟨nodes, hfree, hall⟩
    exact ⟨nodes, hfree, (hperm.symm.append_left nodes).trans hall⟩
  alloc_isSome := by
    rintro p used ⟨nodes, hfree, hall⟩ hroom
    refine Option.isSome_iff_ne_none.mpr fun hnone => ?_
    obtain rfl := (MemoryPool.alloc_eq_none hfree).mp hnone
    exact absurd (hall.length_eq.trans List.length_range) hroom.ne
  alloc_some := by
    rintro p p' used msg ⟨nodes, hfree, hall⟩ halloc
    obtain ⟨hsame, rest, rfl, hrest⟩ := MemoryPool.alloc_eq_some hfree halloc
    exact ⟨⟨rest, hrest, List.perm_middle.trans hall⟩, fun x => by rw [hsame]⟩
  nodup := by
    rintro p used ⟨nodes, -, hall⟩
    exact (List.nodup_append.mp (hall.nodup_iff.mpr List.nodup_range)).2.1
  uses_write := by
    rintro p used msg b ⟨nodes, hfree, hall⟩ hmsg
    exact ⟨nodes, hfree.update (not_mem_of_perm hall hmsg) b, hall⟩
  read_write p msg b := Function.update_self ..
  read_write_of_ne := by
    intro p msg x b hne
    exact Function.update_of_ne hne ..
  free_some := by
    rintro p used msg ⟨nodes, hfree, hall⟩
    have hmsg : msg ∉ nodes := not_mem_of_perm hall List.mem_cons_self
    refine ⟨p.free msg, rfl, ⟨msg :: nodes, MemoryPool.free_free hfree hmsg, ?_⟩, ?_⟩
    · exact List.perm_middle.symm.trans hall
    · intro x hx
      have hne : x ≠ msg := by
        rintro rfl
        have hnodup := (List.nodup_append.mp (hall.nodup_iff.mpr List.nodup_range)).2.1
        exact (List.nodup_cons.mp hnodup).1 hx
      exact Function.update_of_ne hne ..

/-- What `new` returns the `n`th time is not in use. -/
structure Malloc where
  pick : ℕ → List ℕ → ℕ
  fresh : ∀ n live, pick n live ∉ live

/-- It may be the number behind all that are in use. -/
def Malloc.behind : Malloc where
  pick _ live := live.sum + 1
  fresh := by
    intro _ live hmem
    exact Nat.not_succ_le_self live.sum (List.le_sum_of_mem hmem)

/-- The heap, with the messages that were allocated and not deleted. -/
structure Heap where
  storage : ℕ → Block
  live : List ℕ := []
  allocated : ℕ := 0

/-- `new Message` and `delete`, of what `new` returned. -/
def heap (malloc : Malloc) : Memory Heap where
  alloc h :=
    let msg := malloc.pick h.allocated h.live
    some (msg, { h with live := msg :: h.live, allocated := h.allocated + 1 })
  read h := h.storage
  write msg b h := { h with storage := Function.update h.storage msg b }
  free msg h := if msg ∈ h.live then some { h with live := h.live.erase msg } else none
  Uses h used := h.live.Perm used ∧ h.live.Nodup
  HasRoom _ := True
  uses_perm := by
    rintro h used used' hperm ⟨hlive, hnodup⟩
    exact ⟨hlive.trans hperm, hnodup⟩
  alloc_isSome _ _ := rfl
  alloc_some := by
    rintro h h' used msg ⟨hlive, hnodup⟩ halloc
    cases halloc
    exact ⟨⟨hlive.cons _, List.nodup_cons.mpr ⟨malloc.fresh _ _, hnodup⟩⟩, fun _ => rfl⟩
  nodup := by
    rintro h used ⟨hlive, hnodup⟩
    exact hlive.nodup_iff.mp hnodup
  uses_write _ huses _ := huses
  read_write h msg b := Function.update_self ..
  read_write_of_ne := by
    intro h msg x b hne
    exact Function.update_of_ne hne ..
  free_some := by
    rintro h used msg ⟨hlive, hnodup⟩
    refine ⟨{ h with live := h.live.erase msg }, if_pos (hlive.symm.subset List.mem_cons_self),
      ⟨?_, hnodup.erase msg⟩, fun _ _ => rfl⟩
    have herase := hlive.erase msg
    rwa [List.erase_cons_head] at herase

/-- `SPSCQueue<Message, QUEUE_SIZE>` -/
def spscQueue : Queue (Ring ℕ (2 ^ V1.queueBits)) where
  push := SPSCQueue.push
  pop := SPSCQueue.pop
  contents := Ring.contents
  room := 2 ^ V1.queueBits - 1
  length_le q := Nat.le_sub_one_of_lt q.length_contents_lt
  push_some := SPSCQueue.push_eq_some
  pop_some := SPSCQueue.pop_eq_some
  pop_none := by
    intro q hpop
    rw [SPSCQueue.pop, Ring.maskedPop_eq] at hpop
    exact Ring.pop_eq_none.mp hpop

theorem spscQueue_empty (slots : Fin (2 ^ V1.queueBits) → ℕ) :
    spscQueue.contents (.empty slots) = [] := by
  rw [spscQueue]
  dsimp only
  rw [Ring.contents_empty]

/-- `MutexQueue::MaxSize` -/
def maxSize : ℕ := 512

/-- A `MutexQueue` never holds more. -/
abbrev MutexQueue := { items : List ℕ // items.length ≤ maxSize }

namespace MutexQueue

def push (item : ℕ) (q : MutexQueue) : Option MutexQueue :=
  if h : maxSize ≤ q.1.length then none
  else some ⟨q.1 ++ [item], by rw [List.length_append]; exact Nat.lt_of_not_le h⟩

def pop : MutexQueue → Option (ℕ × MutexQueue)
  | ⟨[], _⟩ => none
  | ⟨item :: items, h⟩ => some (item, ⟨items, (Nat.le_succ _).trans h⟩)

end MutexQueue

def mutexQueue : Queue MutexQueue where
  push := MutexQueue.push
  pop := MutexQueue.pop
  contents q := q.1
  room := maxSize
  length_le q := q.2
  push_some := by
    intro msg q q' hpush
    unfold MutexQueue.push at hpush
    split at hpush
    · cases hpush
    · cases hpush
      rfl
  pop_some := by
    rintro msg ⟨items, hle⟩ q' hpop
    cases items with
    | nil => cases hpop
    | cons item items =>
        cases hpop
        rfl
  pop_none := by
    rintro ⟨items, hle⟩ hpop
    cases items with
    | nil => rfl
    | cons item items => cases hpop

def v1 (bits : Bits) : Variant MemoryPool (Ring ℕ (2 ^ V1.queueBits)) where
  memory := pool bits
  queue := spscQueue
  enough _ hk := Nat.lt_of_le_of_lt hk (by decide)

def v2 (malloc : Malloc) : Variant Heap (Ring ℕ (2 ^ V1.queueBits)) where
  memory := heap malloc
  queue := spscQueue
  enough _ _ := trivial

def v3 (bits : Bits) : Variant MemoryPool MutexQueue where
  memory := pool bits
  queue := mutexQueue
  enough _ hk := Nat.lt_of_le_of_lt hk (by decide)

theorem uses_pool (bits : Bits) (storage : ℕ → Block) :
    (pool bits).Uses (.new V1.poolSize storage) [] := by
  have hpos : 0 < V1.poolSize := Nat.succ_pos 1023
  refine ⟨List.range V1.poolSize, MemoryPool.free_new hpos, ?_⟩
  rw [List.append_nil]

theorem uses_heap (malloc : Malloc) (storage : ℕ → Block) :
    (heap malloc).Uses { storage := storage } [] :=
  ⟨List.Perm.refl [], List.nodup_nil⟩

/-! ## What they have in common -/

/-- What was handled so far and what is under way are the payloads; every answer of `recv` is
taken; and as long as the server runs, the consumer gets through with what is in the queue. -/
structure Delivered (bits : Bits) (v : Variant M Q) (payloads : List (Int64 × List UInt8))
    (s : State M Q) : Prop where
  order : s.handled ++ (s.underWay v).map (v.memory.read s.memory) = messages payloads
  receives : ∀ fd fds bytes ts, s.network = .recv fd fds → bytes.length ≤ 1024 →
    (step bits v (.network (.received (some bytes) ts)) s).isSome
  catchesUp : s.running = true → s.consumer ≠ .returned →
    CanFinishBy Consumes (step bits v) (CaughtUp v payloads) s

/-- After the steps `as`, for the payloads that were received in them. -/
def Delivers (bits : Bits) (v : Variant M Q) (s₀ : State M Q) (as : List V1.Action) : Prop :=
  Delivered bits v (trace (step bits v) receivedBy as s₀) (schedule (step bits v) as s₀)

section
variable {bits : Bits} {v : Variant M Q} {memory : M} {queue : Q}

theorem reachable_inv (huses : v.memory.Uses memory []) (hempty : v.queue.contents queue = [])
    (listenFd : V1.Fd) (as : List V1.Action) :
    Inv v (schedule (step bits v) as (init memory queue listenFd)) :=
  schedule_rule (Inv v) (init_inv huses hempty listenFd) (fun _ _ _ => Inv.step) as

theorem payloads_eq_trace (memory : M) (queue : Q) (listenFd : V1.Fd) (as : List V1.Action) :
    (schedule (step bits v) as (init memory queue listenFd)).payloads =
      trace (step bits v) receivedBy as (init memory queue listenFd) :=
  record_eq_trace State.payloads receivedBy _ rfl (fun _ _ _ => payloads_step) as

theorem delivers (huses : v.memory.Uses memory []) (hempty : v.queue.contents queue = [])
    (listenFd : V1.Fd) (as : List V1.Action) : Delivers bits v (init memory queue listenFd) as := by
  have h := @reachable_inv M Q bits v memory queue huses hempty listenFd as
  rw [Delivers, ← payloads_eq_trace]
  exact ⟨h.order, fun _ _ _ ts hn hlength => receives hn hlength ts,
    fun hrunning hstays => AtWork.catchesUp ⟨h, hrunning, hstays, rfl⟩⟩

end

/-- **One message for each payload.**  In all three servers the consumer finds the messages in the
order in which `recv` delivered their payloads, numbered, each once and as it was written; and as
long as the server runs it catches up. -/
theorem servers_deliver (bits : Bits) (malloc : Malloc) (storage : ℕ → Block)
    (slots : Fin (2 ^ V1.queueBits) → ℕ) (listenFd : V1.Fd) (as : List V1.Action) :
    Delivers bits (v1 bits) (init (.new V1.poolSize storage) (.empty slots) listenFd) as ∧
    Delivers bits (v2 malloc) (init { storage := storage } (.empty slots) listenFd) as ∧
    Delivers bits (v3 bits) (init (.new V1.poolSize storage) ⟨[], Nat.zero_le _⟩ listenFd) as := by
  have hempty := spscQueue_empty slots
  refine ⟨?_, ?_, ?_⟩
  · exact @delivers _ _ bits (v1 bits) _ _ (uses_pool bits storage) hempty listenFd as
  · exact @delivers _ _ bits (v2 malloc) _ _ (uses_heap malloc storage) hempty listenFd as
  · exact @delivers _ _ bits (v3 bits) _ _ (uses_pool bits storage) rfl listenFd as

/-- A client connects and sends twice; the consumer handles the first message. -/
def sendsTwice : List V1.Action :=
  [.network .none, .network (.ready [3]), .network (.accepted (some 4)), .network .none,
    .network .none, .network (.ready [4]), .network .none,
    .network (.received (some [1, 2]) 10), .network .none, .network (.received (some [5]) 20),
    .network .none, .consumer 0, .consumer 0, .consumer 15, .consumer 0]

/-- A machine on which no time reads as an address. -/
def bits₀ : Bits where
  asLink _ := none
  asNs _ := 0

/-- Storage that holds nothing yet. -/
def storage₀ (_ : ℕ) : Block := .message 0 0 []

/-- v2 when it starts. -/
def server₀ : State Heap (Ring ℕ (2 ^ V1.queueBits)) :=
  init { storage := storage₀ } (.empty fun _ => 0) 3

theorem servers_deliver_sendsTwice :
    Delivers bits₀ (v2 .behind) server₀ sendsTwice ∧
      trace (step bits₀ (v2 .behind)) receivedBy sendsTwice server₀ = [(10, [1, 2]), (20, [5])] ∧
      (schedule (step bits₀ (v2 .behind)) sendsTwice server₀).handled = [.message 10 0 [1, 2]] := by
  refine ⟨(servers_deliver bits₀ .behind storage₀ (fun _ => 0) 3 sendsTwice).2.1, ?_, ?_⟩
  · decide +kernel
  · decide +kernel

/-- **What v2 keeps on the heap.**  `delete` gets only what `new` returned, and that once; there are
at most 513 messages at a time; and when both threads have returned, what is left there are the
payloads that were received and not handled. -/
theorem v2_deletes_once (bits : Bits) (malloc : Malloc) (storage : ℕ → Block)
    (slots : Fin (2 ^ V1.queueBits) → ℕ) (listenFd : V1.Fd) (as : List V1.Action) :
    let s₀ : State Heap (Ring ℕ (2 ^ V1.queueBits)) :=
      init { storage := storage } (.empty slots) listenFd
    let s := schedule (step bits (v2 malloc)) as s₀
    s.memory.live.Perm (s.inUse (v2 malloc)) ∧ s.memory.live.length ≤ 513 ∧
      (∀ msg, s.consumer = .free msg → msg ∈ s.memory.live ∧
        ∀ now, (step bits (v2 malloc) (.consumer now) s).isSome) ∧
      (s.network = .returned → s.consumer = .returned → ∃ left,
        s.memory.live.Perm left ∧ s.handled ++ left.map s.memory.storage =
          messages (trace (step bits (v2 malloc)) receivedBy as s₀)) := by
  intro s₀ s
  have hempty := spscQueue_empty slots
  have h : Inv (v2 malloc) s :=
    reachable_inv (v := v2 malloc) (uses_heap malloc storage) hempty listenFd as
  obtain ⟨hlive, -⟩ : s.memory.live.Perm (s.inUse (v2 malloc)) ∧ s.memory.live.Nodup := h.uses
  refine ⟨hlive, ?_, ?_, ?_⟩
  · have hqueue := (v2 malloc).queue.length_le s.queue
    have hnetwork := s.network.length_hand_le
    have hconsumer := length_hand_le s.consumer
    have hroom : (v2 malloc).queue.room = 511 := rfl
    rw [hlive.length_eq, State.inUse, List.length_append, List.length_append]
    omega
  · intro msg hc
    refine ⟨hlive.symm.subset ?_, fun now => ?_⟩
    · simp [State.inUse, hc, V1.Consumer.hand]
    · obtain ⟨memory, hfree, -⟩ := h.free_some hc
      simp only [step, consumerStep, hc, hfree]
      rfl
  · intro hn hc
    refine ⟨(v2 malloc).queue.contents s.queue, ?_, ?_⟩
    · rw [State.inUse, hn, hc] at hlive
      simpa only [V1.Network.hand, V1.Consumer.hand, List.append_nil] using hlive
    · have horder := h.order
      rw [State.underWay, hn, hc, payloads_eq_trace] at horder
      exact (congrArg (s.handled ++ List.map s.memory.storage ·) (List.append_nil _)).symm.trans horder

/-- The same client, and then both threads are stopped: the second message stays on the heap. -/
def leavesOne : List V1.Action :=
  sendsTwice ++ [.stop, .network (.received none 0), .network .none, .network .none, .consumer 0]

/-- v2 when both threads have returned. -/
def stopped : State Heap (Ring ℕ (2 ^ V1.queueBits)) :=
  schedule (step bits₀ (v2 .behind)) leavesOne server₀

theorem v2_deletes_once_leavesOne : stopped.memory.live = [2] ∧
    ∃ left, stopped.memory.live.Perm left ∧ stopped.handled ++ left.map stopped.memory.storage =
      messages (trace (step bits₀ (v2 .behind)) receivedBy leavesOne server₀) := by
  have hlive : stopped.memory.live = [2] := by decide +kernel
  have hnetwork : stopped.network = .returned := by decide +kernel
  have hconsumer : stopped.consumer = .returned := by decide +kernel
  have hall := v2_deletes_once bits₀ .behind storage₀ (fun _ => 0) 3 leavesOne
  exact ⟨hlive, hall.2.2.2 hnetwork hconsumer⟩

/-! ## v1 is the server of `V1` -/

/-- What `V1` keeps of a state. -/
def State.toV1 (s : State MemoryPool (Ring ℕ (2 ^ V1.queueBits))) : V1.State where
  pool := s.memory
  queue := s.queue
  running := s.running
  totalNs := s.totalNs
  count := s.count
  maxNs := s.maxNs
  listenFd := s.listenFd
  registered := s.registered
  seq := s.seq
  network := s.network
  consumer := s.consumer
  received := s.payloads.length

section
variable (bits : Bits) (s : State MemoryPool (Ring ℕ (2 ^ V1.queueBits)))

theorem toV1_receive (fd : V1.Fd) (fds : List V1.Fd) (bytes : List UInt8) (ts : Int64) :
    (receive (v1 bits) fd fds bytes ts s).toV1 = V1.receive bits fd fds bytes ts s.toV1 := by
  have halloc : (v1 bits).memory.alloc s.memory = s.memory.alloc bits := rfl
  have hpool : s.toV1.pool = s.memory := rfl
  rw [receive, V1.receive, halloc, hpool]
  cases s.memory.alloc bits with
  | none => simp [State.toV1]
  | some p =>
      simp only [State.toV1, List.length_append, List.length_singleton]
      rfl

theorem toV1_networkStep (io : V1.Io) :
    (networkStep (v1 bits) io s).map State.toV1 = V1.networkStep bits io s.toV1 := by
  have hn : s.toV1.network = s.network := rfl
  unfold networkStep V1.networkStep
  rw [hn]
  cases s.network with
  | loop => cases io <;> rfl
  | wait =>
      cases io with
      | ready fds =>
          simp only
          split
          · next h => exact (if_pos h).symm
          · next h => exact (if_neg h).symm
      | _ => rfl
  | events fds =>
      cases fds with
      | nil => cases io <;> rfl
      | cons fd fds =>
          have hlisten : s.toV1.listenFd = s.listenFd := rfl
          have hregistered : s.toV1.registered = s.registered := rfl
          simp only [hlisten, hregistered]
          by_cases hfd : fd = s.listenFd
          · rw [if_pos hfd, if_pos hfd]
            cases io with
            | accepted conn =>
                cases conn with
                | none => rfl
                | some conn =>
                    by_cases hmem : conn ∈ s.registered
                    · simp only [if_pos hmem]
                      rfl
                    · simp only [if_neg hmem]
                      rfl
            | _ => rfl
          · rw [if_neg hfd, if_neg hfd]
            by_cases hio : io = .none
            · rw [if_pos hio, if_pos hio]
              rfl
            · rw [if_neg hio, if_neg hio]
              rfl
  | recv fd fds =>
      cases io with
      | received bytes ts =>
          rcases bytes with _ | _ | ⟨b, bytes⟩
          · rfl
          · rfl
          · simp only
            split
            · exact congrArg some (toV1_receive bits s fd fds _ ts)
            · rfl
      | _ => rfl
  | push fd fds msg =>
      cases io with
      | none =>
          have hpush : (v1 bits).queue.push msg s.queue = SPSCQueue.push msg s.queue := rfl
          have hqueue : s.toV1.queue = s.queue := rfl
          simp only [hpush, hqueue]
          cases SPSCQueue.push msg s.queue <;> rfl
      | _ => rfl
  | returned => cases io <;> rfl

theorem toV1_consumerStep (now : Int64) :
    (consumerStep bits (v1 bits) now s).map State.toV1 = V1.consumerStep bits now s.toV1 := by
  have hc : s.toV1.consumer = s.consumer := rfl
  unfold consumerStep V1.consumerStep
  rw [hc]
  cases s.consumer with
  | pop =>
      have hpop : (v1 bits).queue.pop s.queue = SPSCQueue.pop s.queue := rfl
      have hqueue : s.toV1.queue = s.queue := rfl
      simp only [hpop, hqueue]
      cases SPSCQueue.pop s.queue <;> rfl
  | _ => rfl

/-- The steps are those of `V1`. -/
theorem toV1_step (a : V1.Action) :
    (step bits (v1 bits) a s).map State.toV1 = V1.step bits a s.toV1 := by
  cases a with
  | network io => exact toV1_networkStep bits s io
  | consumer now => exact toV1_consumerStep bits s now
  | stop => rfl

theorem toV1_schedule (as : List V1.Action) :
    (schedule (step bits (v1 bits)) as s).toV1 = schedule (V1.step bits) as s.toV1 :=
  schedule_map State.toV1 (fun a s => toV1_step bits s a) as s

end

end LearnCpp.Latency.Variants
