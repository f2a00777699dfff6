/-
# `LearnCpp.Io.EchoServer` — an echo that does not look at what `send` took

`topics/io/tcp_echo_server_nonblocking.cpp`: one thread accepts, then sweeps over
its clients; it sends back what `recv` put into its buffer, and goes on to the
next client.  The sockets do not block, so what `accept`, `recv` and `send`
answer comes with the action, and `send` may take any part of the bytes from the
front on, or none.

The buffer is one for all, and what `send` did not take is gone with the next
`recv`.  Bytes are told apart by their place in what their client has sent:

    echoed c   <+:   received c,  each byte with its place

and this holds as long as nothing is taken for a client after it lost a byte.
-/
import LearnCpp.Lib.Schedule
import Mathlib.Logic.Function.Basic

namespace LearnCpp.Io.EchoServer

open Lib

/-- `sizeof(buf)`. -/
def bufSize : ℕ := 1024

/-- Where the thread is. -/
inductive Place where
  /-- at `accept` -/
  | accept
  /-- at the head of the inner loop -/
  | sweep (i : ℕ)
  /-- at `send`, with what `recv` put into `buf` -/
  | send (i : ℕ) (chunk : List UInt8)
  | finished
  deriving DecidableEq

inductive Accept where
  | client
  | wouldBlock
  | error
  deriving DecidableEq

inductive Recv where
  | data (chunk : List UInt8)
  /-- `recv` returned 0. -/
  | closed
  | wouldBlock
  | error
  deriving DecidableEq

/-- Clients are numbered as they are accepted, and `clients` has their numbers in
place of their sockets.  `received` and `echoed` are the bytes that came from each
client and those that `send` took, these with their places in `received`; `short`
marks the clients for which `send` has taken less than it was given. -/
structure State where
  place : Place := .accept
  clients : List ℕ := []
  accepted : ℕ := 0
  closed : List ℕ := []
  received : ℕ → List UInt8 := fun _ => []
  echoed : ℕ → List (UInt8 × ℕ) := fun _ => []
  short : ℕ → Bool := fun _ => false

inductive Action where
  | accept (answer : Accept)
  | recv (answer : Recv)
  /-- `send` takes `taken` bytes; 0 stands for an error too. -/
  | send (taken : ℕ)
  /-- The inner loop ends; `elapsed` says that the benchmark's time is over. -/
  | endSweep (elapsed : Bool)
  deriving DecidableEq

/-- The server breaks out of its loop and closes all clients. -/
def finish (s : State) : State :=
  { s with place := .finished, clients := [], closed := s.closed ++ s.clients }

/-- The body of the loop up to the sweep. -/
def accept (answer : Accept) (s : State) : State :=
  match answer with
  | .client =>
      { s with
        place := .sweep 0, clients := s.clients ++ [s.accepted], accepted := s.accepted + 1 }
  | .wouldBlock => { s with place := .sweep 0 }
  | .error => finish s

/-- `clients[i] = clients.back(); clients.pop_back();` -/
def removeAt (i : ℕ) (clients : List ℕ) : List ℕ :=
  match clients.getLast? with
  | some back => (clients.set i back).dropLast
  | none => clients

/-- The body of the inner loop up to `send`, for the client `c` at `i`. -/
def receive (i c : ℕ) (answer : Recv) (s : State) : Option State :=
  match answer with
  | .data chunk =>
      if chunk ≠ [] ∧ chunk.length ≤ bufSize then
        some { s with
          place := .send i chunk
          received := Function.update s.received c (s.received c ++ chunk) }
      else none
  | .wouldBlock => some { s with place := .sweep (i + 1) }
  | .closed | .error =>
      some { s with clients := removeAt i s.clients, closed := s.closed ++ [c] }

/-- `send` for the client `c` at `i`. -/
def sendBack (i c : ℕ) (chunk : List UInt8) (taken : ℕ) (s : State) : State :=
  let start := (s.received c).length - chunk.length
  { s with
    place := .sweep (i + 1)
    echoed := Function.update s.echoed c (s.echoed c ++ (chunk.zipIdx start).take taken)
    short := Function.update s.short c (s.short c || decide (taken < chunk.length)) }

def next : Action → State → Option State
  | .accept answer, s =>
      match s.place with
      | .accept => some (accept answer s)
      | _ => none
  | .recv answer, s =>
      match s.place with
      | .sweep i =>
          match s.clients[i]? with
          | some c => receive i c answer s
          | none => none
      | _ => none
  | .send taken, s =>
      match s.place with
      | .send i chunk =>
          match s.clients[i]? with
          | some c => if taken ≤ chunk.length then some (sendBack i c chunk taken s) else none
          | none => none
      | _ => none
  | .endSweep elapsed, s =>
      match s.place with
      | .sweep i =>
          if i < s.clients.length then none
          else if s.clients = [] ∧ elapsed = true then some (finish s)
          else some { s with place := .accept }
      | _ => none

def init : State := {}

/-- The bytes that `send` took are the first ones received, in order, and none twice. -/
def Echoes (s : State) : Prop := ∀ c, s.echoed c <+: (s.received c).zipIdx

/-- The bytes in the buffer, and the client they came from. -/
def State.hand (s : State) : Option (ℕ × List UInt8) :=
  match s.place with
  | .send i chunk => s.clients[i]?.map fun c => (c, chunk)
  | _ => none

/-- `send` takes nothing for a client for which it has taken too little before. -/
def TakesInOrder : Action → State → Prop
  | .send taken, s => taken = 0 ∨ ∀ c chunk, s.hand = some (c, chunk) → s.short c = false
  | _, _ => True

/-! ## What a step does -/

section
variable {s s' : State}

theorem takesInOrder_of_ne {a : Action} (ha : ∀ taken, a ≠ .send taken) : TakesInOrder a s := by
  cases a with
  | send taken => exact absurd rfl (ha taken)
  | accept answer => trivial
  | recv answer => trivial
  | endSweep elapsed => trivial

theorem hand_of_place (h : ∀ i chunk, s.place ≠ .send i chunk) : s.hand = none := by
  rw [State.hand]
  split
  next i chunk hplace => exact absurd hplace (h i chunk)
  next => rfl

/-- A step with no bytes in the buffer, and none after it. -/
structure Quiet (s s' : State) : Prop where
  before : s.hand = none
  after : s'.hand = none
  received : s'.received = s.received
  echoed : s'.echoed = s.echoed
  short : s'.short = s.short

/-- A chunk comes into the buffer. -/
def Receives (c : ℕ) (chunk : List UInt8) (s s' : State) : Prop :=
  s.hand = none ∧ s'.hand = some (c, chunk) ∧
    s'.received = Function.update s.received c (s.received c ++ chunk) ∧
    s'.echoed = s.echoed ∧ s'.short = s.short

theorem receive_cases {i c : ℕ} {answer : Recv} (hplace : s.place = .sweep i)
    (hc : s.clients[i]? = some c) (h : receive i c answer s = some s') :
    (∃ chunk, Receives c chunk s s') ∨ Quiet s s' := by
  have hnone : s.hand = none := hand_of_place fun j chunk => by
    rw [hplace]
    exact Place.noConfusion
  cases answer with
  | data chunk =>
      rw [receive] at h
      split at h
      next =>
        obtain rfl := Option.some.inj h
        refine Or.inl ⟨chunk, hnone, ?_, rfl, rfl, rfl⟩
        show s.clients[i]?.map (fun c => (c, chunk)) = some (c, chunk)
        rw [hc]
        rfl
      next => cases h
  | closed | wouldBlock | error =>
      obtain rfl := Option.some.inj h
      refine Or.inr ⟨hnone, hand_of_place fun j chunk => ?_, rfl, rfl, rfl⟩
      first
        | exact Place.noConfusion
        | (show s.place ≠ _
           rw [hplace]
           exact Place.noConfusion)

theorem exists_of_recv {answer : Recv} (h : next (.recv answer) s = some s') :
    ∃ i c, s.place = .sweep i ∧ s.clients[i]? = some c ∧ receive i c answer s = some s' := by
  rw [next] at h
  split at h
  next i hplace =>
    split at h
    next c hc => exact ⟨i, c, hplace, hc, h⟩
    next => cases h
  next => cases h

theorem exists_of_send {taken : ℕ} (h : next (.send taken) s = some s') :
    ∃ i c chunk, s.place = .send i chunk ∧ s.clients[i]? = some c ∧ taken ≤ chunk.length ∧
      s' = sendBack i c chunk taken s := by
  rw [next] at h
  split at h
  next i chunk hplace =>
    split at h
    next c hc =>
      split at h
      next hle => exact ⟨i, c, chunk, hplace, hc, hle, (Option.some.inj h).symm⟩
      next => cases h
    next => cases h
  next => cases h

theorem next_cases {a : Action} (h : next a s = some s') :
    ((∀ taken, a ≠ .send taken) ∧ ∃ c chunk, Receives c chunk s s') ∨
    (∃ i c chunk taken, a = .send taken ∧ s.hand = some (c, chunk) ∧ taken ≤ chunk.length ∧
      s' = sendBack i c chunk taken s) ∨
    ((∀ taken, a ≠ .send taken) ∧ Quiet s s') := by
  cases a with
  | accept answer =>
      refine Or.inr (Or.inr ⟨fun _ => Action.noConfusion, ?_⟩)
      rw [next] at h
      split at h
      next hplace =>
        obtain rfl := Option.some.inj h
        have hnone : s.hand = none := hand_of_place (by simp [hplace])
        cases answer with
        | client | wouldBlock => exact ⟨hnone, hand_of_place (by simp [accept]), rfl, rfl, rfl⟩
        | error => exact ⟨hnone, hand_of_place (by simp [accept, finish]), rfl, rfl, rfl⟩
      next => cases h
  | recv answer =>
      obtain ⟨i, c, hplace, hc, hreceive⟩ := exists_of_recv h
      rcases receive_cases hplace hc hreceive with hreceives | hquiet
      · exact Or.inl ⟨fun _ => Action.noConfusion, c, hreceives⟩
      · exact Or.inr (Or.inr ⟨fun _ => Action.noConfusion, hquiet⟩)
  | send taken =>
      obtain ⟨i, c, chunk, hplace, hc, hle, rfl⟩ := exists_of_send h
      refine Or.inr (Or.inl ⟨i, c, chunk, taken, rfl, ?_, hle, rfl⟩)
      rw [State.hand, hplace]
      show s.clients[i]?.map (fun c => (c, chunk)) = some (c, chunk)
      rw [hc]
      rfl
  | endSweep elapsed =>
      refine Or.inr (Or.inr ⟨fun _ => Action.noConfusion, ?_⟩)
      rw [next] at h
      split at h
      next i hplace =>
        have hnone : s.hand = none := hand_of_place (by simp [hplace])
        split at h
        next => cases h
        next =>
          split at h
          next =>
            obtain rfl := Option.some.inj h
            exact ⟨hnone, hand_of_place (by simp [finish]), rfl, rfl, rfl⟩
          next =>
            obtain rfl := Option.some.inj h
            exact ⟨hnone, hand_of_place (by simp), rfl, rfl, rfl⟩
      next => cases h

end

/-! ## Bytes with their places -/

section
variable {α : Type} {before chunk bs : List α} {l : List (α × ℕ)}

theorem prefix_zipIdx_append (h : l <+: (before ++ chunk).zipIdx) (hlen : l.length = before.length)
    (k : ℕ) : l ++ (chunk.zipIdx before.length).take k <+: (before ++ chunk).zipIdx := by
  rw [List.zipIdx_append, Nat.zero_add] at h ⊢
  have hall : l = before.zipIdx := by
    have htake := List.prefix_iff_eq_take.mp h
    rwa [hlen, List.take_left' List.length_zipIdx] at htake
  rw [hall]
  exact (List.prefix_append_right_inj _).mpr (List.take_prefix ..)

theorem not_prefix_zipIdx {start k : ℕ} (hlt : l.length < start) (hk : 0 < k) (hle : k ≤ chunk.length) :
    ¬ l ++ (chunk.zipIdx start).take k <+: bs.zipIdx := by
  intro hprefix
  have hpos : 0 < chunk.length := by omega
  have hget : (l ++ (chunk.zipIdx start).take k)[l.length]? = some (chunk[0], start) := by
    rw [List.getElem?_append_right (le_refl _), Nat.sub_self, List.getElem?_take_of_lt hk,
      List.getElem?_zipIdx, List.getElem?_eq_getElem hpos]
    rfl
  obtain ⟨rest, hrest⟩ := hprefix
  have hthere : bs.zipIdx[l.length]? = some (chunk[0], start) := by
    rw [← hrest, List.getElem?_append_left (List.getElem?_eq_some_iff.mp hget).1, hget]
  rw [List.getElem?_zipIdx] at hthere
  obtain ⟨b, -, heq⟩ := Option.map_eq_some_iff.mp hthere
  have hplace : 0 + l.length = start := congrArg Prod.snd heq
  omega

end

/-! ## The invariant -/

/-- How much of the buffer belongs to the client `c`. -/
def State.left (s : State) (c : ℕ) : ℕ :=
  match s.hand with
  | some (c', chunk) => if c' = c then chunk.length else 0
  | none => 0

/-- All bytes of a client have been echoed, up to those in the buffer, unless `send` has
taken too little for it. -/
structure Inv (s : State) : Prop where
  echoes : Echoes s
  whole : ∀ c, s.short c = false → (s.echoed c).length + s.left c = (s.received c).length
  behind : ∀ c, s.short c = true → (s.echoed c).length + s.left c < (s.received c).length
  inHand : ∀ c chunk, s.hand = some (c, chunk) → ∃ before, s.received c = before ++ chunk

section
variable {s s' : State}

theorem left_of_none (h : s.hand = none) (c : ℕ) : s.left c = 0 := by
  rw [State.left, h]

theorem left_of_some {c : ℕ} {chunk : List UInt8} (h : s.hand = some (c, chunk)) (c' : ℕ) :
    s.left c' = if c = c' then chunk.length else 0 := by
  rw [State.left, h]

theorem init_inv : Inv init where
  echoes := fun _ => List.nil_prefix
  whole := fun _ _ => rfl
  behind := fun _ h => by cases h
  inHand := fun _ _ h => by cases h

theorem Inv.quiet (h : Inv s) (hquiet : Quiet s s') : Inv s' := by
  have hleft : ∀ c, s'.left c = s.left c := fun c => by
    rw [left_of_none hquiet.before, left_of_none hquiet.after]
  refine ⟨?_, ?_, ?_, fun c chunk hhand => ?_⟩
  · rw [Echoes, hquiet.echoed, hquiet.received]
    exact h.echoes
  · intro c hc
    rw [hquiet.short] at hc
    rw [hleft, hquiet.echoed, hquiet.received]
    exact h.whole c hc
  · intro c hc
    rw [hquiet.short] at hc
    rw [hleft, hquiet.echoed, hquiet.received]
    exact h.behind c hc
  · rw [hquiet.after] at hhand
    cases hhand

theorem Inv.receives (h : Inv s) {c : ℕ} {chunk : List UInt8} (hreceives : Receives c chunk s s') :
    Inv s' := by
  obtain ⟨hnone, hsome, hreceived, hechoed, hshort⟩ := hreceives
  -- what comes into the buffer is what is received
  have hgrow : ∀ c', (s'.received c').length = (s.received c').length + s'.left c' := by
    intro c'
    rw [hreceived, left_of_some hsome]
    rcases eq_or_ne c c' with rfl | hne
    · rw [Function.update_self, if_pos rfl, List.length_append]
    · rw [Function.update_of_ne hne.symm, if_neg hne, Nat.add_zero]
  refine ⟨fun c' => ?_, fun c' hc' => ?_, fun c' hc' => ?_, fun c' chunk' hhand => ?_⟩
  · rw [hechoed, hreceived]
    rcases eq_or_ne c c' with rfl | hne
    · rw [Function.update_self, List.zipIdx_append]
      exact (h.echoes c).trans (List.prefix_append ..)
    · rw [Function.update_of_ne hne.symm]
      exact h.echoes c'
  · rw [hshort] at hc'
    have hwhole := h.whole c' hc'
    rw [left_of_none hnone] at hwhole
    rw [hechoed, hgrow]
    omega
  · rw [hshort] at hc'
    have hbehind := h.behind c' hc'
    rw [left_of_none hnone] at hbehind
    rw [hechoed, hgrow]
    omega
  · obtain ⟨rfl, rfl⟩ := Prod.mk.inj (Option.some.inj (hsome.symm.trans hhand))
    exact ⟨s.received c, by rw [hreceived, Function.update_self]⟩

section
variable {i c c' taken : ℕ} {chunk : List UInt8}

theorem sendBack_hand : (sendBack i c chunk taken s).hand = none :=
  hand_of_place fun _ _ => Place.noConfusion

theorem sendBack_echoed_of_ne (hne : c' ≠ c) :
    (sendBack i c chunk taken s).echoed c' = s.echoed c' :=
  Function.update_of_ne hne ..

theorem sendBack_short_of_ne (hne : c' ≠ c) :
    (sendBack i c chunk taken s).short c' = s.short c' :=
  Function.update_of_ne hne ..

theorem sendBack_echoed (i taken : ℕ) (h : Inv s) (hhand : s.hand = some (c, chunk)) :
    ∃ before, s.received c = before ++ chunk ∧ (sendBack i c chunk taken s).echoed c =
      s.echoed c ++ (chunk.zipIdx before.length).take taken := by
  obtain ⟨before, hbefore⟩ := h.inHand c chunk hhand
  refine ⟨before, hbefore, ?_⟩
  refine (Function.update_self ..).trans ?_
  rw [hbefore, List.length_append, Nat.add_sub_cancel]

theorem sendBack_short :
    (sendBack i c chunk taken s).short c = (s.short c || decide (taken < chunk.length)) :=
  Function.update_self ..

theorem Inv.sendBack (h : Inv s) (hhand : s.hand = some (c, chunk)) (hle : taken ≤ chunk.length)
    (hok : taken = 0 ∨ s.short c = false) : Inv (sendBack i c chunk taken s) := by
  obtain ⟨before, hbefore, hechoed⟩ := sendBack_echoed i taken h hhand
  have hleft : ∀ c', (EchoServer.sendBack i c chunk taken s).left c' = 0 := left_of_none sendBack_hand
  have hmine : s.left c = chunk.length := (left_of_some hhand c).trans (if_pos rfl)
  have hother : ∀ c', c' ≠ c → s.left c' = 0 :=
    fun c' hne => (left_of_some hhand c').trans (if_neg hne.symm)
  have hlen : ((EchoServer.sendBack i c chunk taken s).echoed c).length =
      (s.echoed c).length + taken := by
    rw [hechoed, List.length_append, List.length_take, List.length_zipIdx, Nat.min_eq_left hle]
  have hreceived : (s.received c).length = before.length + chunk.length := by
    rw [hbefore, List.length_append]
  refine ⟨fun c' => ?_, fun c' hc' => ?_, fun c' hc' => ?_, fun c' chunk' hnone => ?_⟩
  · show (EchoServer.sendBack i c chunk taken s).echoed c' <+: (s.received c').zipIdx
    rcases eq_or_ne c' c with rfl | hne
    · rcases hok with rfl | hshort
      · rw [hechoed, List.take_zero, List.append_nil]
        exact h.echoes c'
      · have hwhole := h.whole c' hshort
        rw [hechoed, hbefore]
        refine prefix_zipIdx_append ?_ (by omega) taken
        rw [← hbefore]
        exact h.echoes c'
    · rw [sendBack_echoed_of_ne hne]
      exact h.echoes c'
  · show _ = (s.received c').length
    rw [hleft]
    rcases eq_or_ne c' c with rfl | hne
    · rw [sendBack_short, Bool.or_eq_false_iff, decide_eq_false_iff_not] at hc'
      have hwhole := h.whole c' hc'.1
      omega
    · rw [sendBack_short_of_ne hne] at hc'
      have hwhole := h.whole c' hc'
      rw [hother c' hne] at hwhole
      rwa [sendBack_echoed_of_ne hne]
  · show _ < (s.received c').length
    rw [hleft]
    rcases eq_or_ne c' c with rfl | hne
    · rw [sendBack_short, Bool.or_eq_true, decide_eq_true_eq] at hc'
      cases hshort : s.short c' with
      | true =>
          have hbehind := h.behind c' hshort
          have hzero : taken = 0 := hok.resolve_right (by rw [hshort]; exact Bool.noConfusion)
          omega
      | false =>
          have hwhole := h.whole c' hshort
          rw [hshort] at hc'
          have hlt := hc'.resolve_left Bool.noConfusion
          omega
    · rw [sendBack_short_of_ne hne] at hc'
      have hbehind := h.behind c' hc'
      rw [hother c' hne] at hbehind
      rwa [sendBack_echoed_of_ne hne]
  · rw [sendBack_hand] at hnone
    cases hnone

theorem not_echoes_sendBack (h : Inv s) (hhand : s.hand = some (c, chunk)) (hle : taken ≤ chunk.length)
    (hpos : 0 < taken) (hshort : s.short c = true) : ¬ Echoes (EchoServer.sendBack i c chunk taken s) := by
  obtain ⟨before, hbefore, hechoed⟩ := sendBack_echoed i taken h hhand
  have hmine : s.left c = chunk.length := (left_of_some hhand c).trans (if_pos rfl)
  have hbehind := h.behind c hshort
  rw [hbefore, List.length_append, hmine] at hbehind
  intro hechoes
  have hprefix : (EchoServer.sendBack i c chunk taken s).echoed c <+: (s.received c).zipIdx := hechoes c
  rw [hechoed] at hprefix
  exact not_prefix_zipIdx (by omega) hpos hle hprefix

end

end

/-! ## What the echo is -/

/-- **The echo is what was received**, in order and without a gap, all along a schedule
just when `send` takes nothing for a client after it has taken too little for it. -/
theorem echoes_iff (as : List Action) :
    Always next init as Echoes ↔ EachStep next init as TakesInOrder := by
  refine always_iff Inv init_inv (fun s h => h.echoes) ?_ ?_
  · intro a s s' h hstep hok
    obtain ⟨-, c, chunk, hreceives⟩ | ⟨i, c, chunk, taken, rfl, hhand, hle, rfl⟩ | ⟨-, hquiet⟩ :=
      next_cases hstep
    · exact h.receives hreceives
    · exact h.sendBack hhand hle (hok.imp_right fun hshort => hshort c chunk hhand)
    · exact h.quiet hquiet
  · intro a s s' h hstep hnot
    obtain ⟨ha, -⟩ | ⟨i, c, chunk, taken, rfl, hhand, hle, rfl⟩ | ⟨ha, -⟩ := next_cases hstep
    · exact absurd (takesInOrder_of_ne ha) hnot
    · rw [TakesInOrder, not_or] at hnot
      refine not_echoes_sendBack h hhand hle (Nat.pos_of_ne_zero hnot.1) ?_
      by_contra hshort
      refine hnot.2 fun c' chunk' hhand' => ?_
      obtain ⟨rfl, -⟩ := Prod.mk.inj (Option.some.inj (hhand.symm.trans hhand'))
      exact Bool.not_eq_true _ ▸ hshort
    · exact absurd (takesInOrder_of_ne ha) hnot

/-- `send` takes one of two bytes, and then the byte that comes after them. -/
def shortWrite : List Action :=
  [.accept .client, .recv (.data [1, 2]), .send 1, .endSweep false,
    .accept .wouldBlock, .recv (.data [3]), .send 1]

/-- The client sent 1, 2, 3 and got 1, 3. -/
theorem short_write_not_prefix :
    ¬ ∀ as, Always next init as fun s => ∀ c, (s.echoed c).map Prod.fst <+: s.received c := by
  intro h
  have hprefix : [1, 3] <+: ([1, 2, 3] : List UInt8) := h shortWrite shortWrite (List.prefix_refl _) 0
  exact absurd hprefix (by decide)

end LearnCpp.Io.EchoServer
