/-
# `LearnCpp.Latency.V5` — the table of connections

`network_thread` of `extras/latency/v5_poll_pool_lockfree.cpp` keeps its sockets in
the array that it gives to `poll`, the listening one first.  One loop over the
array both appends the connections that it accepts and removes those at their end,
the last one coming to the place that is free; and a slot that was appended in a
pass is looked at in the same pass, with what its `revents` happen to be.

What `g_running`, `poll`, `accept4` and `recv` have comes with the action, and
nothing is asked of it but that `accept4` gives no descriptor that is still open.

    pfds[0 .. nfds-1]   =   the listening socket   ++   the clients that are open, once each

The payloads, and the memory pool and the queue that they go through, are as in
`LearnCpp.Latency.V1`.
-/
import LearnCpp.Lib.Descriptors
import LearnCpp.Lib.Schedule
import LearnCpp.Lib.SwapRemove

namespace LearnCpp.Latency.V5

open Lib

/-- `MAX_FDS` -/
def maxFds : ℕ := 64

/-- A slot of the array; of `events` and `revents` it has the bit `POLLIN`. -/
structure PollFd where
  fd : ℕ
  events : Bool
  revents : Bool
  deriving DecidableEq

/-- `pfds[j].fd = fd; pfds[j].events = POLLIN;` -/
def PollFd.watch (fd : ℕ) (slot : PollFd) : PollFd := { slot with fd := fd, events := true }

/-- Why a socket is closed. -/
inductive Cause where
  /-- `recv` returned 0. -/
  | endOfFile
  /-- The array is full. -/
  | tableFull
  | shutdown
  deriving DecidableEq

/-- Where `network_thread` is, with its local variables. -/
inductive Place where
  /-- at the test of `g_running` -/
  | running
  /-- at `poll` -/
  | poll
  /-- at the head of the inner loop -/
  | scan (i ret : ℕ)
  /-- at `accept4` -/
  | accept (i ret : ℕ)
  /-- at `recv` -/
  | recv (i ret fd : ℕ)
  /-- at the head of the loop that closes the clients -/
  | shutdown (i : ℕ)
  | returned
  deriving DecidableEq

inductive Recv where
  | data
  | endOfFile
  /-- There are no more data, or the connection is broken. -/
  | error
  deriving DecidableEq

/-- The descriptors are those of the process, and its first object is the listening socket. -/
structure State where
  place : Place := .running
  listenFd : ℕ
  pfds : ℕ → PollFd
  nfds : ℕ := 1
  kernel : Descriptors Cause

inductive Action where
  /-- `g_running` is loaded. -/
  | test (running : Bool)
  /-- `poll` returns `ret`, and reports the slots `ready` among the first `nfds`. -/
  | poll (ret : ℤ) (ready : List ℕ)
  /-- The inner loop looks at the next slot, or ends. -/
  | scan
  /-- `accept4` gives a descriptor, or fails. -/
  | accept (conn : Option ℕ)
  | recv (answer : Recv)
  /-- The next client is closed, or the listening socket. -/
  | close
  deriving DecidableEq

/-- The array before the first `poll`, in a memory that may have anything in it. -/
def init (listenFd : ℕ) (memory : ℕ → PollFd) : State where
  listenFd := listenFd
  pfds := Function.update memory 0 ((memory 0).watch listenFd)
  kernel := Descriptors.openAt listenFd {}

/-- `poll` writes to the `revents` of the first `nfds` slots. -/
def report (ready : List ℕ) (s : State) : ℕ → PollFd := fun j =>
  if j < s.nfds then { s.pfds j with revents := decide (j ∈ ready) } else s.pfds j

/-- The inner loop up to `accept4` or `recv`, for the slot `i`. -/
def scan (i ret : ℕ) (s : State) : State :=
  if i < s.nfds ∧ 0 < ret then
    if (s.pfds i).revents then
      if (s.pfds i).fd = s.listenFd then { s with place := .accept i (ret - 1) }
      else { s with place := .recv i (ret - 1) (s.pfds i).fd }
    else { s with place := .scan (i + 1) ret }
  else { s with place := .running }

/-- A connection gets the slot `nfds`, and `nfds++`. -/
def append (conn : ℕ) (s : State) : State :=
  { s with
    pfds := Function.update s.pfds s.nfds ((s.pfds s.nfds).watch conn)
    nfds := s.nfds + 1 }

/-- `accept4`, and what is done with the connection. -/
def accept (i ret : ℕ) (conn : Option ℕ) (s : State) : Option State :=
  match conn with
  | none => some { s with place := .scan (i + 1) ret }
  | some conn =>
      match s.kernel.refers conn with
      | some _ => none
      | none =>
          let s := { s with place := .scan (i + 1) ret, kernel := s.kernel.openAt conn }
          some (if maxFds ≤ s.nfds then { s with kernel := s.kernel.close conn .tableFull }
            else append conn s)

/-- `pfds[i] = pfds[nfds - 1]; nfds--;` -/
def remove (i : ℕ) (s : State) : State :=
  { s with pfds := Function.update s.pfds i (s.pfds (s.nfds - 1)), nfds := s.nfds - 1 }

/-- `recv`; after the end of a client the index is the same, for `i--` comes before `++i`. -/
def receive (i ret fd : ℕ) (answer : Recv) (s : State) : State :=
  match answer with
  | .data => s
  | .error => { s with place := .scan (i + 1) ret }
  | .endOfFile =>
      remove i { s with place := .scan i ret, kernel := s.kernel.close fd .endOfFile }

/-- The loop after the end, for the slot `i`. -/
def closeNext (i : ℕ) (s : State) : State :=
  if i < s.nfds then
    { s with place := .shutdown (i + 1), kernel := s.kernel.close (s.pfds i).fd .shutdown }
  else { s with place := .returned, kernel := s.kernel.close s.listenFd .shutdown }

def next : Action → State → Option State
  | .test running, s =>
      match s.place with
      | .running => some { s with place := if running then .poll else .shutdown 1 }
      | _ => none
  | .poll ret ready, s =>
      match s.place with
      | .poll => some { s with
          place := if ret ≤ 0 then .running else .scan 0 ret.toNat, pfds := report ready s }
      | _ => none
  | .scan, s =>
      match s.place with
      | .scan i ret => some (scan i ret s)
      | _ => none
  | .accept conn, s =>
      match s.place with
      | .accept i ret => accept i ret conn s
      | _ => none
  | .recv answer, s =>
      match s.place with
      | .recv i ret fd => some (receive i ret fd answer s)
      | _ => none
  | .close, s =>
      match s.place with
      | .shutdown i => some (closeNext i s)
      | _ => none

/-- The sockets that a step closes, and why: the client at whose `recv` the thread is, a new
connection for which there is no slot, and after the loop one socket after the other. -/
def closedBy : Action → State → List (ℕ × Cause)
  | .accept (some _), s => if maxFds ≤ s.nfds then [(s.kernel.opened, .tableFull)] else []
  | .recv .endOfFile, s =>
      match s.place with
      | .recv _ _ fd => (s.kernel.refers fd).toList.map fun o => (o, .endOfFile)
      | _ => []
  | .close, s =>
      match s.place with
      | .shutdown i =>
          (s.kernel.refers (if i < s.nfds then (s.pfds i).fd else s.listenFd)).toList.map
            fun o => (o, .shutdown)
      | _ => []
  | _, _ => []

/-- The loop over the connections has not ended. -/
def Place.inLoop : Place → Bool
  | .shutdown _ | .returned => false
  | _ => true

/-- The clients that were accepted and are not closed; the listening socket is object 0. -/
def State.clients (s : State) : List ℕ :=
  (List.range' 1 (s.kernel.opened - 1)).filter fun c => c ∉ s.kernel.gone

/-- What the array has in its slots from 1 on. -/
def State.table (s : State) : List (Option ℕ) :=
  (List.range' 1 (s.nfds - 1)).map fun j => s.kernel.refers (s.pfds j).fd

/-- The array has the listening socket in front, and behind it each open client once. -/
structure Table (s : State) : Prop where
  listen : (s.pfds 0).fd = s.listenFd ∧ s.kernel.refers s.listenFd = some 0
  bound : 1 ≤ s.nfds ∧ s.nfds ≤ maxFds
  clients : s.table.Perm (s.clients.map some)

/-- No socket is closed twice, none is closed that is not open, and in the end all are. -/
structure Closes (s : State) : Prop where
  once : s.kernel.gone.Nodup
  sound : s.kernel.bad = false
  all : s.place = .returned → s.kernel.gone.Perm (List.range s.kernel.opened)

/-- Once the loop has ended, the thread comes to its end by closing what there is. -/
def Ends (s : State) : Prop :=
  ∀ i, s.place = .shutdown i → ∃ n, (schedule next (List.replicate n .close) s).place = .returned

/-! ## The invariant -/

/-- The descriptors in the array. -/
def State.fds (s : State) : List ℕ := (List.range s.nfds).map fun j => (s.pfds j).fd

/-- The descriptors that are still to be closed. -/
def State.held (s : State) : List ℕ :=
  match s.place with
  | .shutdown i => s.fds.drop i ++ [s.listenFd]
  | .returned => []
  | _ => s.fds

/-- A local variable of the thread agrees with the array. -/
def State.Local (s : State) : Prop :=
  match s.place with
  | .recv i _ fd => i < s.nfds ∧ (s.pfds i).fd = fd ∧ fd ≠ s.listenFd
  | _ => True

structure Inv (memory : ℕ → PollFd) (s : State) : Prop where
  held : s.kernel.Held s.held
  first : (s.pfds 0).fd = s.listenFd
  listen : s.place ≠ .returned → s.kernel.refers s.listenFd = some 0
  bound : 1 ≤ s.nfds ∧ s.nfds ≤ maxFds
  atPlace : s.Local
  /-- `poll` is asked for every slot. -/
  asks : ∀ j, j < s.nfds → (s.pfds j).events = true
  /-- Nothing is written behind the array. -/
  behind : ∀ j, maxFds ≤ j → s.pfds j = memory j

/-! ## The descriptors in the array -/

section
variable {s s' : State} {memory : ℕ → PollFd} {p : Place} {i ret fd conn : ℕ}

theorem fds_getElem? (hi : i < s.nfds) : s.fds[i]? = some (s.pfds i).fd := by
  rw [State.fds, List.getElem?_map, List.getElem?_range hi]
  rfl

theorem length_fds : s.fds.length = s.nfds := by
  rw [State.fds, List.length_map, List.length_range]

theorem report_fd (ready : List ℕ) (s : State) (j : ℕ) : (report ready s j).fd = (s.pfds j).fd := by
  rw [report]
  split
  next => rfl
  next => rfl

theorem report_events (ready : List ℕ) (s : State) (j : ℕ) :
    (report ready s j).events = (s.pfds j).events := by
  rw [report]
  split
  next => rfl
  next => rfl

theorem append_pfds_of_ne {j : ℕ} (hne : j ≠ s.nfds) : (append conn s).pfds j = s.pfds j :=
  Function.update_of_ne hne ..

theorem append_pfds_self : (append conn s).pfds s.nfds = (s.pfds s.nfds).watch conn :=
  Function.update_self ..

theorem fds_append : (append conn s).fds = s.fds ++ [conn] := by
  show (List.range (s.nfds + 1)).map _ = _
  rw [List.range_succ, List.map_append, List.map_singleton]
  refine congrArg₂ (· ++ [·]) (List.map_congr_left fun j hj => ?_) ?_
  · rw [append_pfds_of_ne (List.mem_range.mp hj).ne]
  · exact congrArg PollFd.fd append_pfds_self

theorem remove_pfds_of_ne {j : ℕ} (hne : j ≠ i) : (remove i s).pfds j = s.pfds j :=
  Function.update_of_ne hne ..

theorem fds_remove (i : ℕ) (hn : 1 ≤ s.nfds) : (remove i s).fds = swapRemove i s.fds := by
  obtain ⟨n, hn⟩ : ∃ n, s.nfds = n + 1 := ⟨s.nfds - 1, by omega⟩
  show (List.range (s.nfds - 1)).map
    (fun j => (Function.update s.pfds i (s.pfds (s.nfds - 1)) j).fd) = swapRemove i (List.map _ _)
  rw [hn, Nat.add_sub_cancel, ← map_range_update]
  refine List.map_congr_left fun j _ => ?_
  rcases eq_or_ne j i with rfl | hne
  · rw [Function.update_self, Function.update_self]
  · rw [Function.update_of_ne hne, Function.update_of_ne hne]

theorem held_of_inLoop (hloop : s.place.inLoop = true) : s.held = s.fds := by
  rw [State.held]
  split
  next i hplace =>
    rw [hplace] at hloop
    cases hloop
  next hplace =>
    rw [hplace] at hloop
    cases hloop
  next => rfl

theorem inLoop_of_place (hplace : s.place = p) (hp : p.inLoop = true) : s.place.inLoop = true :=
  hplace ▸ hp

theorem ne_returned_of_inLoop (hloop : s.place.inLoop = true) : s.place ≠ .returned := by
  intro hplace
  rw [hplace] at hloop
  cases hloop

/-! ## What the steps keep -/

theorem Inv.held_fds (h : Inv memory s) (hloop : s.place.inLoop = true) : s.kernel.Held s.fds :=
  held_of_inLoop hloop ▸ h.held

theorem inv_of_inLoop (hloop : s.place.inLoop = true) (hheld : s.kernel.Held s.fds)
    (hfirst : (s.pfds 0).fd = s.listenFd) (hlisten : s.kernel.refers s.listenFd = some 0)
    (hbound : 1 ≤ s.nfds ∧ s.nfds ≤ maxFds) (hlocal : s.Local)
    (hasks : ∀ j, j < s.nfds → (s.pfds j).events = true)
    (hbehind : ∀ j, maxFds ≤ j → s.pfds j = memory j) : Inv memory s where
  held := (held_of_inLoop hloop).symm ▸ hheld
  first := hfirst
  listen := fun _ => hlisten
  bound := hbound
  atPlace := hlocal
  asks := hasks
  behind := hbehind

theorem inv_init (listenFd : ℕ) (memory : ℕ → PollFd) : Inv memory (init listenFd memory) := by
  have hslot : (init listenFd memory).pfds 0 = (memory 0).watch listenFd :=
    Function.update_self (0 : ℕ) _ memory
  have hfds : (init listenFd memory).fds = [listenFd] := by
    show [((init listenFd memory).pfds 0).fd] = [listenFd]
    rw [hslot]
    rfl
  refine inv_of_inLoop rfl ?_ (congrArg PollFd.fd hslot) (Function.update_self ..)
    ⟨le_refl 1, Nat.le_add_left 1 63⟩ trivial ?_ ?_
  · rw [hfds]
    exact Descriptors.held_init.openAt rfl
  · intro j hj
    obtain rfl : j = 0 := Nat.lt_one_iff.mp hj
    exact congrArg PollFd.events hslot
  · intro j hj
    refine Function.update_of_ne ?_ ..
    rintro rfl
    exact absurd hj (Nat.not_succ_le_zero 63)

section
variable (h : Inv memory s) (hloop : s.place.inLoop = true)
include h hloop

theorem Inv.listen_of_inLoop : s.kernel.refers s.listenFd = some 0 :=
  h.listen (ne_returned_of_inLoop hloop)

theorem Inv.goto (hp : p.inLoop = true) (hlocal : State.Local { s with place := p }) :
    Inv memory { s with place := p } :=
  inv_of_inLoop hp (h.held_fds hloop) h.first (h.listen_of_inLoop hloop) h.bound hlocal h.asks h.behind

omit hloop in
theorem Inv.fds_eq : s.fds = s.listenFd :: s.fds.drop 1 := by
  have hlt : 0 < s.fds.length := by
    rw [length_fds]
    exact h.bound.1
  have hzero : s.fds[0] = s.listenFd := by
    have hget := fds_getElem? h.bound.1
    rw [List.getElem?_eq_getElem hlt, h.first] at hget
    exact Option.some.inj hget
  rw [← hzero, ← List.drop_eq_getElem_cons hlt, List.drop_zero]

theorem Inv.goto_shutdown : Inv memory { s with place := .shutdown 1 } := by
  refine ⟨(h.held_fds hloop).perm ?_, h.first, fun _ => h.listen_of_inLoop hloop, h.bound,
    trivial, h.asks, h.behind⟩
  show (s.fds.drop 1 ++ [s.listenFd]).Perm s.fds
  rw [h.fds_eq]
  exact List.perm_append_singleton _ _

theorem Inv.poll (hp : p.inLoop = true) (ready : List ℕ)
    (hlocal : State.Local { s with place := p, pfds := report ready s }) :
    Inv memory { s with place := p, pfds := report ready s } := by
  have hfds : (List.range s.nfds).map (fun j => (report ready s j).fd) = s.fds :=
    List.map_congr_left fun j _ => report_fd ready s j
  refine inv_of_inLoop hp ?_ ((report_fd ready s 0).trans h.first) (h.listen_of_inLoop hloop) h.bound
    hlocal (fun j hj => (report_events ready s j).trans (h.asks j hj)) fun j hj => ?_
  · show s.kernel.Held ((List.range s.nfds).map fun j => (report ready s j).fd)
    rw [hfds]
    exact h.held_fds hloop
  · have hnot : ¬ j < s.nfds := Nat.not_lt.mpr (h.bound.2.trans hj)
    exact (if_neg hnot).trans (h.behind j hj)

theorem Inv.scan (i ret : ℕ) : Inv memory (scan i ret s) := by
  rw [V5.scan]
  split
  next hi =>
    split
    next =>
      split
      next => exact h.goto hloop rfl trivial
      next hne => exact h.goto hloop rfl ⟨hi.1, rfl, hne⟩
    next => exact h.goto hloop rfl trivial
  next => exact h.goto hloop rfl trivial

theorem Inv.listen_ne (hfree : s.kernel.refers conn = none) : s.listenFd ≠ conn := by
  rintro rfl
  have hlisten := h.listen_of_inLoop hloop
  rw [hfree] at hlisten
  cases hlisten

theorem Inv.refuse (hp : p.inLoop = true) (hlocal : State.Local { s with place := p })
    (hfree : s.kernel.refers conn = none) :
    Inv memory { s with
      place := p, kernel := (s.kernel.openAt conn).close conn .tableFull } := by
  have hheld := h.held_fds hloop
  have hlisten := h.listen_of_inLoop hloop
  have hne := h.listen_ne hloop hfree
  refine inv_of_inLoop hp (hheld.openAt hfree).close h.first ?_ h.bound hlocal h.asks h.behind
  show ((s.kernel.openAt conn).close conn _).refers s.listenFd = some 0
  rw [Descriptors.refers_close_of_ne hne, Descriptors.refers_openAt_of_ne hne]
  exact hlisten

theorem Inv.append (hp : p.inLoop = true) (hfree : s.kernel.refers conn = none)
    (hroom : s.nfds < maxFds)
    (hlocal : (append conn { s with place := p, kernel := s.kernel.openAt conn }).Local) :
    Inv memory (append conn { s with place := p, kernel := s.kernel.openAt conn }) := by
  have hheld := h.held_fds hloop
  have hlisten := h.listen_of_inLoop hloop
  have hne := h.listen_ne hloop hfree
  have hold : ∀ j, j ≠ s.nfds →
      (V5.append conn { s with place := p, kernel := s.kernel.openAt conn }).pfds j = s.pfds j :=
    fun j hj => append_pfds_of_ne hj
  have hnew : (V5.append conn { s with place := p, kernel := s.kernel.openAt conn }).pfds s.nfds =
      (s.pfds s.nfds).watch conn :=
    append_pfds_self
  refine inv_of_inLoop hp ?_ ?_ ?_ ⟨Nat.le_add_left 1 _, hroom⟩ hlocal ?_ ?_
  · rw [fds_append]
    exact (hheld.openAt hfree).perm (List.perm_append_singleton _ _)
  · rw [hold 0 (Nat.ne_of_lt h.bound.1)]
    exact h.first
  · exact (Descriptors.refers_openAt_of_ne hne).trans hlisten
  · intro j hj
    rcases Nat.lt_succ_iff_lt_or_eq.mp hj with hlt | rfl
    · rw [hold j hlt.ne]
      exact h.asks j hlt
    · exact congrArg PollFd.events hnew
  · intro j hj
    rw [hold j (hroom.trans_le hj).ne']
    exact h.behind j hj

theorem Inv.accept (hstep : V5.accept i ret (some conn) s = some s') : Inv memory s' := by
  rw [V5.accept] at hstep
  split at hstep
  next => cases hstep
  next hfree =>
    obtain rfl := Option.some.inj hstep
    split
    next => exact h.refuse hloop rfl trivial hfree
    next hroom => exact h.append hloop rfl hfree (Nat.not_le.mp hroom) trivial

/-- A client that is at its end is closed, and loses its slot to the last one. -/
theorem Inv.remove (hp : p.inLoop = true) (hi : i < s.nfds) (hne : (s.pfds i).fd ≠ s.listenFd)
    (hlocal : (remove i { s with
      place := p, kernel := s.kernel.close (s.pfds i).fd .endOfFile }).Local) :
    Inv memory (remove i { s with
      place := p, kernel := s.kernel.close (s.pfds i).fd .endOfFile }) := by
  have hfirst := h.first
  have hzero : i ≠ 0 := by
    rintro rfl
    exact hne hfirst
  have hold : ∀ j, j ≠ i → (V5.remove i { s with
      place := p, kernel := s.kernel.close (s.pfds i).fd .endOfFile }).pfds j = s.pfds j :=
    fun j hj => remove_pfds_of_ne hj
  have hmoved : (V5.remove i { s with
      place := p, kernel := s.kernel.close (s.pfds i).fd .endOfFile }).pfds i = s.pfds (s.nfds - 1) :=
    Function.update_self ..
  have hbound := h.bound
  have hfds : (V5.remove i { s with
      place := p, kernel := s.kernel.close (s.pfds i).fd .endOfFile }).fds = swapRemove i s.fds :=
    fds_remove i hbound.1
  refine inv_of_inLoop hp ?_ ?_ ?_ ⟨?_, ?_⟩ hlocal ?_ ?_
  · rw [hfds]
    exact ((h.held_fds hloop).perm (cons_swapRemove_perm (fds_getElem? hi))).close
  · rw [hold 0 hzero.symm]
    exact hfirst
  · exact (Descriptors.refers_close_of_ne hne.symm).trans (h.listen_of_inLoop hloop)
  · show 1 ≤ s.nfds - 1
    omega
  · exact (Nat.sub_le _ _).trans hbound.2
  · intro j hj
    have hlt : j < s.nfds := hj.trans_le (Nat.sub_le _ _)
    rcases eq_or_ne j i with rfl | hji
    · rw [hmoved]
      exact h.asks _ (by omega)
    · rw [hold j hji]
      exact h.asks j hlt
  · intro j hj
    rw [hold j (hi.trans_le (hbound.2.trans hj)).ne']
    exact h.behind j hj

end

theorem Inv.receive (h : Inv memory s) (hplace : s.place = .recv i ret fd) (answer : Recv) :
    Inv memory (receive i ret fd answer s) := by
  have hloop := inLoop_of_place hplace rfl
  cases answer with
  | data => exact h
  | error => exact h.goto hloop rfl trivial
  | endOfFile =>
      have hlocal := h.atPlace
      rw [State.Local, hplace] at hlocal
      obtain ⟨hi, rfl, hne⟩ := hlocal
      exact h.remove hloop rfl hi hne trivial

theorem Inv.closeNext (h : Inv memory s) (hplace : s.place = .shutdown i) :
    Inv memory (closeNext i s) := by
  have hheld : s.kernel.Held (s.fds.drop i ++ [s.listenFd]) := by
    have hall := h.held
    rwa [State.held, hplace] at hall
  have hlisten : s.kernel.refers s.listenFd = some 0 := h.listen (by
    rw [hplace]
    exact Place.noConfusion)
  rw [V5.closeNext]
  split
  next hi =>
    have hlen : i < s.fds.length := length_fds.symm ▸ hi
    have hget : s.fds[i] = (s.pfds i).fd :=
      Option.some.inj ((List.getElem?_eq_getElem hlen).symm.trans (fds_getElem? hi))
    have hdrop : s.fds.drop i = (s.pfds i).fd :: s.fds.drop (i + 1) := by
      rw [List.drop_eq_getElem_cons hlen, hget]
    have hcons : s.kernel.Held ((s.pfds i).fd :: (s.fds.drop (i + 1) ++ [s.listenFd])) := by
      rwa [← List.cons_append, ← hdrop]
    have hne : s.listenFd ≠ (s.pfds i).fd := fun heq =>
      (List.nodup_cons.mp hcons.nodup).1 (heq ▸ List.mem_append_right _ List.mem_cons_self)
    exact ⟨hcons.close, h.first, fun _ => (Descriptors.refers_close_of_ne hne).trans hlisten, h.bound,
      trivial, h.asks, h.behind⟩
  next hi =>
    have hdrop : s.fds.drop i = [] := List.drop_eq_nil_of_le (length_fds.symm ▸ Nat.not_lt.mp hi)
    have hlast : s.kernel.Held [s.listenFd] := by
      rwa [hdrop, List.nil_append] at hheld
    exact ⟨hlast.close, h.first, fun hne => absurd rfl hne, h.bound, trivial, h.asks, h.behind⟩

/-- **Every step keeps the table.** -/
theorem Inv.next (h : Inv memory s) {a : Action} (hstep : V5.next a s = some s') : Inv memory s' := by
  cases a with
  | test running =>
      rw [V5.next] at hstep
      split at hstep
      next hplace =>
        have hloop := inLoop_of_place hplace rfl
        obtain rfl := Option.some.inj hstep
        cases running with
        | true => exact h.goto hloop rfl trivial
        | false => exact h.goto_shutdown hloop
      next => cases hstep
  | poll ret ready =>
      rw [V5.next] at hstep
      split at hstep
      next hplace =>
        have hloop := inLoop_of_place hplace rfl
        obtain rfl := Option.some.inj hstep
        split
        next => exact h.poll hloop rfl ready trivial
        next => exact h.poll hloop rfl ready trivial
      next => cases hstep
  | scan =>
      rw [V5.next] at hstep
      split at hstep
      next i ret hplace =>
        have hloop := inLoop_of_place hplace rfl
        obtain rfl := Option.some.inj hstep
        exact h.scan hloop i ret
      next => cases hstep
  | accept conn =>
      rw [V5.next] at hstep
      split at hstep
      next i ret hplace =>
        have hloop := inLoop_of_place hplace rfl
        cases conn with
        | none =>
            obtain rfl := Option.some.inj hstep
            exact h.goto hloop rfl trivial
        | some conn => exact h.accept hloop hstep
      next => cases hstep
  | recv answer =>
      rw [V5.next] at hstep
      split at hstep
      next i ret fd hplace =>
        obtain rfl := Option.some.inj hstep
        exact h.receive hplace answer
      next => cases hstep
  | close =>
      rw [V5.next] at hstep
      split at hstep
      next i hplace =>
        obtain rfl := Option.some.inj hstep
        exact h.closeNext hplace
      next => cases hstep

/-! ## What it says of a run -/

theorem range_eq_cons {n : ℕ} (hn : 1 ≤ n) : List.range n = 0 :: List.range' 1 (n - 1) := by
  obtain ⟨m, rfl⟩ : ∃ m, n = m + 1 := ⟨n - 1, by omega⟩
  rw [List.range_eq_range', List.range'_succ]
  rfl

/-- **The array is the listening socket and the open clients.** -/
theorem Inv.table (h : Inv memory s) (hloop : s.place.inLoop = true) : Table s := by
  have hlisten := h.listen_of_inLoop hloop
  refine ⟨⟨h.first, hlisten⟩, h.bound, ?_⟩
  have hheld := h.held_fds hloop
  have hobjects := hheld.objects_perm
  have hzero : 0 ∈ s.fds.filterMap s.kernel.refers := by
    refine List.mem_filterMap.mpr ⟨s.listenFd, ?_, hlisten⟩
    rw [h.fds_eq]
    exact List.mem_cons_self
  obtain ⟨hopened, hgone⟩ := List.mem_filter.mp (hobjects.mem_iff.mp hzero)
  have hperm := hheld.refers_perm
  have hclients : (List.range s.kernel.opened).filter (fun c => c ∉ s.kernel.gone) = 0 :: s.clients := by
    rw [range_eq_cons (List.mem_range.mp hopened)]
    exact List.filter_cons_of_pos hgone
  rw [hclients, State.fds, range_eq_cons h.bound.1, List.map_map, List.map_cons, List.map_cons,
    Function.comp_apply, h.first, hlisten] at hperm
  exact hperm.cons_inv

theorem Inv.closes (h : Inv memory s) : Closes s where
  once := h.held.gone_nodup
  sound := h.held.sound
  all := by
    intro hplace
    have hheld := h.held
    rw [State.held, hplace] at hheld
    exact hheld.all_gone

theorem closeNext_nfds (i : ℕ) (s : State) : (closeNext i s).nfds = s.nfds := by
  rw [closeNext]
  split
  next => rfl
  next => rfl

theorem exists_returned (i : ℕ) (s : State) (hplace : s.place = .shutdown i) :
    ∃ n, (schedule next (List.replicate n .close) s).place = .returned := by
  have hstep : V5.next .close s = some (closeNext i s) := by
    rw [V5.next, hplace]
  by_cases hi : i < s.nfds
  · have hnext : (closeNext i s).place = .shutdown (i + 1) := by
      rw [closeNext, if_pos hi]
    obtain ⟨n, hn⟩ := exists_returned (i + 1) (closeNext i s) hnext
    refine ⟨n + 1, ?_⟩
    rw [List.replicate_succ, schedule_cons_of_some hstep]
    exact hn
  · refine ⟨1, ?_⟩
    rw [List.replicate_succ, schedule_cons_of_some hstep, closeNext, if_neg hi]
    rfl
termination_by s.nfds - i
decreasing_by
  rw [closeNext_nfds]
  omega

theorem always_inv (listenFd : ℕ) (memory : ℕ → PollFd) (as : List Action) :
    Always next (init listenFd memory) as (Inv memory) := fun pre _ =>
  schedule_rule (Inv memory) (inv_init listenFd memory) (fun _ _ _ h hstep => h.next hstep) pre

/-- `poll` is asked for every slot in use, and what is behind the array is as it was. -/
theorem array_kept (listenFd : ℕ) (memory : ℕ → PollFd) (as : List Action) :
    Always next (init listenFd memory) as fun s =>
      (∀ j, j < s.nfds → (s.pfds j).events = true) ∧ ∀ j, maxFds ≤ j → s.pfds j = memory j :=
  fun pre hpre => ⟨(always_inv listenFd memory as pre hpre).asks,
    (always_inv listenFd memory as pre hpre).behind⟩

/-- **The table of connections.**  Whatever `poll`, `accept4` and `recv` answer, and whatever is
in the memory of the array, in every state up to the end of the loop the array has the
listening socket in front and behind it every client that was accepted and is not closed, once.
No socket is closed twice, at the end of its data, for want of a slot or at the shutdown; the
shutdown comes to its end, and then all have been closed. -/
theorem connection_table (listenFd : ℕ) (memory : ℕ → PollFd) (as : List Action) :
    Always next (init listenFd memory) as fun s =>
      (s.place.inLoop = true → Table s) ∧ Closes s ∧ Ends s := fun pre hpre =>
  have h := always_inv listenFd memory as pre hpre
  ⟨h.table, h.closes, fun i => exists_returned i _⟩

/-! ## Why a socket is closed -/

theorem closed_accept {i ret : ℕ} {conn : Option ℕ} (hstep : accept i ret conn s = some s') :
    s'.kernel.closed = s.kernel.closed ++ closedBy (.accept conn) s := by
  cases conn with
  | none =>
      cases hstep
      exact (List.append_nil _).symm
  | some conn =>
      rw [accept] at hstep
      split at hstep
      next => cases hstep
      next hfree =>
        obtain rfl := Option.some.inj hstep
        rw [closedBy]
        by_cases hfull : maxFds ≤ s.nfds
        · rw [if_pos hfull, if_pos hfull]
          show ((s.kernel.openAt conn).close conn .tableFull).closed = _
          have hself : (s.kernel.openAt conn).refers conn = some s.kernel.opened :=
            Function.update_self ..
          rw [Descriptors.closed_close, hself]
          rfl
        · rw [if_neg hfull, if_neg hfull]
          exact (List.append_nil _).symm

theorem closed_of_next {a : Action} (hstep : V5.next a s = some s') :
    s'.kernel.closed = s.kernel.closed ++ closedBy a s := by
  cases a with
  | test running | poll ret ready =>
      rw [V5.next] at hstep
      split at hstep
      next =>
        obtain rfl := Option.some.inj hstep
        exact (List.append_nil _).symm
      next => cases hstep
  | scan =>
      rw [V5.next] at hstep
      split at hstep
      next i ret _ =>
        obtain rfl := Option.some.inj hstep
        have hsame : (scan i ret s).kernel = s.kernel := by
          rw [scan]
          split
          next =>
            split
            next => split <;> rfl
            next => rfl
          next => rfl
        rw [hsame]
        exact (List.append_nil _).symm
      next => cases hstep
  | accept conn =>
      rw [V5.next] at hstep
      split at hstep
      next => exact closed_accept hstep
      next => cases hstep
  | recv answer =>
      rw [V5.next] at hstep
      split at hstep
      next i ret fd hplace =>
        obtain rfl := Option.some.inj hstep
        cases answer with
        | data | error => exact (List.append_nil _).symm
        | endOfFile =>
            rw [closedBy, hplace]
            exact Descriptors.closed_close fd _ s.kernel
      next => cases hstep
  | close =>
      rw [V5.next] at hstep
      split at hstep
      next i hplace =>
        obtain rfl := Option.some.inj hstep
        rw [closedBy, hplace, closeNext]
        dsimp only
        split
        next => exact Descriptors.closed_close _ _ s.kernel
        next => exact Descriptors.closed_close _ _ s.kernel
      next => cases hstep

theorem closed_eq_trace (listenFd : ℕ) (memory : ℕ → PollFd) (as : List Action) :
    (schedule next as (init listenFd memory)).kernel.closed =
      trace next closedBy as (init listenFd memory) :=
  record_eq_trace (fun s : State => s.kernel.closed) closedBy _ rfl (fun _ _ _ => closed_of_next) as

end

end LearnCpp.Latency.V5
