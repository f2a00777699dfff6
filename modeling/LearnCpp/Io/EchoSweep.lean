/-
# `LearnCpp.Io.EchoSweep` — one sweep over the clients

The inner loop of `topics/io/tcp_echo_server_nonblocking.cpp` walks along the
vector that it takes clients from.  A client whose socket is closed is overwritten
with the last one, and the index stays where it is; the others are stepped over:

    clients   =   those that were kept, in the order of their calls   ++   those to come

The loop makes one call of `recv` for each client that it begins with, whatever the
calls are answered, and comes to its end (`sweep_once`).
-/
import LearnCpp.Io.EchoServer
import LearnCpp.Lib.SwapRemove

namespace LearnCpp.Io.EchoServer

open Lib

/-- The actions of the inner loop. -/
def Action.inSweep : Action → Bool
  | .recv _ | .send _ => true
  | .accept _ | .endSweep _ => false

/-- `n > 0`, or `errno` is `EAGAIN` or `EWOULDBLOCK`. -/
def Recv.kept : Recv → Bool
  | .data _ | .wouldBlock => true
  | .closed | .error => false

/-- What `recv` can answer: data are not empty, and fit into `buf`. -/
def Recv.Fits : Recv → Prop
  | .data chunk => chunk ≠ [] ∧ chunk.length ≤ bufSize
  | _ => True

/-- The call of `recv` that an action makes: for which client, and with what answer. -/
def call : Action → State → Option (ℕ × Recv)
  | .recv answer, s =>
      match s.place with
      | .sweep i => s.clients[i]?.map fun c => (c, answer)
      | _ => none
  | _, _ => none

/-- The calls of `recv` in a run. -/
def calls : List Action → State → List (ℕ × Recv)
  | [], _ => []
  | a :: as, s => (call a s).toList ++ calls as (attempt next a s)

/-- The clients that stay after some calls. -/
def keepers (ks : List (ℕ × Recv)) : List ℕ := (ks.filter fun k => k.2.kept).map Prod.fst

/-- The clients that are closed. -/
def leavers (ks : List (ℕ × Recv)) : List ℕ := (ks.filter fun k => !k.2.kept).map Prod.fst

/-- The loop does not stop here, whatever `recv` or `send` answers. -/
def State.GoesOn (s : State) : Prop :=
  (∃ i c, s.place = .sweep i ∧ s.clients[i]? = some c ∧
    ∀ answer : Recv, answer.Fits → (next (.recv answer) s).isSome) ∨
  ∃ i chunk, s.place = .send i chunk ∧
    ∀ taken, taken ≤ chunk.length → (next (.send taken) s).isSome

/-- What a whole sweep from `s` to `s'` does, with the calls `ks`. -/
structure Sweep (s : State) (ks : List (ℕ × Recv)) (s' : State) : Prop where
  /-- `i < clients.size()` fails. -/
  ended : s'.place = .sweep s'.clients.length
  /-- There is one call for each client. -/
  once : (ks.map Prod.fst).Perm s.clients
  clients : s'.clients = keepers ks
  closed : s'.closed = s.closed ++ leavers ks

/-- What it does when `recv` answers each client in its own way. -/
structure SweepBy (answer : ℕ → Recv) (s : State) (ks : List (ℕ × Recv)) (s' : State) : Prop where
  ended : s'.place = .sweep s'.clients.length
  once : ks.Perm (s.clients.map fun c => (c, answer c))
  clients : s'.clients.Perm (s.clients.filter fun c => (answer c).kept)
  closed : ∃ gone, s'.closed = s.closed ++ gone ∧
    gone.Perm (s.clients.filter fun c => !(answer c).kept)

/-! ## In the middle of a sweep -/

/-- How many clients at the front of the vector have been called. -/
def Place.visited : Place → Option ℕ
  | .sweep i => some i
  | .send i _ => some (i + 1)
  | .accept | .finished => none

/-- The calls of `send` that are due. -/
def Place.due : Place → ℕ
  | .send _ _ => 1
  | _ => 0

/-- A sweep that began at `s₀` has made the calls `ks` in `n` steps, and has the clients
`rest` before it. -/
structure Sweeping (s₀ : State) (ks : List (ℕ × Recv)) (n : ℕ) (s : State) (rest : List ℕ) : Prop where
  place : s.place.visited = some (keepers ks).length
  clients : s.clients = keepers ks ++ rest
  once : (ks.map Prod.fst ++ rest).Perm s₀.clients
  closed : s.closed = s₀.closed ++ leavers ks
  steps : n + 2 * rest.length + s.place.due ≤ 2 * s₀.clients.length

section
variable {s₀ s s' : State} {ks : List (ℕ × Recv)} {n i c : ℕ} {rest : List ℕ} {answer : Recv}

theorem removeAt_eq (i : ℕ) (clients : List ℕ) : removeAt i clients = swapRemove i clients := by
  rw [removeAt, swapRemove]
  split
  next back heq => rw [heq]
  next heq => rw [heq]

theorem keepers_concat_of_kept (hkept : answer.kept = true) :
    keepers (ks ++ [(c, answer)]) = keepers ks ++ [c] := by
  simp [keepers, hkept]

theorem leavers_concat_of_kept (hkept : answer.kept = true) :
    leavers (ks ++ [(c, answer)]) = leavers ks := by
  simp [leavers, hkept]

theorem keepers_concat_of_not (hkept : answer.kept = false) :
    keepers (ks ++ [(c, answer)]) = keepers ks := by
  simp [keepers, hkept]

theorem leavers_concat_of_not (hkept : answer.kept = false) :
    leavers (ks ++ [(c, answer)]) = leavers ks ++ [c] := by
  simp [leavers, hkept]

theorem sweeping_init (hplace : s.place = .sweep 0) : Sweeping s [] 0 s s.clients where
  place := congrArg Place.visited hplace
  clients := rfl
  once := List.Perm.refl _
  closed := (List.append_nil _).symm
  steps := by
    rw [hplace]
    exact le_of_eq (Nat.zero_add _)

theorem Sweeping.rest_eq (h : Sweeping s₀ ks n s rest) (hplace : s.place = .sweep i)
    (hc : s.clients[i]? = some c) : i = (keepers ks).length ∧ ∃ post, rest = c :: post := by
  have hi : i = (keepers ks).length :=
    Option.some.inj ((congrArg Place.visited hplace).symm.trans h.place)
  rw [h.clients, hi, List.getElem?_append_right (le_refl _), Nat.sub_self] at hc
  cases rest with
  | nil => cases hc
  | cons c' post =>
      obtain rfl := Option.some.inj hc
      exact ⟨hi, post, rfl⟩

theorem once_concat {post post' cs : List ℕ} (h : (ks.map Prod.fst ++ c :: post).Perm cs)
    (hperm : post'.Perm post) (answer : Recv) :
    ((ks ++ [(c, answer)]).map Prod.fst ++ post').Perm cs := by
  rw [List.map_append, List.append_assoc]
  exact ((hperm.cons c).append_left _).trans h

theorem Sweeping.keep (h : Sweeping s₀ ks n s rest) (hplace : s.place = .sweep i)
    (hc : s.clients[i]? = some c) (hkept : answer.kept = true)
    (hvisited : s'.place.visited = some (i + 1)) (hdue : s'.place.due ≤ 1)
    (hclients : s'.clients = s.clients) (hclosed : s'.closed = s.closed) :
    ∃ rest', Sweeping s₀ (ks ++ [(c, answer)]) (n + 1) s' rest' := by
  obtain ⟨hi, post, rfl⟩ := h.rest_eq hplace hc
  have hsteps := h.steps
  rw [List.length_cons] at hsteps
  refine ⟨post, ?_, ?_, once_concat h.once (List.Perm.refl _) answer, ?_, by omega⟩
  · rw [hvisited, keepers_concat_of_kept hkept, List.length_append, hi]
    rfl
  · rw [hclients, h.clients, keepers_concat_of_kept hkept, List.append_assoc]
    rfl
  · rw [hclosed, h.closed, leavers_concat_of_kept hkept]

theorem Sweeping.leave (h : Sweeping s₀ ks n s rest) (hplace : s.place = .sweep i)
    (hc : s.clients[i]? = some c) (hkept : answer.kept = false) :
    ∃ rest', Sweeping s₀ (ks ++ [(c, answer)]) (n + 1)
      { s with clients := removeAt i s.clients, closed := s.closed ++ [c] } rest' := by
  obtain ⟨hi, post, rfl⟩ := h.rest_eq hplace hc
  have hsteps := h.steps
  rw [hplace, List.length_cons] at hsteps
  obtain ⟨pre, post₁, post', hsplit, hlen, hremoved, hperm⟩ := swapRemove_spec hc
  obtain ⟨rfl, heq⟩ := List.append_inj (hsplit.symm.trans h.clients) (hlen.trans hi)
  obtain rfl := (List.cons.inj heq).2
  refine ⟨post', ?_, ?_, once_concat h.once hperm answer, ?_, ?_⟩
  · rw [keepers_concat_of_not hkept]
    exact h.place
  · show removeAt i s.clients = _
    rw [removeAt_eq, hremoved, keepers_concat_of_not hkept]
  · show s.closed ++ [c] = _
    rw [h.closed, leavers_concat_of_not hkept, List.append_assoc]
  · show n + 1 + 2 * post'.length + s.place.due ≤ _
    rw [hplace, hperm.length_eq]
    have hdue : (Place.sweep i).due = 0 := rfl
    omega

/-- **A step of the loop** makes a call for the next client, or ends one with `send`. -/
theorem Sweeping.next (h : Sweeping s₀ ks n s rest) {a : Action} (ha : a.inSweep = true)
    (hstep : EchoServer.next a s = some s') :
    ∃ rest', Sweeping s₀ (ks ++ (call a s).toList) (n + 1) s' rest' := by
  cases a with
  | accept answer => cases ha
  | endSweep elapsed => cases ha
  | recv answer =>
      obtain ⟨i, c, hplace, hc, hreceive⟩ := exists_of_recv hstep
      have hcall : call (.recv answer) s = some (c, answer) := by
        simp only [call, hplace, hc, Option.map_some]
      rw [hcall]
      cases answer with
      | data chunk =>
          rw [receive] at hreceive
          split at hreceive
          next =>
            obtain rfl := Option.some.inj hreceive
            exact h.keep hplace hc rfl rfl (le_refl _) rfl rfl
          next => cases hreceive
      | wouldBlock =>
          obtain rfl := Option.some.inj hreceive
          exact h.keep hplace hc rfl rfl (Nat.zero_le _) rfl rfl
      | closed | error =>
          obtain rfl := Option.some.inj hreceive
          exact h.leave hplace hc rfl
  | send taken =>
      obtain ⟨i, c, chunk, hplace, -, -, rfl⟩ := exists_of_send hstep
      have hvisited := h.place
      have hsteps := h.steps
      rw [hplace] at hvisited hsteps
      have hdue : (Place.send i chunk).due = 1 := rfl
      have hdue' : (sendBack i c chunk taken s).place.due = 0 := rfl
      show ∃ rest', Sweeping s₀ (ks ++ []) (n + 1) (sendBack i c chunk taken s) rest'
      rw [List.append_nil]
      exact ⟨rest, hvisited, h.clients, h.once, h.closed, by omega⟩

/-! ## To its end -/

theorem Sweeping.run (h : Sweeping s₀ ks n s rest) {as : List Action}
    (has : ∀ a ∈ as, a.inSweep = true) (hrun : Lib.run EchoServer.next as s = some s') :
    ∃ rest', Sweeping s₀ (ks ++ calls as s) (n + as.length) s' rest' := by
  induction as generalizing s ks n rest with
  | nil =>
      obtain rfl := Option.some.inj hrun
      refine ⟨rest, ?_⟩
      rw [calls, List.append_nil]
      exact h
  | cons a as ih =>
      obtain ⟨s₁, hstep, hrest⟩ := Option.bind_eq_some_iff.mp hrun
      obtain ⟨rest₁, h₁⟩ := h.next (has a List.mem_cons_self) hstep
      obtain ⟨rest', h'⟩ := ih h₁ (fun b hb => has b (List.mem_cons_of_mem a hb)) hrest
      refine ⟨rest', ?_⟩
      rw [calls, attempt_of_some hstep, ← List.append_assoc, List.length_cons, Nat.add_comm as.length,
        ← Nat.add_assoc]
      exact h'

theorem next_recv (hplace : s.place = .sweep i) (hc : s.clients[i]? = some c) (hfits : answer.Fits) :
    (next (.recv answer) s).isSome := by
  have hnext : next (.recv answer) s = receive i c answer s := by simp only [next, hplace, hc]
  rw [hnext]
  cases answer with
  | data chunk =>
      have hchunk : chunk ≠ [] ∧ chunk.length ≤ bufSize := hfits
      rw [receive, if_pos hchunk]
      rfl
  | closed | wouldBlock | error => rfl

theorem next_send {taken : ℕ} {chunk : List UInt8} (hplace : s.place = .send i chunk)
    (hc : s.clients[i]? = some c) (hle : taken ≤ chunk.length) : (next (.send taken) s).isSome := by
  have hnext : next (.send taken) s = some (sendBack i c chunk taken s) := by
    simp only [next, hplace, hc, if_pos hle]
  rw [hnext]
  rfl

/-- Where a client is still to be called, or `send` is due, the loop goes on; otherwise the
sweep is whole. -/
theorem Sweeping.goesOn_or (h : Sweeping s₀ ks n s rest) : s.GoesOn ∨ Sweep s₀ ks s := by
  have hvisited := h.place
  cases hplace : s.place with
  | accept | finished =>
      rw [hplace] at hvisited
      cases hvisited
  | send i chunk =>
      rw [hplace] at hvisited
      have hi : i + 1 = (keepers ks).length := Option.some.inj hvisited
      have hlt : i < s.clients.length := by
        rw [h.clients, List.length_append]
        omega
      exact .inl (.inr ⟨i, chunk, hplace, fun taken =>
        next_send hplace (List.getElem?_eq_getElem hlt)⟩)
  | sweep i =>
      rw [hplace] at hvisited
      obtain rfl : i = (keepers ks).length := Option.some.inj hvisited
      have hclients := h.clients
      have honce := h.once
      cases rest with
      | nil =>
          rw [List.append_nil] at hclients honce
          refine .inr ⟨?_, honce, hclients, h.closed⟩
          rw [hplace, hclients]
      | cons c post =>
          have hc : s.clients[(keepers ks).length]? = some c := by
            rw [hclients, List.getElem?_append_right (le_refl _), Nat.sub_self]
            rfl
          exact .inl (.inl ⟨_, c, hplace, hc, fun answer => next_recv hplace hc⟩)

/-- **Every run of the loop**, whatever is answered, is bounded by the number of clients;
it goes on, or it is a whole sweep. -/
theorem sweep_of_run (hplace : s.place = .sweep 0) {as : List Action}
    (has : ∀ a ∈ as, a.inSweep = true) (hrun : run next as s = some s') :
    as.length ≤ 2 * s.clients.length ∧ (s'.GoesOn ∨ Sweep s (calls as s) s') := by
  obtain ⟨rest, h⟩ := (sweeping_init hplace).run has hrun
  rw [List.nil_append, Nat.zero_add] at h
  have hsteps := h.steps
  exact ⟨by omega, h.goesOn_or⟩

/-- Each client is answered in its own way. -/
def Answered (answer : ℕ → Recv) (ks : List (ℕ × Recv)) : Prop := ∀ k ∈ ks, k.2 = answer k.1

section
variable {f : ℕ → Recv}

theorem State.GoesOn.exists_next (h : s.GoesOn) (hfits : ∀ c, (f c).Fits) :
    ∃ a s', a.inSweep = true ∧ next a s = some s' ∧ Answered f (call a s).toList := by
  obtain ⟨i, c, hplace, hc, hall⟩ | ⟨i, chunk, hplace, hall⟩ := h
  · obtain ⟨s', hstep⟩ := Option.isSome_iff_exists.mp (hall (f c) (hfits c))
    refine ⟨.recv (f c), s', rfl, hstep, fun k hk => ?_⟩
    have hcall : call (.recv (f c)) s = some (c, f c) := by
      simp only [call, hplace, hc, Option.map_some]
    rw [hcall] at hk
    obtain rfl := List.mem_singleton.mp hk
    rfl
  · obtain ⟨s', hstep⟩ := Option.isSome_iff_exists.mp (hall 0 (Nat.zero_le _))
    exact ⟨.send 0, s', rfl, hstep, fun k hk => absurd hk List.not_mem_nil⟩

theorem Sweeping.exists_run (hfits : ∀ c, (f c).Fits) (m : ℕ) :
    ∀ {ks : List (ℕ × Recv)} {n : ℕ} {s : State} {rest : List ℕ}, Sweeping s₀ ks n s rest →
      2 * s₀.clients.length ≤ n + m → Answered f ks →
      ∃ as s', (∀ a ∈ as, a.inSweep = true) ∧ Lib.run EchoServer.next as s = some s' ∧
        Sweep s₀ (ks ++ calls as s) s' ∧ Answered f (ks ++ calls as s) := by
  intro ks n s rest h hm hks
  rcases h.goesOn_or with hgo | hsweep
  · obtain ⟨a, s₁, ha, hstep, hcall⟩ := hgo.exists_next hfits
    obtain ⟨rest₁, h₁⟩ := h.next ha hstep
    have hsteps := h₁.steps
    have hks₁ : Answered f (ks ++ (call a s).toList) := fun k hk =>
      (List.mem_append.mp hk).elim (hks k) (hcall k)
    obtain ⟨m', rfl⟩ : ∃ m', m = m' + 1 := ⟨m - 1, by omega⟩
    obtain ⟨as, s', has, hrun, hdone⟩ := Sweeping.exists_run hfits m' h₁ (by omega) hks₁
    refine ⟨a :: as, s', ?_, ?_, ?_⟩
    · intro b hb
      rcases List.mem_cons.mp hb with rfl | hb
      · exact ha
      · exact has b hb
    · exact (congrArg (Option.bind · _) hstep).trans hrun
    · rw [calls, attempt_of_some hstep, ← List.append_assoc]
      exact hdone
  · refine ⟨[], s, fun _ ha => absurd ha List.not_mem_nil, rfl, ?_⟩
    rw [calls, List.append_nil]
    exact ⟨hsweep, hks⟩
termination_by m

theorem Answered.eq_map (h : Answered f ks) : ks = (ks.map Prod.fst).map fun c => (c, f c) := by
  rw [List.map_map]
  refine (List.map_id ks).symm.trans (List.map_congr_left fun k hk => ?_)
  exact Prod.ext rfl (h k hk)

theorem Answered.keepers_eq (h : Answered f ks) :
    keepers ks = (ks.map Prod.fst).filter fun c => (f c).kept := by
  rw [keepers, List.filter_map]
  refine congrArg _ (List.filter_congr fun k hk => ?_)
  rw [h k hk]
  rfl

theorem Answered.leavers_eq (h : Answered f ks) :
    leavers ks = (ks.map Prod.fst).filter fun c => !(f c).kept := by
  rw [leavers, List.filter_map]
  refine congrArg _ (List.filter_congr fun k hk => ?_)
  rw [h k hk]
  rfl

theorem Sweep.by_answer (h : Sweep s ks s') (hks : Answered f ks) : SweepBy f s ks s' where
  ended := h.ended
  once := by
    rw [hks.eq_map]
    exact h.once.map _
  clients := by
    rw [h.clients, hks.keepers_eq]
    exact h.once.filter _
  closed := by
    refine ⟨leavers ks, h.closed, ?_⟩
    rw [hks.leavers_eq]
    exact h.once.filter _

theorem exists_sweep (hplace : s.place = .sweep 0) (hfits : ∀ c, (f c).Fits) :
    ∃ as s', (∀ a ∈ as, a.inSweep = true) ∧ run next as s = some s' ∧ SweepBy f s (calls as s) s' := by
  obtain ⟨as, s', has, hrun, hsweep, hks⟩ := (sweeping_init hplace).exists_run hfits
    (2 * s.clients.length) (by omega) fun k hk => absurd hk List.not_mem_nil
  exact ⟨as, s', has, hrun, hsweep.by_answer hks⟩

/-- **One sweep calls `recv` once for each client.**  However `recv` and `send` answer, the
loop takes at most two steps for each client that it begins with, and when it does not go
on, it has called each of them once, has kept those with data or without an end, and has
closed the others once.  With an answer for each client, there is such a run. -/
theorem sweep_once (hplace : s.place = .sweep 0) :
    (∀ as s', (∀ a ∈ as, a.inSweep = true) → run next as s = some s' →
      as.length ≤ 2 * s.clients.length ∧ (s'.GoesOn ∨ Sweep s (calls as s) s')) ∧
    ∀ f : ℕ → Recv, (∀ c, (f c).Fits) → ∃ as s', (∀ a ∈ as, a.inSweep = true) ∧
      run next as s = some s' ∧ SweepBy f s (calls as s) s' :=
  ⟨fun _ _ has hrun => sweep_of_run hplace has hrun, fun _ hfits => exists_sweep hplace hfits⟩

/-- Three clients, of which all but the second close their sockets, the last one among them. -/
theorem sweep_three : ∃ as s', (∀ a ∈ as, a.inSweep = true) ∧
    run next as { place := .sweep 0, clients := [4, 5, 6] } = some s' ∧
    SweepBy (fun c => if c = 5 then .wouldBlock else .closed)
      { place := .sweep 0, clients := [4, 5, 6] }
      (calls as { place := .sweep 0, clients := [4, 5, 6] }) s' := by
  refine (sweep_once rfl).2 _ fun c => ?_
  split
  next => trivial
  next => trivial

end

end

end LearnCpp.Io.EchoServer
