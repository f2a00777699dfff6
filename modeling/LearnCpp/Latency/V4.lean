/-
# `LearnCpp.Latency.V4` — one queue under many producers

`extras/latency/v4_blocking_tcp_pool_lockfree.cpp`: a `client_handler` for each
connection pushes into the one `SPSCQueue`, and `consumer_thread` pops.  Each load
and store of `push` and `pop` is a step, and what `recv` and the pool answer comes
with the action (`Io`).

The queue is made for one producer, which alone stores to `write_idx_`.  With
several, a handler may go on with a `write_idx_` that is no longer the one in the
queue.  What a handler has to find at its two stores (`Fits`):

    at slots_[w]       the slot is not one of those that hold a message
    at write_idx_      the index it has loaded, its pointer in the slot, and room

As long as it does, the pointers pushed so far are (`Inv.order`)

    pushed = popped ++ between the indices
-/
import LearnCpp.Latency.Common
import LearnCpp.Lib.Schedule
import Mathlib.Data.List.Nodup

namespace LearnCpp.Latency.V4

open Lib

/-- Where a `client_handler` is. -/
inductive Handler (n : ℕ) where
  /-- at the load of `g_running` -/
  | loop
  /-- at `recv` -/
  | recv
  /-- in `push`, at the load of `write_idx_` -/
  | load (msg : ℕ)
  /-- in `push`, at the load of `read_idx_` -/
  | check (msg : ℕ) (w : Fin n)
  /-- in `push`, at `slots_[w] = msg` -/
  | store (msg : ℕ) (w : Fin n)
  /-- in `push`, at the store to `write_idx_` -/
  | publish (msg : ℕ) (w : Fin n)
  | returned
  deriving DecidableEq, Repr

/-- Where `consumer_thread` is. -/
inductive Consumer (n : ℕ) where
  /-- at the load of `g_running` -/
  | loop
  /-- in `pop`, at the load of `read_idx_` -/
  | load
  /-- in `pop`, at the load of `write_idx_` -/
  | check (r : Fin n)
  /-- in `pop`, at the read of `slots_[r]` -/
  | take (r : Fin n)
  /-- in `pop`, at the store to `read_idx_` -/
  | publish (r : Fin n) (msg : ℕ)
  | returned
  deriving DecidableEq, Repr

structure State (k : ℕ) where
  queue : Ring ℕ (2 ^ k)
  running : Bool := true
  handlers : ℕ → Handler (2 ^ k) := fun _ => .loop
  consumer : Consumer (2 ^ k) := .loop
  /-- the pointers that were given to `push` -/
  given : List ℕ := []
  /-- those whose `push` has returned true -/
  pushed : List ℕ := []
  /-- the pointers that `pop` has returned -/
  popped : List ℕ := []

def init {k : ℕ} (slots : Fin (2 ^ k) → ℕ) : State k where
  queue := .empty slots

/-- What a handler gets to know. -/
inductive Io where
  | none
  /-- `recv` returns no more bytes. -/
  | closed
  /-- `recv` returns a payload, and the pool has no block for it. -/
  | noBlock
  /-- `recv` returns a payload, and the pool this block for it. -/
  | message (msg : ℕ)
  deriving DecidableEq

section
variable {k : ℕ}

def State.setHandler (s : State k) (h : ℕ) (pc : Handler (2 ^ k)) : State k :=
  { s with handlers := Function.update s.handlers h pc }

/-- A step of the handler `h`.  The pointers are distinct. -/
def handlerStep (h : ℕ) (io : Io) (s : State k) : Option (State k) :=
  match s.handlers h, io with
  | .loop, .none => some (s.setHandler h (if s.running then .recv else .returned))
  | .recv, .closed => some (s.setHandler h .returned)
  | .recv, .noBlock => some (s.setHandler h .loop)
  | .recv, .message msg =>
      if msg ∈ s.given then none
      else some { s.setHandler h (.load msg) with given := s.given ++ [msg] }
  | .load msg, .none => some (s.setHandler h (.check msg s.queue.write))
  | .check msg w, .none =>
      -- a push that returns false is tried again
      if Ring.maskedNext w = s.queue.read then some (s.setHandler h (.load msg))
      else some (s.setHandler h (.store msg w))
  | .store msg w, .none =>
      some { s.setHandler h (.publish msg w) with queue := s.queue.store w msg }
  | .publish msg w, .none =>
      some { s.setHandler h .loop with
        queue := s.queue.setWrite (Ring.maskedNext w)
        pushed := s.pushed ++ [msg] }
  | _, _ => none

def consumerStep (s : State k) : Option (State k) :=
  match s.consumer with
  | .loop => some { s with consumer := if s.running then .load else .returned }
  | .load => some { s with consumer := .check s.queue.read }
  | .check r =>
      if r = s.queue.write then some { s with consumer := .loop }
      else some { s with consumer := .take r }
  | .take r => some { s with consumer := .publish r (s.queue.slots r) }
  | .publish r msg =>
      some { s with
        queue := s.queue.setRead (Ring.maskedNext r)
        popped := s.popped ++ [msg]
        consumer := .loop }
  | .returned => none

inductive Action where
  | handler (h : ℕ) (io : Io)
  | consumer
  /-- `main` stores `g_running = false`. -/
  | stop
  deriving DecidableEq

def step : Action → State k → Option (State k)
  | .handler h io, s => handlerStep h io s
  | .consumer, s => consumerStep s
  | .stop, s => some { s with running := false }

end

/-! ## What a handler has to find -/

/-- The pointer that a handler is about to push. -/
def Handler.hand {n : ℕ} : Handler n → List ℕ
  | load msg => [msg]
  | check msg _ => [msg]
  | store msg _ => [msg]
  | publish msg _ => [msg]
  | _ => []

/-- What the consumer knows of the queue. -/
def Consumer.Knows {n : ℕ} (queue : Ring ℕ n) : Consumer n → Prop
  | check r => r = queue.read
  | take r => r = queue.read ∧ queue.read ≠ queue.write
  | publish r msg => r = queue.read ∧ queue.read ≠ queue.write ∧ msg = queue.slots queue.read
  | _ => True

section
variable {k : ℕ}

/-- A store of a handler goes where it belongs. -/
def Fits : Action → State k → Prop
  | .handler h _, s =>
      match s.handlers h with
      | .store _ w => w ∉ s.queue.filled
      | .publish msg w =>
          s.queue.write = w ∧ s.queue.slots w = msg ∧ Ring.maskedNext w ≠ s.queue.read
      | _ => True
  | _, _ => True

instance (a : Action) (s : State k) : Decidable (Fits a s) := by
  unfold Fits
  cases a <;> dsimp only
  · split <;> infer_instance
  · infer_instance
  · infer_instance

/-- Each pointer whose push has returned true is popped at most once, and is popped
or still between the indices. -/
def Delivered (s : State k) : Prop :=
  ∀ msg ∈ s.pushed, s.popped.count msg ≤ 1 ∧ (msg ∈ s.popped ∨ msg ∈ s.queue.contents)

structure Inv (s : State k) : Prop where
  order : s.popped ++ s.queue.contents = s.pushed
  nodup : s.pushed.Nodup
  given : s.pushed ⊆ s.given
  fresh : ∀ h, ∀ msg ∈ (s.handlers h).hand, msg ∈ s.given ∧ msg ∉ s.pushed
  apart : ∀ h h', h ≠ h' → ∀ msg ∈ (s.handlers h).hand, msg ∉ (s.handlers h').hand
  consumer : s.consumer.Knows s.queue

variable {h : ℕ} {io : Io} {a : Action} {s s' : State k} {pc : Handler (2 ^ k)}

theorem Inv.delivered (hinv : Inv s) : Delivered s := by
  intro msg hmsg
  have hnodup := hinv.nodup
  rw [← hinv.order] at hmsg hnodup
  exact ⟨List.nodup_iff_count_le_one.mp (List.nodup_append.mp hnodup).1 msg, List.mem_append.mp hmsg⟩

theorem mem_setHandler {h' msg : ℕ} : msg ∈ ((s.setHandler h pc).handlers h').hand ↔
    h' = h ∧ msg ∈ pc.hand ∨ h' ≠ h ∧ msg ∈ (s.handlers h').hand := by
  rw [State.setHandler]
  dsimp only
  rcases eq_or_ne h' h with rfl | hne
  · simp
  · simp [hne]

theorem hands_subset (hsub : pc.hand ⊆ (s.handlers h).hand) (h' : ℕ) :
    ((s.setHandler h pc).handlers h').hand ⊆ (s.handlers h').hand := by
  intro msg hmsg
  rcases mem_setHandler.mp hmsg with ⟨rfl, hmine⟩ | ⟨-, hyours⟩
  · exact hsub hmine
  · exact hyours

theorem Inv.setHandler (hinv : Inv s) (hsub : pc.hand ⊆ (s.handlers h).hand) : Inv (s.setHandler h pc) where
  order := hinv.order
  nodup := hinv.nodup
  given := hinv.given
  fresh h' msg hmsg := hinv.fresh h' msg (hands_subset hsub h' hmsg)
  apart h' h'' hne msg hmsg hmsg' :=
    hinv.apart h' h'' hne msg (hands_subset hsub h' hmsg) (hands_subset hsub h'' hmsg')
  consumer := hinv.consumer

theorem Inv.message (hinv : Inv s) {msg : ℕ} (hnew : msg ∉ s.given) :
    Inv { s.setHandler h (.load msg) with given := s.given ++ [msg] } where
  order := hinv.order
  nodup := hinv.nodup
  given := fun m hm => List.mem_append_left _ (hinv.given hm)
  fresh := by
    intro h' m hm
    rcases mem_setHandler.mp hm with ⟨-, hm⟩ | ⟨-, hm⟩
    · obtain rfl := List.mem_singleton.mp hm
      exact ⟨List.mem_append_right _ hm, fun hpushed => hnew (hinv.given hpushed)⟩
    · obtain ⟨hgiven, hpushed⟩ := hinv.fresh h' m hm
      exact ⟨List.mem_append_left _ hgiven, hpushed⟩
  apart := by
    intro h₁ h₂ hne m hm₁ hm₂
    have hother : ∀ h', m ∈ (s.handlers h').hand → m ≠ msg := by
      rintro h' hm rfl
      exact hnew (hinv.fresh h' m hm).1
    rcases mem_setHandler.mp hm₁ with ⟨hself₁, hmsg₁⟩ | ⟨-, hold₁⟩ <;>
      rcases mem_setHandler.mp hm₂ with ⟨hself₂, hmsg₂⟩ | ⟨-, hold₂⟩
    · exact hne (hself₁.trans hself₂.symm)
    · exact hother h₂ hold₂ (List.mem_singleton.mp hmsg₁)
    · exact hother h₁ hold₁ (List.mem_singleton.mp hmsg₂)
    · exact hinv.apart h₁ h₂ hne m hold₁ hold₂
  consumer := hinv.consumer

theorem Inv.store (hinv : Inv s) {msg : ℕ} {w : Fin (2 ^ k)} (hw : w ∉ s.queue.filled) :
    Inv { s with queue := s.queue.store w msg } where
  order := by
    show s.popped ++ (s.queue.store w msg).contents = s.pushed
    rw [Ring.contents_store hw]
    exact hinv.order
  nodup := hinv.nodup
  given := hinv.given
  fresh := hinv.fresh
  apart := hinv.apart
  consumer := by
    have hknows := hinv.consumer
    show s.consumer.Knows (s.queue.store w msg)
    cases hc : s.consumer with
    | publish r item =>
        rw [hc] at hknows
        obtain ⟨hr, hne, hitem⟩ := hknows
        refine ⟨hr, hne, hitem.trans (Function.update_of_ne ?_ ..).symm⟩
        intro heq
        exact hw (heq ▸ Ring.read_mem_filled hne)
    | _ =>
        rw [hc] at hknows
        exact hknows

theorem Inv.publish (hinv : Inv s) {msg : ℕ} {w : Fin (2 ^ k)} (hh : s.handlers h = .publish msg w)
    (hfits : Fits (.handler h io) s) :
    Inv { s.setHandler h .loop with
      queue := s.queue.setWrite (Ring.maskedNext w)
      pushed := s.pushed ++ [msg] } := by
  simp only [Fits, hh, Ring.maskedNext_eq] at hfits
  obtain ⟨rfl, hslot, hroom⟩ := hfits
  rw [Ring.maskedNext_eq]
  have hhand : msg ∈ (s.handlers h).hand := by
    rw [hh]
    exact List.mem_singleton_self msg
  obtain ⟨hgiven, hpushed⟩ := hinv.fresh h msg hhand
  -- the hands of the others
  have hothers : ∀ h' m, m ∈ ((s.setHandler h .loop).handlers h').hand →
      m ∈ (s.handlers h').hand ∧ m ≠ msg := by
    intro h' m hm
    rcases mem_setHandler.mp hm with ⟨-, hm⟩ | ⟨hne, hm⟩
    · cases hm
    · refine ⟨hm, ?_⟩
      rintro rfl
      exact hinv.apart h' h hne m hm hhand
  refine ⟨?_, ?_, ?_, ?_, ?_, ?_⟩
  · dsimp only
    rw [Ring.contents_advance hroom, hslot, ← List.append_assoc]
    exact congrArg (· ++ [msg]) hinv.order
  · show (s.pushed ++ [msg]).Nodup
    rw [← List.concat_eq_append]
    exact hinv.nodup.concat hpushed
  · intro m hm
    rcases List.mem_append.mp hm with hm | hm
    · exact hinv.given hm
    · exact List.mem_singleton.mp hm ▸ hgiven
  · intro h' m hm
    obtain ⟨hm, hne⟩ := hothers h' m hm
    obtain ⟨hgiven', hpushed'⟩ := hinv.fresh h' m hm
    exact ⟨hgiven', List.not_mem_append hpushed' (fun hmem => hne (List.mem_singleton.mp hmem))⟩
  · intro h₁ h₂ hne m hm₁ hm₂
    exact hinv.apart h₁ h₂ hne m (hothers h₁ m hm₁).1 (hothers h₂ m hm₂).1
  · have hknows := hinv.consumer
    show s.consumer.Knows (s.queue.setWrite (Ring.next s.queue.write))
    cases hc : s.consumer with
    | take r =>
        rw [hc] at hknows
        exact ⟨hknows.1, hroom.symm⟩
    | publish r item =>
        rw [hc] at hknows
        exact ⟨hknows.1, hroom.symm, hknows.2.2⟩
    | _ =>
        rw [hc] at hknows
        exact hknows

/-- **A store that goes where it belongs** keeps the messages in order. -/
theorem Inv.handler_step (hinv : Inv s) (hstep : handlerStep h io s = some s') (hfits : Fits (.handler h io) s) :
    Inv s' := by
  cases hh : s.handlers h with
  | loop =>
      cases io with
      | none =>
          simp only [handlerStep, hh, Option.some.injEq] at hstep
          subst hstep
          refine hinv.setHandler ?_
          cases s.running <;> exact List.nil_subset _
      | _ => simp [handlerStep, hh] at hstep
  | recv =>
      cases io with
      | none => simp [handlerStep, hh] at hstep
      | message msg =>
          simp only [handlerStep, hh] at hstep
          split at hstep
          · cases hstep
          · next hnew =>
              cases hstep
              exact hinv.message hnew
      | _ =>
          simp only [handlerStep, hh, Option.some.injEq] at hstep
          subst hstep
          exact hinv.setHandler (List.nil_subset _)
  | load msg =>
      cases io with
      | none =>
          simp only [handlerStep, hh, Option.some.injEq] at hstep
          subst hstep
          exact hinv.setHandler (by rw [hh]; exact List.Subset.refl _)
      | _ => simp [handlerStep, hh] at hstep
  | check msg w =>
      cases io with
      | none =>
          simp only [handlerStep, hh] at hstep
          split at hstep <;> cases hstep <;>
            exact hinv.setHandler (by rw [hh]; exact List.Subset.refl _)
      | _ => simp [handlerStep, hh] at hstep
  | store msg w =>
      cases io with
      | none =>
          simp only [handlerStep, hh, Option.some.injEq] at hstep
          subst hstep
          simp only [Fits, hh] at hfits
          exact (hinv.setHandler (by rw [hh]; exact List.Subset.refl _)).store hfits
      | _ => simp [handlerStep, hh] at hstep
  | publish msg w =>
      cases io with
      | none =>
          simp only [handlerStep, hh, Option.some.injEq] at hstep
          subst hstep
          exact hinv.publish hh hfits
      | _ => simp [handlerStep, hh] at hstep
  | returned => simp [handlerStep, hh] at hstep

theorem Inv.consumer_step (hinv : Inv s) (hstep : consumerStep s = some s') : Inv s' := by
  obtain ⟨horder, hnodup, hgiven, hfresh, hapart, hknows⟩ := hinv
  cases hc : s.consumer with
  | loop =>
      simp only [consumerStep, hc, Option.some.injEq] at hstep
      subst hstep
      refine ⟨horder, hnodup, hgiven, hfresh, hapart, ?_⟩
      cases s.running <;> trivial
  | load =>
      simp only [consumerStep, hc, Option.some.injEq] at hstep
      subst hstep
      exact ⟨horder, hnodup, hgiven, hfresh, hapart, rfl⟩
  | check r =>
      rw [hc] at hknows
      obtain rfl : r = s.queue.read := hknows
      simp only [consumerStep, hc] at hstep
      split at hstep
      · cases hstep
        exact ⟨horder, hnodup, hgiven, hfresh, hapart, trivial⟩
      · next hne =>
          cases hstep
          exact ⟨horder, hnodup, hgiven, hfresh, hapart, rfl, hne⟩
  | take r =>
      rw [hc] at hknows
      obtain ⟨rfl, hne⟩ := hknows
      simp only [consumerStep, hc, Option.some.injEq] at hstep
      subst hstep
      exact ⟨horder, hnodup, hgiven, hfresh, hapart, rfl, hne, rfl⟩
  | publish r msg =>
      rw [hc] at hknows
      obtain ⟨rfl, hne, rfl⟩ := hknows
      simp only [consumerStep, hc, Option.some.injEq, Ring.maskedNext_eq] at hstep
      subst hstep
      refine ⟨?_, hnodup, hgiven, hfresh, hapart, trivial⟩
      rw [Ring.contents_eq_cons hne] at horder
      dsimp only
      rw [List.append_assoc, List.singleton_append]
      exact horder
  | returned => simp [consumerStep, hc] at hstep

theorem Inv.step (hinv : Inv s) (hstep : V4.step a s = some s') (hfits : Fits a s) : Inv s' := by
  cases a with
  | handler h io => exact hinv.handler_step hstep hfits
  | consumer => exact hinv.consumer_step hstep
  | stop =>
      cases hstep
      exact ⟨hinv.order, hinv.nodup, hinv.given, hinv.fresh, hinv.apart, hinv.consumer⟩

theorem init_inv (slots : Fin (2 ^ k) → ℕ) : Inv (init slots) where
  order := Ring.contents_empty slots
  nodup := List.nodup_nil
  given := List.nil_subset _
  fresh := by simp [init, Handler.hand]
  apart := by simp [init, Handler.hand]
  consumer := trivial

end

/-- **Every pointer is delivered**, however many handlers push, in every run in which
each of their stores goes where it belongs. -/
theorem delivered_of_fits {k : ℕ} (slots : Fin (2 ^ k) → ℕ) (actions : List Action)
    (hfits : EachStep step (init slots) actions Fits) : Always step (init slots) actions Delivered := by
  have hinv := always_of_eachStep Inv (init_inv slots) (fun _ _ _ h => h.step) hfits
  intro pre hp
  exact (hinv pre hp).delivered

/-- Two handlers and a queue of two slots.  The second finds the queue full, and
pushes when the first message is popped. -/
theorem delivered_of_fits_in_turn :
    let push (h msg : ℕ) : List Action :=
      [.handler h .none, .handler h (.message msg), .handler h .none, .handler h .none]
    let actions := push 0 10 ++ [.handler 0 .none, .handler 0 .none] ++ push 1 11 ++
      List.replicate 5 .consumer ++ List.replicate 4 (.handler 1 .none)
    let s : State 1 := schedule step actions (init fun _ => 0)
    s.pushed = [10, 11] ∧ s.popped = [10] ∧ Delivered s :=
  ⟨by decide, by decide, delivered_of_fits _ _ (by decide) _ (List.prefix_refl _)⟩

/-- Both handlers load the same `write_idx_`, and the message of the first is overwritten. -/
theorem overwritten_by_second_handler :
    let push (h msg : ℕ) : List Action :=
      [.handler h .none, .handler h (.message msg), .handler h .none, .handler h .none]
    let actions := push 0 10 ++ push 1 11 ++
      [.handler 0 .none, .handler 1 .none, .handler 0 .none, .handler 1 .none]
    let s : State 1 := schedule step actions (init fun _ => 0)
    s.pushed = [10, 11] ∧ s.popped = [] ∧ s.queue.contents = [11] ∧ ¬ Delivered s := by
  intro push actions s
  have hpushed : s.pushed = [10, 11] := by decide
  have hpopped : s.popped = [] := by decide
  have hcontents : s.queue.contents = [11] := by decide
  refine ⟨hpushed, hpopped, hcontents, fun hdelivered => ?_⟩
  have hfirst := (hdelivered 10 (by rw [hpushed]; decide)).2
  rw [hpopped, hcontents] at hfirst
  exact absurd hfirst (by decide)

/-! ## In one piece -/

section
variable {k : ℕ} {s : State k}

theorem push_uninterrupted {h msg : ℕ} (hh : s.handlers h = .load msg) :
    (schedule step (List.replicate 4 (.handler h .none)) s).queue =
      (SPSCQueue.push msg s.queue).getD s.queue := by
  by_cases hfull : Ring.maskedNext s.queue.write = s.queue.read
  · simp [schedule, exec, List.replicate, attempt, step, handlerStep, State.setHandler, hh, hfull,
      SPSCQueue.push, Ring.maskedPush]
  · simp [schedule, exec, List.replicate, attempt, step, handlerStep, State.setHandler, hh, hfull,
      SPSCQueue.push, Ring.maskedPush]

theorem pop_uninterrupted (hc : s.consumer = .load) :
    let s' := schedule step (List.replicate 4 .consumer) s
    (s'.popped, s'.queue) = match SPSCQueue.pop s.queue with
      | none => (s.popped, s.queue)
      | some (msg, queue) => (s.popped ++ [msg], queue) := by
  by_cases hempty : s.queue.read = s.queue.write
  · cases hrunning : s.running <;>
      simp [schedule, exec, List.replicate, attempt, step, consumerStep, hc, hempty, hrunning,
        SPSCQueue.pop, Ring.maskedPop]
  · simp [schedule, exec, List.replicate, attempt, step, consumerStep, hc, hempty,
      SPSCQueue.pop, Ring.maskedPop]

end

end LearnCpp.Latency.V4
