/-
# `LearnCpp.Concurrency.LockFreeStack` — Treiber's stack, without a guard against reuse

`LockFreeStack` of `topics/concurrency/lockfree_stack.cpp`, for any number of
threads that push and pop.  The steps are those on memory that threads share: the
loads of `head_`, the reads of a node that may be in the stack, the
compare-exchanges, which may fail for no reason, `new` and `delete`.  The allocator
may give out any address that is not in use, that of a deleted node too.

Nodes get tickets in the order of their construction.  As long as all goes well the
stack is a chain from `head_` on, and each node that was constructed is in the chain,
with one thread, or deleted once:

    chain   ++   nodes of pushes   ++   nodes that a pop has removed   ++   popped

A pop goes wrong when the node it has loaded is deleted before it reads `next`, or
when `next` has changed until its compare-exchange, which compares addresses only,
finds the same address in `head_`.  A run without such steps is right (`safe_of_suits`).
-/
import LearnCpp.Lib.Lifetime
import LearnCpp.Lib.Linked
import LearnCpp.Lib.Schedule

namespace LearnCpp.Concurrency.LockFreeStack

open Lib

structure Node (T : Type) where
  value : T
  next : Option ℕ
  /-- Ghost: the number of the push that constructed it. -/
  ticket : ℕ
  deriving DecidableEq

/-- Where a thread is, with its local variables. -/
inductive Place (T : Type) where
  /-- between two calls -/
  | idle
  /-- in `push`, at `node->next = head_.load()` -/
  | pushLoad (node : ℕ)
  /-- in `push`, at the compare-exchange -/
  | pushCas (node : ℕ)
  /-- in `pop`, at the test of `old_head` and the read of `old_head->next` -/
  | popNext (oldHead : Option ℕ)
  /-- in `pop`, at the compare-exchange -/
  | popCas (oldHead : ℕ) (next : Option ℕ)
  /-- in `pop`, at the read of `old_head->value` -/
  | popValue (oldHead : ℕ)
  /-- in `pop`, at `delete old_head`, with the value and the ticket that were read -/
  | popDelete (oldHead : ℕ) (got : Option (ℕ × T))
  deriving DecidableEq

structure State (ι T : Type) where
  head : Option ℕ := none
  /-- The nodes by their addresses; `none` where there is none. -/
  heap : ℕ → Option (Node T) := fun _ => none
  place : ι → Place T := fun _ => .idle
  /-- Ghost: all pushes that were begun, by their tickets. -/
  pushes : List (ι × T) := []
  /-- Ghost: the tickets of the pushes that are complete. -/
  pushed : List ℕ := []
  /-- Ghost: the tickets of the nodes that a compare-exchange of a pop took out. -/
  removed : List ℕ := []
  /-- Ghost: what the pops returned, with its tickets. -/
  popped : List (ℕ × T) := []
  /-- Ghost: a pop has read from an address without a node. -/
  freedRead : Bool := false

section
variable {ι T : Type}

/-- `node->next`; there is no telling what a deleted node has there, and the null pointer
stands for it. -/
def State.link (s : State ι T) (node : ℕ) : Option ℕ := (s.heap node).bind Node.next

/-- The part of a node that no thread writes to: its ticket and its value. -/
def State.entry (s : State ι T) (node : ℕ) : Option (ℕ × T) :=
  (s.heap node).map fun n => (n.ticket, n.value)

def State.ticket (s : State ι T) (node : ℕ) : Option ℕ := (s.entry node).map Prod.fst

/-- A pop reads a node. -/
def State.read (node : ℕ) (s : State ι T) : State ι T :=
  { s with freedRead := s.freedRead || (s.heap node).isNone }

/-- `node->next = next` -/
def State.setNext (node : ℕ) (next : Option ℕ) (s : State ι T) : State ι T :=
  { s with heap := fun a =>
      if a = node then (s.heap a).map fun n => { n with next := next } else s.heap a }

/-- `new Node(value)`, at an address that is not in use -/
def State.construct (i : ι) (value : T) (address : ℕ) (s : State ι T) : State ι T :=
  { s with
    heap := Function.update s.heap address (some ⟨value, none, s.pushes.length⟩)
    pushes := s.pushes ++ [(i, value)] }

/-- The compare-exchange of `push`, when it succeeds. -/
def State.publish (node : ℕ) (s : State ι T) : State ι T :=
  { s with head := some node, pushed := s.pushed ++ (s.ticket node).toList }

/-- The compare-exchange of `pop`, when it succeeds. -/
def State.takeOut (oldHead : ℕ) (next : Option ℕ) (s : State ι T) : State ι T :=
  { s with head := next, removed := s.removed ++ (s.ticket oldHead).toList }

/-- `delete old_head`, and the return of what was read before. -/
def State.dispose (oldHead : ℕ) (got : Option (ℕ × T)) (s : State ι T) : State ι T :=
  { s with heap := Function.update s.heap oldHead none, popped := s.popped ++ got.toList }

variable [DecidableEq ι]

def State.goto (i : ι) (p : Place T) (s : State ι T) : State ι T :=
  { s with place := Function.update s.place i p }

end

inductive Action (ι T : Type) where
  /-- A thread calls `push`, and gets a node at an address. -/
  | push (i : ι) (value : T) (address : ℕ)
  /-- A thread calls `pop`, and loads `head_`. -/
  | pop (i : ι)
  /-- A thread goes on; a compare-exchange may fail spuriously. -/
  | step (i : ι) (spurious : Bool)
  deriving DecidableEq

section
variable {ι T : Type} [DecidableEq ι]

def next : Action ι T → State ι T → Option (State ι T)
  | .push i value address, s =>
      match s.place i, s.heap address with
      | .idle, none => some ((s.construct i value address).goto i (.pushLoad address))
      | _, _ => none
  | .pop i, s =>
      match s.place i with
      | .idle => some (s.goto i (.popNext s.head))
      | _ => none
  | .step i spurious, s =>
      match s.place i with
      | .idle => none
      | .pushLoad node => some ((s.setNext node s.head).goto i (.pushCas node))
      | .pushCas node =>
          if s.head = s.link node ∧ spurious = false then some ((s.publish node).goto i .idle)
          else some (s.setNext node s.head)
      | .popNext none => some (s.goto i .idle)
      | .popNext (some oldHead) =>
          some ((s.read oldHead).goto i (.popCas oldHead (s.link oldHead)))
      | .popCas oldHead next =>
          if s.head = some oldHead ∧ spurious = false then
            some ((s.takeOut oldHead next).goto i (.popValue oldHead))
          else some (s.goto i (.popNext s.head))
      | .popValue oldHead => some ((s.read oldHead).goto i (.popDelete oldHead (s.entry oldHead)))
      | .popDelete oldHead got => some ((s.dispose oldHead got).goto i .idle)

/-- The nodes that a walk from `head_` on comes to. -/
inductive Reach (s : State ι T) : ℕ → Prop
  | head {node : ℕ} : s.head = some node → Reach s node
  | next {node node' : ℕ} : Reach s node → s.link node = some node' → Reach s node'

/-- Every value is popped at most once, and as it was pushed; the value of a push that is
complete was removed or can be reached from `head_`; no pop has read a deleted node. -/
structure Safe (s : State ι T) : Prop where
  once : (s.popped.map Prod.fst).Nodup
  value : ∀ e ∈ s.popped, (s.pushes[e.1]?).map Prod.snd = some e.2
  kept : ∀ t ∈ s.pushed, t ∈ s.removed ∨ ∃ node, Reach s node ∧ s.ticket node = some t
  live : s.freedRead = false

/-- A pop reads `old_head->next` before the node is deleted, and when its compare-exchange
succeeds, that is still what the node has there. -/
def Suits : Action ι T → State ι T → Prop
  | .step i spurious, s =>
      match s.place i with
      | .popNext (some oldHead) => (s.heap oldHead).isSome
      | .popCas oldHead next => s.head = some oldHead ∧ spurious = false → s.link oldHead = next
      | _ => True
  | _, _ => True

instance (a : Action ι T) (s : State ι T) : Decidable (Suits a s) := by
  cases a with
  | push | pop => exact instDecidableTrue
  | step i spurious =>
      unfold Suits
      dsimp only
      split <;> infer_instance

end

/-! ## What a step does -/

section
variable {ι T : Type} [DecidableEq ι] {s s' : State ι T}

/-- The steps, each with what it finds. -/
inductive Moves (s : State ι T) : Action ι T → State ι T → Prop
  | push {i : ι} {address : ℕ} (value : T) : s.place i = .idle → s.heap address = none →
      Moves s (.push i value address) ((s.construct i value address).goto i (.pushLoad address))
  | pop {i : ι} : s.place i = .idle → Moves s (.pop i) (s.goto i (.popNext s.head))
  | pushLoad {i : ι} {node : ℕ} {spurious : Bool} : s.place i = .pushLoad node →
      Moves s (.step i spurious) ((s.setNext node s.head).goto i (.pushCas node))
  | publish {i : ι} {node : ℕ} : s.place i = .pushCas node → s.head = s.link node →
      Moves s (.step i false) ((s.publish node).goto i .idle)
  | pushAgain {i : ι} {node : ℕ} {spurious : Bool} : s.place i = .pushCas node →
      (s.head = s.link node → spurious = true) →
      Moves s (.step i spurious) (s.setNext node s.head)
  | popEmpty {i : ι} {spurious : Bool} : s.place i = .popNext none →
      Moves s (.step i spurious) (s.goto i .idle)
  | popNext {i : ι} {oldHead : ℕ} {spurious : Bool} : s.place i = .popNext (some oldHead) →
      Moves s (.step i spurious) ((s.read oldHead).goto i (.popCas oldHead (s.link oldHead)))
  | takeOut {i : ι} {oldHead : ℕ} {next : Option ℕ} : s.place i = .popCas oldHead next →
      s.head = some oldHead →
      Moves s (.step i false) ((s.takeOut oldHead next).goto i (.popValue oldHead))
  | popAgain {i : ι} {oldHead : ℕ} {next : Option ℕ} {spurious : Bool} :
      s.place i = .popCas oldHead next → (s.head = some oldHead → spurious = true) →
      Moves s (.step i spurious) (s.goto i (.popNext s.head))
  | popValue {i : ι} {oldHead : ℕ} {spurious : Bool} : s.place i = .popValue oldHead →
      Moves s (.step i spurious) ((s.read oldHead).goto i (.popDelete oldHead (s.entry oldHead)))
  | popDelete {i : ι} {oldHead : ℕ} {got : Option (ℕ × T)} {spurious : Bool} :
      s.place i = .popDelete oldHead got →
      Moves s (.step i spurious) ((s.dispose oldHead got).goto i .idle)

/-- A compare-exchange that fails on what it expects fails spuriously. -/
theorem spurious_of_fails {expected : Prop} {spurious : Bool}
    (hcas : ¬ (expected ∧ spurious = false)) (hexpected : expected) : spurious = true := by
  by_contra hfalse
  exact hcas ⟨hexpected, Bool.eq_false_iff.mpr hfalse⟩

theorem moves_of_next {a : Action ι T} (hstep : next a s = some s') : Moves s a s' := by
  cases a with
  | push i value address =>
      rw [next] at hstep
      split at hstep
      next hplace hfree =>
        obtain rfl := Option.some_inj.mp hstep
        exact .push value hplace hfree
      next => exact absurd hstep (Option.some_ne_none _).symm
  | pop i =>
      rw [next] at hstep
      split at hstep
      next hplace =>
        obtain rfl := Option.some_inj.mp hstep
        exact .pop hplace
      next => exact absurd hstep (Option.some_ne_none _).symm
  | step i spurious =>
      rw [next] at hstep
      cases hplace : s.place i with
      | idle =>
          rw [hplace] at hstep
          exact absurd hstep (Option.some_ne_none _).symm
      | pushLoad node =>
          rw [hplace] at hstep
          obtain rfl := Option.some_inj.mp hstep
          exact .pushLoad hplace
      | pushCas node =>
          rw [hplace] at hstep
          obtain ⟨⟨hhead, rfl⟩, heq⟩ | ⟨hcas, heq⟩ := ite_eq_iff.mp hstep
          · obtain rfl := Option.some_inj.mp heq
            exact .publish hplace hhead
          · obtain rfl := Option.some_inj.mp heq
            exact .pushAgain hplace (spurious_of_fails hcas)
      | popNext oldHead =>
          rw [hplace] at hstep
          cases oldHead with
          | none =>
              obtain rfl := Option.some_inj.mp hstep
              exact .popEmpty hplace
          | some oldHead =>
              obtain rfl := Option.some_inj.mp hstep
              exact .popNext hplace
      | popCas oldHead next =>
          rw [hplace] at hstep
          obtain ⟨⟨hhead, rfl⟩, heq⟩ | ⟨hcas, heq⟩ := ite_eq_iff.mp hstep
          · obtain rfl := Option.some_inj.mp heq
            exact .takeOut hplace hhead
          · obtain rfl := Option.some_inj.mp heq
            exact .popAgain hplace (spurious_of_fails hcas)
      | popValue oldHead =>
          rw [hplace] at hstep
          obtain rfl := Option.some_inj.mp hstep
          exact .popValue hplace
      | popDelete oldHead got =>
          rw [hplace] at hstep
          obtain rfl := Option.some_inj.mp hstep
          exact .popDelete hplace

end

/-! ## Who has which node -/

/-- The node that a thread has for itself. -/
def Place.own {T : Type} : Place T → Option ℕ
  | .pushLoad node | .pushCas node | .popValue node | .popDelete node _ => some node
  | _ => none

/-- What the memory has at the node of a thread: a node, and in it what the thread has read. -/
structure Place.Fits {T : Type} (entry : ℕ → Option (ℕ × T)) (p : Place T) : Prop where
  live : ∀ node ∈ p.own, (entry node).isSome
  got : ∀ node got, p = .popDelete node got → got = entry node

section
variable {T : Type} {entry entry' : ℕ → Option (ℕ × T)} {p : Place T}

theorem fits_of_own_none (hown : p.own = none) : p.Fits entry where
  live := by
    intro node hnode
    rw [hown] at hnode
    exact absurd hnode (Option.not_mem_none node)
  got := by
    rintro node got rfl
    cases hown

theorem Place.Fits.congr (h : p.Fits entry) (hsame : ∀ node ∈ p.own, entry' node = entry node) :
    p.Fits entry' where
  live := fun node hnode => hsame node hnode ▸ h.live node hnode
  got := fun node got hp => (h.got node got hp).trans (hsame node (congrArg Place.own hp)).symm

end

section
variable {ι T : Type} {s : State ι T} {chain rest : List ℕ} {i j : ι} {node : ℕ}

/-- The tickets of the nodes in the chain, and of those that the threads have. -/
def State.tickets (s : State ι T) (chain : List ℕ) : Option ι → List ℕ
  | none => chain.filterMap s.ticket
  | some i => (s.place i).own.toList.filterMap s.ticket

structure Inv (s : State ι T) (chain : List ℕ) : Prop where
  linked : Linked s.link s.head chain
  chainLive : ∀ node ∈ chain, (s.entry node).isSome
  fits : ∀ i, (s.place i).Fits s.entry
  custody : Custody (s.tickets chain) ⟨s.pushes.length, s.popped.map Prod.fst, true⟩
  kept : ∀ t ∈ s.pushed, t ∈ s.removed ∨ t ∈ chain.filterMap s.ticket
  entries : ∀ node, ∀ e ∈ s.entry node, (s.pushes[e.1]?).map Prod.snd = some e.2
  returned : ∀ e ∈ s.popped, (s.pushes[e.1]?).map Prod.snd = some e.2
  live : s.freedRead = false

theorem inv_init : Inv ({} : State ι T) [] where
  linked := .nil
  chainLive := fun _ h => absurd h List.not_mem_nil
  fits := fun _ => fits_of_own_none rfl
  custody := by
    have hnone : ({} : State ι T).tickets [] = fun _ => [] := by
      funext o
      cases o <;> rfl
    rw [hnone]
    exact custody_init
  kept := fun _ h => absurd h List.not_mem_nil
  entries := fun _ _ h => absurd h (Option.not_mem_none _)
  returned := fun _ h => absurd h List.not_mem_nil
  live := rfl

theorem ticket_of_live (h : (s.entry node).isSome) : ∃ t, s.ticket node = some t := by
  obtain ⟨e, he⟩ := Option.isSome_iff_exists.mp h
  exact ⟨e.1, by rw [State.ticket, he]; rfl⟩

theorem mem_tickets_own {t : ℕ} (hown : (s.place i).own = some node) (ht : s.ticket node = some t) :
    t ∈ s.tickets chain (some i) := by
  show t ∈ (s.place i).own.toList.filterMap s.ticket
  rw [hown]
  exact List.mem_filterMap.mpr ⟨node, List.mem_singleton_self node, ht⟩

theorem tickets_own {t : ℕ} (hown : (s.place i).own = some node) (ht : s.ticket node = some t) :
    s.tickets chain (some i) = [t] := by
  show (s.place i).own.toList.filterMap s.ticket = [t]
  rw [hown]
  exact List.filterMap_cons_some ht

theorem tickets_none (hown : (s.place i).own = none) : s.tickets chain (some i) = [] := by
  show (s.place i).own.toList.filterMap s.ticket = []
  rw [hown]
  rfl

theorem Inv.own_notMem (h : Inv s chain) (hown : (s.place i).own = some node) : node ∉ chain := by
  intro hmem
  obtain ⟨t, ht⟩ := ticket_of_live (h.chainLive node hmem)
  have hchain : t ∈ s.tickets chain none := List.mem_filterMap.mpr ⟨node, hmem, ht⟩
  exact h.custody.apart none (some i) (Option.some_ne_none i).symm hchain (mem_tickets_own hown ht)

theorem Inv.own_inj (h : Inv s chain) (hi : (s.place i).own = some node)
    (hj : (s.place j).own = some node) : i = j := by
  by_contra hne
  obtain ⟨t, ht⟩ := ticket_of_live ((h.fits i).live node hi)
  exact h.custody.apart (some i) (some j) (fun heq => hne (Option.some_inj.mp heq))
    (mem_tickets_own hi ht) (mem_tickets_own hj ht)

theorem reach_of_linked {head : Option ℕ} (hlinked : Linked s.link head chain)
    (hhead : ∀ b, head = some b → Reach s b) : ∀ b ∈ chain, Reach s b := by
  induction hlinked with
  | nil => exact fun _ hb => absurd hb List.not_mem_nil
  | @cons b nodes _ ih =>
      intro b' hb'
      have hb := hhead b rfl
      rcases List.mem_cons.mp hb' with rfl | hrest
      · exact hb
      · exact ih (fun _ hnext => hb.next hnext) b' hrest

/-- **What holds while all goes well is what the stack is for.** -/
theorem Inv.safe (h : Inv s chain) : Safe s := by
  refine ⟨h.custody.once, h.returned, fun t ht => ?_, h.live⟩
  rcases h.kept t ht with hremoved | hchain
  · exact .inl hremoved
  · obtain ⟨node, hnode, hticket⟩ := List.mem_filterMap.mp hchain
    exact .inr ⟨node, reach_of_linked h.linked (fun _ hb => .head hb) node hnode, hticket⟩

end

/-! ## Steps that leave every node where it is -/

section
variable {ι T : Type} [DecidableEq ι] {s : State ι T} {chain : List ℕ} {i : ι} {node : ℕ}
  {p : Place T}

theorem goto_self : (s.goto i p).place i = p := Function.update_self ..

theorem goto_of_ne {j : ι} (hne : j ≠ i) : (s.goto i p).place j = s.place j :=
  Function.update_of_ne hne ..

theorem tickets_goto_of_ne {o : Option ι} (ho : o ≠ some i) :
    (s.goto i p).tickets chain o = s.tickets chain o := by
  cases o with
  | none => rfl
  | some j =>
      have hne : j ≠ i := fun heq => ho (congrArg some heq)
      show ((s.goto i p).place j).own.toList.filterMap s.ticket = _
      rw [goto_of_ne hne]
      rfl

theorem fits_goto {entry : ℕ → Option (ℕ × T)} (hothers : ∀ j, j ≠ i → (s.place j).Fits entry)
    (hp : p.Fits entry) (j : ι) : ((s.goto i p).place j).Fits entry := by
  rcases eq_or_ne j i with rfl | hne
  · rw [goto_self]
    exact hp
  · rw [goto_of_ne hne]
    exact hothers j hne

theorem tickets_goto (hown : p.own = (s.place i).own) :
    (s.goto i p).tickets chain = s.tickets chain := by
  funext o
  by_cases ho : o = some i
  · subst ho
    show ((s.goto i p).place i).own.toList.filterMap s.ticket = _
    rw [goto_self, hown]
    rfl
  · exact tickets_goto_of_ne ho

theorem Inv.keep_goto (h : Inv s chain) (hown : p.own = (s.place i).own) (hp : p.Fits s.entry) :
    Inv (s.goto i p) chain := by
  refine ⟨h.linked, h.chainLive, fits_goto (fun j _ => h.fits j) hp, ?_, h.kept, h.entries,
    h.returned, h.live⟩
  rw [tickets_goto hown]
  exact h.custody

omit [DecidableEq ι] in
theorem read_eq (hnode : (s.heap node).isSome) : s.read node = s := by
  obtain ⟨n, hn⟩ := Option.isSome_iff_exists.mp hnode
  rw [State.read, hn]
  show { s with freedRead := s.freedRead || false } = s
  rw [Bool.or_false]

omit [DecidableEq ι] in
theorem heap_of_entry (hnode : (s.entry node).isSome) : (s.heap node).isSome := by
  rwa [State.entry, Option.isSome_map] at hnode

omit [DecidableEq ι] in
theorem entry_setNext (next : Option ℕ) : (s.setNext node next).entry = s.entry := by
  funext a
  show Option.map _ (if a = node then _ else _) = _
  split
  next => rw [Option.map_map]; rfl
  next => rfl

omit [DecidableEq ι] in
theorem link_setNext_of_ne {next : Option ℕ} {a : ℕ} (hne : a ≠ node) :
    (s.setNext node next).link a = s.link a := by
  show Option.bind (if a = node then _ else _) _ = _
  rw [if_neg hne]
  rfl

omit [DecidableEq ι] in
theorem ticket_setNext (next : Option ℕ) : (s.setNext node next).ticket = s.ticket := by
  funext a
  rw [State.ticket, entry_setNext]
  rfl

omit [DecidableEq ι] in
theorem tickets_setNext (next : Option ℕ) : (s.setNext node next).tickets chain = s.tickets chain := by
  funext o
  cases o with
  | none => exact congrArg (chain.filterMap ·) (ticket_setNext next)
  | some j => exact congrArg ((s.place j).own.toList.filterMap ·) (ticket_setNext next)

omit [DecidableEq ι] in
theorem Inv.keep_setNext (h : Inv s chain) (hown : (s.place i).own = some node) (next : Option ℕ) :
    Inv (s.setNext node next) chain := by
  have hentry : (s.setNext node next).entry = s.entry := entry_setNext next
  refine ⟨?_, ?_, ?_, ?_, ?_, ?_, h.returned, h.live⟩
  · refine h.linked.congr fun a ha => link_setNext_of_ne ?_
    rintro rfl
    exact h.own_notMem hown ha
  · rw [hentry]
    exact h.chainLive
  · rw [hentry]
    exact h.fits
  · rw [tickets_setNext]
    exact h.custody
  · rw [ticket_setNext]
    exact h.kept
  · rw [hentry]
    exact h.entries

end

/-! ## Steps that move a node -/

section
variable {ι T : Type} {s : State ι T} {chain rest : List ℕ} {i : ι} {node : ℕ} {p : Place T}

theorem nodup_owners (i : ι) : [none, some i].Nodup :=
  List.nodup_cons.mpr ⟨List.mem_singleton.not.mpr (Option.some_ne_none i).symm, List.nodup_singleton _⟩

theorem entry_dispose_of_ne {got : Option (ℕ × T)} {a : ℕ} (hne : a ≠ node) :
    (s.dispose node got).entry a = s.entry a := by
  show Option.map _ (Function.update s.heap node none a) = _
  rw [Function.update_of_ne hne]
  rfl

theorem ticket_dispose_of_ne {got : Option (ℕ × T)} {a : ℕ} (hne : a ≠ node) :
    (s.dispose node got).ticket a = s.ticket a := congrArg (Option.map Prod.fst) (entry_dispose_of_ne hne)

theorem entry_construct_of_ne {value : T} {a : ℕ} (hne : a ≠ node) :
    (s.construct i value node).entry a = s.entry a := by
  show Option.map _ (Function.update s.heap node _ a) = _
  rw [Function.update_of_ne hne]
  rfl

theorem ticket_construct_of_ne {value : T} {a : ℕ} (hne : a ≠ node) :
    (s.construct i value node).ticket a = s.ticket a :=
  congrArg (Option.map Prod.fst) (entry_construct_of_ne hne)

theorem entry_construct_self {value : T} :
    (s.construct i value node).entry node = some (s.pushes.length, value) := by
  show Option.map _ (Function.update s.heap node _ node) = _
  rw [Function.update_self]
  rfl

theorem pushes_append {pushes : List (ι × T)} {e : ℕ × T} (p : ι × T)
    (he : (pushes[e.1]?).map Prod.snd = some e.2) :
    ((pushes ++ [p])[e.1]?).map Prod.snd = some e.2 := by
  obtain ⟨q, hq, -⟩ := Option.map_eq_some_iff.mp he
  rw [List.getElem?_append_left (List.getElem?_eq_some_iff.mp hq).1]
  exact he

variable [DecidableEq ι]

/-- **The compare-exchange of a push puts its node in front of the chain.** -/
theorem Inv.keep_publish (h : Inv s chain) (hown : (s.place i).own = some node)
    (hhead : s.head = s.link node) : Inv ((s.publish node).goto i .idle) (node :: chain) := by
  obtain ⟨t, ht⟩ := ticket_of_live ((h.fits i).live node hown)
  have hnew : (node :: chain).filterMap s.ticket = t :: chain.filterMap s.ticket :=
    List.filterMap_cons_some ht
  have hi : ((s.publish node).goto i .idle).tickets (node :: chain) (some i) = [] :=
    tickets_none (congrArg Place.own goto_self)
  refine ⟨?_, ?_, fits_goto (fun j _ => h.fits j) (fits_of_own_none rfl), ?_, ?_, h.entries,
    h.returned, h.live⟩
  · refine .cons ?_
    show Linked s.link (s.link node) chain
    exact hhead ▸ h.linked
  · intro a ha
    rcases List.mem_cons.mp ha with rfl | ha
    · exact (h.fits i).live a hown
    · exact h.chainLive a ha
  · refine h.custody.change (nodup_owners i) ?_ ?_
    · refine Handover.of_perm ?_ rfl rfl
      rw [List.flatMap_cons, List.flatMap_singleton, List.flatMap_cons, List.flatMap_singleton, hi,
        tickets_own hown ht, List.append_nil]
      show ((node :: chain).filterMap s.ticket).Perm (chain.filterMap s.ticket ++ [t])
      rw [hnew]
      exact (List.perm_append_singleton t _).symm
    · intro o ho
      rw [List.mem_cons, List.mem_singleton, not_or] at ho
      cases o with
      | none => exact absurd rfl ho.1
      | some j => exact tickets_goto_of_ne ho.2
  · intro t' ht'
    show t' ∈ s.removed ∨ t' ∈ (node :: chain).filterMap s.ticket
    rw [hnew]
    rcases List.mem_append.mp ht' with hold | hself
    · exact (h.kept t' hold).imp_right (List.mem_cons_of_mem t)
    · rw [ht] at hself
      exact .inr (List.mem_singleton.mp hself ▸ List.mem_cons_self)

/-- **The compare-exchange of a pop takes the first node off the chain**, if `next` is
what it has there. -/
theorem Inv.keep_takeOut (h : Inv s (node :: rest)) (hown : (s.place i).own = none) :
    Inv ((s.takeOut node (s.link node)).goto i (.popValue node)) rest := by
  obtain ⟨t, ht⟩ := ticket_of_live (h.chainLive node List.mem_cons_self)
  have hold : (node :: rest).filterMap s.ticket = t :: rest.filterMap s.ticket :=
    List.filterMap_cons_some ht
  have hi : ((s.takeOut node (s.link node)).goto i (.popValue node)).tickets rest (some i) = [t] :=
    tickets_own (congrArg Place.own goto_self) ht
  have hfits : (Place.popValue node : Place T).Fits s.entry := by
    refine ⟨?_, ?_⟩
    · intro a ha
      obtain rfl := Option.some_inj.mp ha
      exact h.chainLive _ List.mem_cons_self
    · intro _ _ hp
      cases hp
  refine ⟨?_, ?_, fits_goto (fun j _ => h.fits j) hfits, ?_, ?_, h.entries, h.returned, h.live⟩
  · have hlinked := h.linked
    rw [hlinked.head_eq_some] at hlinked
    obtain ⟨rest', heq, hrest⟩ := hlinked.eq_cons
    obtain rfl := (List.cons.inj heq).2
    exact hrest
  · exact fun a ha => h.chainLive a (List.mem_cons_of_mem node ha)
  · refine h.custody.change (nodup_owners i) ?_ ?_
    · refine Handover.of_perm ?_ rfl rfl
      rw [List.flatMap_cons, List.flatMap_singleton, List.flatMap_cons, List.flatMap_singleton, hi,
        tickets_none hown, List.append_nil]
      show (rest.filterMap s.ticket ++ [t]).Perm ((node :: rest).filterMap s.ticket)
      rw [hold]
      exact List.perm_append_singleton t _
    · intro o ho
      rw [List.mem_cons, List.mem_singleton, not_or] at ho
      cases o with
      | none => exact absurd rfl ho.1
      | some j => exact tickets_goto_of_ne ho.2
  · intro t' ht'
    show t' ∈ s.removed ++ (s.ticket node).toList ∨ t' ∈ rest.filterMap s.ticket
    rw [ht]
    rcases h.kept t' ht' with hremoved | hchain
    · exact .inl (List.mem_append_left _ hremoved)
    · rw [hold] at hchain
      rcases List.mem_cons.mp hchain with rfl | hrest
      · exact .inl (List.mem_append_right _ (List.mem_singleton_self _))
      · exact .inr hrest

/-- **A pop deletes the node that it has taken out.** -/
theorem Inv.keep_dispose (h : Inv s chain) {got : Option (ℕ × T)}
    (hplace : s.place i = .popDelete node got) : Inv ((s.dispose node got).goto i .idle) chain := by
  have hown : (s.place i).own = some node := congrArg Place.own hplace
  obtain ⟨e, he⟩ := Option.isSome_iff_exists.mp ((h.fits i).live node hown)
  have ht : s.ticket node = some e.1 := by
    rw [State.ticket, he]
    rfl
  obtain rfl : got = some e := ((h.fits i).got node got hplace).trans he
  have hchain : ∀ a ∈ chain, a ≠ node := by
    rintro a ha rfl
    exact h.own_notMem hown ha
  have hothers : ∀ j, j ≠ i → ∀ a ∈ (s.place j).own, a ≠ node := by
    rintro j hne a ha rfl
    exact hne (h.own_inj ha hown)
  have hentry : ∀ a, a ≠ node → (s.dispose node (some e)).entry a = s.entry a :=
    fun a hne => entry_dispose_of_ne hne
  have hkeep : chain.filterMap (s.dispose node (some e)).ticket = chain.filterMap s.ticket :=
    List.filterMap_congr fun a ha => ticket_dispose_of_ne (hchain a ha)
  have hpopped : ∀ e' ∈ s.popped ++ (some e).toList, (s.pushes[e'.1]?).map Prod.snd = some e'.2 := by
    intro e' he'
    rcases List.mem_append.mp he' with hold | hself
    · exact h.returned e' hold
    · obtain rfl := List.mem_singleton.mp hself
      exact h.entries node e' he
  refine ⟨?_, ?_, ?_, ?_, ?_, ?_, hpopped, h.live⟩
  · refine h.linked.congr fun a ha => ?_
    show (Function.update s.heap node none a).bind _ = _
    rw [Function.update_of_ne (hchain a ha)]
    rfl
  · intro a ha
    show ((s.dispose node (some e)).entry a).isSome
    rw [hentry a (hchain a ha)]
    exact h.chainLive a ha
  · refine fits_goto (fun j hne => (h.fits j).congr fun a ha => ?_) (fits_of_own_none rfl)
    exact hentry a (hothers j hne a ha)
  · refine h.custody.change (List.nodup_singleton (some i)) ?_ ?_
    · rw [List.flatMap_singleton, List.flatMap_singleton, tickets_own hown ht,
        tickets_none (congrArg Place.own goto_self)]
      have hover := Handover.destroy [] [e.1] ⟨s.pushes.length, s.popped.map Prod.fst, true⟩
      show Handover [e.1] _ [] ⟨_, (s.popped ++ [e]).map Prod.fst, true⟩
      rw [List.map_append]
      exact hover
    · intro o ho
      rw [tickets_goto_of_ne (List.mem_singleton.not.mp ho)]
      cases o with
      | none => exact hkeep
      | some j =>
          have hne : j ≠ i := fun heq => ho (List.mem_singleton.mpr (congrArg some heq))
          refine List.filterMap_congr fun a ha => ticket_dispose_of_ne ?_
          exact hothers j hne a (Option.mem_toList.mp ha)
  · show ∀ t ∈ s.pushed, t ∈ s.removed ∨ t ∈ chain.filterMap (s.dispose node (some e)).ticket
    rw [hkeep]
    exact h.kept
  · intro a e' he'
    by_cases ha : a = node
    · subst ha
      have hgone : (s.dispose a (some e)).entry a = none := by
        show Option.map _ (Function.update s.heap a none a) = none
        rw [Function.update_self]
        rfl
      exact absurd (hgone ▸ he' : e' ∈ (none : Option (ℕ × T))) (Option.not_mem_none e')
    · exact h.entries a e' ((hentry a ha).symm.trans he')

omit [DecidableEq ι] in
theorem Inv.ne_of_free (h : Inv s chain) (hfree : s.heap node = none) :
    (∀ a ∈ chain, a ≠ node) ∧ ∀ j, ∀ a ∈ (s.place j).own, a ≠ node := by
  have hdead : ∀ a, (s.entry a).isSome → a ≠ node := by
    rintro a ha rfl
    rw [State.entry, hfree] at ha
    exact Bool.false_ne_true ha
  exact ⟨fun a ha => hdead a (h.chainLive a ha), fun j a ha => hdead a ((h.fits j).live a ha)⟩

theorem Inv.tickets_construct_of_ne (h : Inv s chain) (hfree : s.heap node = none) (value : T)
    {o : Option ι} (ho : o ≠ some i) :
    ((s.construct i value node).goto i p).tickets chain o = s.tickets chain o := by
  obtain ⟨hchain, hothers⟩ := h.ne_of_free hfree
  rw [tickets_goto_of_ne ho]
  cases o with
  | none => exact List.filterMap_congr fun a ha => ticket_construct_of_ne (hchain a ha)
  | some j =>
      refine List.filterMap_congr fun a ha => ticket_construct_of_ne ?_
      exact hothers j a (Option.mem_toList.mp ha)

theorem tickets_construct {value : T} (hp : p.own = some node) :
    ((s.construct i value node).goto i p).tickets chain (some i) = [s.pushes.length] := by
  have ht : (s.construct i value node).ticket node = some s.pushes.length :=
    congrArg (Option.map Prod.fst) entry_construct_self
  exact tickets_own (s := (s.construct i value node).goto i p) ((congrArg Place.own goto_self).trans hp) ht

/-- **A push constructs its node at an address that nobody knows.** -/
theorem Inv.keep_construct (h : Inv s chain) (hplace : s.place i = .idle) (hfree : s.heap node = none)
    (value : T) : Inv ((s.construct i value node).goto i (.pushLoad node)) chain := by
  have hown : (s.place i).own = none := congrArg Place.own hplace
  obtain ⟨hchain, hothers⟩ := h.ne_of_free hfree
  have hentry : ∀ a, a ≠ node → (s.construct i value node).entry a = s.entry a :=
    fun a hne => entry_construct_of_ne hne
  have hkeep : chain.filterMap (s.construct i value node).ticket = chain.filterMap s.ticket :=
    List.filterMap_congr fun a ha => ticket_construct_of_ne (hchain a ha)
  have hself : (s.construct i value node).entry node = some (s.pushes.length, value) :=
    entry_construct_self
  have hfits : (Place.pushLoad node : Place T).Fits (s.construct i value node).entry := by
    refine ⟨?_, ?_⟩
    · intro a ha
      obtain rfl := Option.some_inj.mp ha
      rw [hself]
      rfl
    · intro _ _ hp
      cases hp
  refine ⟨?_, ?_, ?_, ?_, ?_, ?_, ?_, h.live⟩
  · refine h.linked.congr fun a ha => ?_
    show (Function.update s.heap node _ a).bind _ = _
    rw [Function.update_of_ne (hchain a ha)]
    rfl
  · intro a ha
    show ((s.construct i value node).entry a).isSome
    rw [hentry a (hchain a ha)]
    exact h.chainLive a ha
  · refine fits_goto (fun j _ => (h.fits j).congr fun a ha => ?_) hfits
    exact hentry a (hothers j a ha)
  · refine h.custody.change (List.nodup_singleton (some i)) ?_ ?_
    · rw [List.flatMap_singleton, List.flatMap_singleton, tickets_none hown, tickets_construct rfl]
      have hover := Handover.construct [] 1 ⟨s.pushes.length, s.popped.map Prod.fst, true⟩
      show Handover [] _ [s.pushes.length] ⟨(s.pushes ++ [(i, value)]).length, _, true⟩
      rw [List.length_append]
      exact hover
    · exact fun o ho => h.tickets_construct_of_ne hfree value (List.mem_singleton.not.mp ho)
  · show ∀ t ∈ s.pushed, t ∈ s.removed ∨ t ∈ chain.filterMap (s.construct i value node).ticket
    rw [hkeep]
    exact h.kept
  · intro a e he
    show (((s.pushes ++ [(i, value)])[e.1]?).map Prod.snd) = some e.2
    by_cases ha : a = node
    · subst ha
      obtain rfl := Option.some_inj.mp (hself.symm.trans he)
      rw [List.getElem?_concat_length]
      rfl
    · exact pushes_append _ (h.entries a e ((hentry a ha).symm.trans he))
  · exact fun e he => pushes_append _ (h.returned e he)

end

/-! ## Runs -/

section
variable {ι T : Type} [DecidableEq ι] {s s' : State ι T} {chain : List ℕ}

omit [DecidableEq ι] in
/-- What a thread finds in the stack when its compare-exchange succeeds. -/
theorem Inv.chain_eq (h : Inv s chain) {node : ℕ} (hhead : s.head = some node) :
    ∃ rest, chain = node :: rest := by
  have hlinked := h.linked
  rw [hhead] at hlinked
  obtain ⟨rest, heq, -⟩ := hlinked.eq_cons
  exact ⟨rest, heq⟩

/-- **A step that suits keeps the chain**, with one node more or less. -/
theorem Inv.keep_next (h : Inv s chain) {a : Action ι T} (hstep : next a s = some s')
    (hsuits : Suits a s) : ∃ chain', Inv s' chain' := by
  cases moves_of_next hstep with
  | push value hplace hfree => exact ⟨chain, h.keep_construct hplace hfree value⟩
  | pop hplace => exact ⟨chain, h.keep_goto (congrArg Place.own hplace).symm (fits_of_own_none rfl)⟩
  | @pushLoad i node spurious hplace =>
      have hown : (s.place i).own = some node := congrArg Place.own hplace
      have hset := h.keep_setNext hown s.head
      refine ⟨chain, hset.keep_goto hown.symm ⟨?_, ?_⟩⟩
      · exact fun a ha => (hset.fits i).live a (hown.trans ha)
      · intro _ _ hp
        cases hp
  | publish hplace hhead => exact ⟨_, h.keep_publish (congrArg Place.own hplace) hhead⟩
  | pushAgain hplace => exact ⟨chain, h.keep_setNext (congrArg Place.own hplace) s.head⟩
  | popEmpty hplace =>
      exact ⟨chain, h.keep_goto (congrArg Place.own hplace).symm (fits_of_own_none rfl)⟩
  | @popNext i oldHead spurious hplace =>
      have hlive : (s.heap oldHead).isSome := by
        rw [Suits, hplace] at hsuits
        exact hsuits
      rw [read_eq hlive]
      exact ⟨chain, h.keep_goto (congrArg Place.own hplace).symm (fits_of_own_none rfl)⟩
  | @takeOut i oldHead next hplace hhead =>
      obtain rfl : s.link oldHead = next := by
        rw [Suits, hplace] at hsuits
        exact hsuits ⟨hhead, rfl⟩
      obtain ⟨rest, rfl⟩ := h.chain_eq hhead
      exact ⟨rest, h.keep_takeOut (congrArg Place.own hplace)⟩
  | popAgain hplace =>
      exact ⟨chain, h.keep_goto (congrArg Place.own hplace).symm (fits_of_own_none rfl)⟩
  | @popValue i oldHead spurious hplace =>
      have hown : (s.place i).own = some oldHead := congrArg Place.own hplace
      rw [read_eq (heap_of_entry ((h.fits i).live oldHead hown))]
      refine ⟨chain, h.keep_goto hown.symm ⟨?_, ?_⟩⟩
      · exact fun a ha => (h.fits i).live a (hown.trans ha)
      · intro node got hp
        cases hp
        rfl
  | popDelete hplace => exact ⟨chain, h.keep_dispose hplace⟩

/-- **The stack is right as long as no pop is overtaken.**  In a run in which each pop
reads `old_head->next` before the node is deleted, and its compare-exchange succeeds only
while that is what the node has there, every value is popped at most once, no value of a
complete push is lost, and no pop reads a deleted node. -/
theorem safe_of_suits (as : List (Action ι T)) (h : EachStep next ({} : State ι T) as Suits) :
    Always next ({} : State ι T) as Safe := by
  have hinv : Always next ({} : State ι T) as fun s => ∃ chain, Inv s chain := by
    refine always_of_eachStep _ ⟨[], inv_init⟩ ?_ h
    rintro a s s' ⟨chain, hs⟩ hstep hsuits
    exact hs.keep_next hstep hsuits
  intro pre hpre
  obtain ⟨chain, hs⟩ := hinv pre hpre
  exact hs.safe

/-- A push next to a pop, whose first compare-exchange fails because of it. -/
theorem safe_overlap : Always next ({} : State Bool ℕ)
    [.push true 7 0, .step true false, .step true false, .push true 8 1, .pop false,
      .step true false, .step false false, .step true false, .step false false, .step false false,
      .step false false, .step false false, .step false false] Safe :=
  safe_of_suits _ (by decide)

/-- The steps of a push that no other thread gets in the way of. -/
def pushSteps (i : ι) (value : T) (address : ℕ) : List (Action ι T) :=
  [.push i value address, .step i false, .step i false]

/-- The steps of a pop that no other thread gets in the way of. -/
def popSteps (i : ι) : List (Action ι T) :=
  [.pop i, .step i false, .step i false, .step i false, .step i false]

/-- A thread has loaded `head_` and read `next`.  Before its compare-exchange, another one
pops both nodes and pushes two values, the second at the address of the first node. -/
def aba : List (Action Bool ℕ) :=
  pushSteps true 10 1 ++ pushSteps true 20 0 ++ [.pop false, .step false false] ++
    popSteps true ++ popSteps true ++ pushSteps true 30 2 ++ pushSteps true 40 0 ++
    [.step false false]

/-- **It loses a value**: `head_` is the address of the node that was deleted, and the
node of the push of 30 is neither removed nor to be reached. -/
theorem aba_not_safe : ¬ Always next ({} : State Bool ℕ) aba Safe := by
  intro h
  have hsafe := h aba (List.prefix_refl aba)
  have hhead : (schedule next aba ({} : State Bool ℕ)).head = some 1 := by decide
  have hfree : (schedule next aba ({} : State Bool ℕ)).heap 1 = none := by decide
  have hreach : ∀ node, Reach (schedule next aba ({} : State Bool ℕ)) node → node = 1 := by
    intro node hnode
    induction hnode with
    | head hnode => exact (Option.some_inj.mp (hhead.symm.trans hnode)).symm
    | next _ hlink ih =>
        rw [ih, State.link, hfree] at hlink
        cases hlink
  rcases hsafe.kept 2 (by decide) with hremoved | ⟨node, hnode, hticket⟩
  · exact absurd hremoved (by decide)
  · rw [hreach node hnode, State.ticket, State.entry, hfree] at hticket
    cases hticket

end

end LearnCpp.Concurrency.LockFreeStack
