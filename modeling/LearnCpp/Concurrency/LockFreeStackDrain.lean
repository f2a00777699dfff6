/-
# `LearnCpp.Concurrency.LockFreeStackDrain` — many threads push, and then one pops

`main` of `topics/concurrency/lockfree_stack.cpp` joins its threads, each of which
has pushed some values, and then pops until the stack is empty.  Nobody pops while
the threads push, so no node is deleted then, and nobody else is there when the last
thread pops, so what it reads is what its compare-exchange finds: both phases suit
the stack (`LearnCpp.Concurrency.LockFreeStack`).

The chain has the nodes of a thread in the reverse of the order of its pushes, and
a node that a thread has for itself is later than all of its nodes in the chain; a
compare-exchange that fails changes neither.  While the stack is drained,

    popped   ++   what the thread has in hand   ++   the entries of the chain

stays the same.  What was pushed and what was popped, the calls say: their arguments,
and what they returned.
-/
import LearnCpp.Concurrency.LockFreeStack

namespace LearnCpp.Concurrency.LockFreeStack

open Lib

section
variable {ι T : Type}

/-- All pushes as pops would return them: each with its ticket. -/
def numbered (pushes : List (ι × T)) : List (ℕ × T) := pushes.zipIdx.map fun p => (p.2, p.1.2)

/-- The thread whose push has a ticket. -/
def pusher (pushes : List (ι × T)) (t : ℕ) : Option ι := (pushes[t]?).map Prod.fst

variable [DecidableEq ι]

/-- The value that a call of `push` is given. -/
def pushedBy : Action ι T → State ι T → List (ι × T)
  | .push i value _, _ => [(i, value)]
  | .pop _, _ | .step _ _, _ => []

/-- What a call of `pop` returns, in its last step, with the ticket of the node. -/
def poppedBy : Action ι T → State ι T → List (ℕ × T)
  | .step i _, s =>
      match s.place i with
      | .popDelete _ got => got.toList
      | _ => []
  | .push _ _ _, _ | .pop _, _ => []

/-- What was popped is what was pushed, each value once, and the values of each thread come in
the reverse of the order in which it pushed them. -/
structure Drained (pushes : List (ι × T)) (popped : List (ℕ × T)) : Prop where
  all : popped.Perm (numbered pushes)
  reverse : ∀ i, (popped.filter fun e => pusher pushes e.1 = some i).map Prod.snd =
    ((pushes.filter fun p => p.1 = i).map Prod.snd).reverse

/-- An action of the thread `j`, other than a call of `push`. -/
def Action.PopsBy (j : ι) : Action ι T → Prop
  | .push _ _ _ => False
  | .pop i => i = j
  | .step i _ => i = j

instance (j : ι) : (a : Action ι T) → Decidable (a.PopsBy j)
  | .push _ _ _ => instDecidableFalse
  | .pop i => inferInstanceAs (Decidable (i = j))
  | .step i _ => inferInstanceAs (Decidable (i = j))

end

/-! ## The order of the tickets -/

section
variable {ι T : Type} {pushes : List (ι × T)} {holder holder' : Option ι → List ℕ} {i : ι} {t : ℕ}

/-- Of two tickets of one thread, the first is the later one. -/
def Later (pushes : List (ι × T)) (t t' : ℕ) : Prop := pusher pushes t = pusher pushes t' → t' < t

/-- The chain (`none`) has the tickets of each thread in the reverse of their order, and those that
a thread has for itself are its own, and later than its tickets in the chain. -/
structure Ordered (pushes : List (ι × T)) (holder : Option ι → List ℕ) : Prop where
  chain : (holder none).Pairwise (Later pushes)
  own : ∀ i, ∀ t ∈ holder (some i), pusher pushes t = some i
  above : ∀ i, ∀ t ∈ holder (some i), ∀ t' ∈ holder none, pusher pushes t' = some i → t' < t

theorem ordered_init : Ordered ([] : List (ι × T)) fun _ => [] where
  chain := .nil
  own := fun _ _ h => absurd h List.not_mem_nil
  above := fun _ _ h => absurd h List.not_mem_nil

theorem pusher_append (ht : t < pushes.length) (p : ι × T) :
    pusher (pushes ++ [p]) t = pusher pushes t := by
  rw [pusher, List.getElem?_append_left ht]
  rfl

theorem pusher_concat_length (p : ι × T) : pusher (pushes ++ [p]) pushes.length = some p.1 := by
  rw [pusher, List.getElem?_concat_length]
  rfl

/-- **A thread begins a push**, and gets the next ticket. -/
theorem Ordered.begin (h : Ordered pushes holder) (hlt : ∀ o, ∀ t ∈ holder o, t < pushes.length)
    (value : T) (hself : holder' (some i) = [pushes.length])
    (hsame : ∀ o, o ≠ some i → holder' o = holder o) : Ordered (pushes ++ [(i, value)]) holder' := by
  have hchain : holder' none = holder none := hsame none (Option.some_ne_none i).symm
  have hpusher : ∀ o, ∀ t ∈ holder o, pusher (pushes ++ [(i, value)]) t = pusher pushes t :=
    fun o t ht => pusher_append (hlt o t ht) _
  refine ⟨?_, fun j t ht => ?_, fun j t ht t' ht' hmine => ?_⟩
  · rw [hchain]
    refine h.chain.imp_of_mem fun ht ht' hlater => ?_
    rw [Later, hpusher none _ ht, hpusher none _ ht']
    exact hlater
  · rcases eq_or_ne j i with rfl | hne
    · rw [hself] at ht
      obtain rfl := List.mem_singleton.mp ht
      exact pusher_concat_length _
    · rw [hsame _ fun heq => hne (Option.some_inj.mp heq)] at ht
      rw [hpusher _ t ht]
      exact h.own j t ht
  · rw [hchain] at ht'
    rcases eq_or_ne j i with rfl | hne
    · rw [hself] at ht
      obtain rfl := List.mem_singleton.mp ht
      exact hlt none t' ht'
    · rw [hsame _ fun heq => hne (Option.some_inj.mp heq)] at ht
      rw [hpusher none t' ht'] at hmine
      exact h.above j t ht t' ht' hmine

/-- **A thread completes its push**: its ticket comes to the front of the chain. -/
theorem Ordered.publish (h : Ordered pushes holder) (ht : holder (some i) = [t])
    (hchain : holder' none = t :: holder none) (hself : holder' (some i) = [])
    (hsame : ∀ j, j ≠ i → holder' (some j) = holder (some j)) : Ordered pushes holder' := by
  have hmem : t ∈ holder (some i) := ht ▸ List.mem_singleton_self t
  have hown := h.own i t hmem
  refine ⟨?_, fun j t' ht' => ?_, fun j t' ht' t'' ht'' hmine => ?_⟩
  · rw [hchain]
    refine .cons (fun t' ht' heq => ?_) h.chain
    exact h.above i t hmem t' ht' (heq.symm.trans hown)
  · rcases eq_or_ne j i with rfl | hne
    · rw [hself] at ht'
      cases ht'
    · rw [hsame j hne] at ht'
      exact h.own j t' ht'
  · rcases eq_or_ne j i with rfl | hne
    · rw [hself] at ht'
      cases ht'
    · rw [hsame j hne] at ht'
      rw [hchain] at ht''
      rcases List.mem_cons.mp ht'' with rfl | hold
      · exact absurd (Option.some_inj.mp (hown.symm.trans hmine)).symm hne
      · exact h.above j t' ht' t'' hold hmine

end

/-! ## What the order of the tickets comes to -/

section
variable {ι T : Type} {pushes : List (ι × T)} {popped : List (ℕ × T)} {e : ℕ × T}

theorem mem_numbered : e ∈ numbered pushes ↔ (pushes[e.1]?).map Prod.snd = some e.2 := by
  rw [numbered, List.mem_map, Option.map_eq_some_iff]
  constructor
  · rintro ⟨⟨p, t⟩, hp, rfl⟩
    exact ⟨p, List.mk_mem_zipIdx_iff_getElem?.mp hp, rfl⟩
  · rintro ⟨p, hp, hvalue⟩
    exact ⟨(p, e.1), List.mk_mem_zipIdx_iff_getElem?.mpr hp, Prod.ext rfl hvalue⟩

theorem numbered_map_fst : (numbered pushes).map Prod.fst = List.range pushes.length := by
  rw [numbered, List.map_map, List.range_eq_range']
  exact List.zipIdx_map_snd 0 pushes

theorem perm_numbered (htickets : (popped.map Prod.fst).Perm (List.range pushes.length))
    (hvalues : ∀ e ∈ popped, (pushes[e.1]?).map Prod.snd = some e.2) :
    popped.Perm (numbered pushes) := by
  have hnodup : (popped.map Prod.fst).Nodup := htickets.nodup_iff.mpr List.nodup_range
  have hnodup' : ((numbered pushes).map Prod.fst).Nodup := numbered_map_fst ▸ List.nodup_range
  refine (List.perm_ext_iff_of_nodup hnodup.of_map hnodup'.of_map).mpr fun e => ?_
  rw [mem_numbered]
  refine ⟨hvalues e, fun hvalue => ?_⟩
  obtain ⟨p, hp, -⟩ := Option.map_eq_some_iff.mp hvalue
  have ht : e.1 ∈ popped.map Prod.fst :=
    htickets.mem_iff.mpr (List.mem_range.mpr (List.getElem?_eq_some_iff.mp hp).1)
  obtain ⟨e', he', hticket⟩ := List.mem_map.mp ht
  have hsame : some e'.2 = some e.2 := by
    rw [← hvalues e' he', hticket, hvalue]
  exact Prod.ext hticket (Option.some_inj.mp hsame) ▸ he'

variable [DecidableEq ι]

theorem numbered_filter (i : ι) :
    ((numbered pushes).filter fun e => pusher pushes e.1 = some i).map Prod.snd =
      (pushes.filter fun p => p.1 = i).map Prod.snd := by
  have hthread : pushes.zipIdx.filter (fun p => pusher pushes p.2 = some i) =
      pushes.zipIdx.filter fun p => p.1.1 = i := by
    refine List.filter_congr fun p hp => ?_
    have hpush : pusher pushes p.2 = some p.1.1 :=
      congrArg (Option.map Prod.fst) (List.mk_mem_zipIdx_iff_getElem?.mp hp)
    rw [hpush]
    exact decide_eq_decide.mpr Option.some_inj
  calc ((numbered pushes).filter fun e => pusher pushes e.1 = some i).map Prod.snd
      = (pushes.zipIdx.filter fun p => pusher pushes p.2 = some i).map fun p => p.1.2 := by
        rw [numbered, List.filter_map, List.map_map]
        rfl
    _ = ((pushes.zipIdx.map Prod.fst).filter fun p => p.1 = i).map Prod.snd := by
        rw [hthread, List.filter_map, List.map_map]
        rfl
    _ = (pushes.filter fun p => p.1 = i).map Prod.snd := by
        rw [List.zipIdx_map_fst]

/-- **Entries in the order of the chain come as they should.** -/
theorem drained_of_ordered (hall : popped.Perm (numbered pushes))
    (horder : (popped.map Prod.fst).Pairwise (Later pushes)) : Drained pushes popped := by
  refine ⟨hall, fun i => ?_⟩
  have hpopped : (popped.filter fun e => pusher pushes e.1 = some i).reverse.Pairwise
      fun e e' => e.1 < e'.1 := by
    refine List.pairwise_reverse.mpr (((List.pairwise_map.mp horder).filter _).imp_of_mem ?_)
    intro e e' he he' hlater
    have hi := of_decide_eq_true (List.mem_filter.mp he).2
    have hi' := of_decide_eq_true (List.mem_filter.mp he').2
    exact hlater (hi.trans hi'.symm)
  have hnumbered : ((numbered pushes).filter fun e => pusher pushes e.1 = some i).Pairwise
      fun e e' => e.1 < e'.1 := by
    refine (List.pairwise_map.mp ?_).filter _
    rw [numbered_map_fst]
    exact List.pairwise_lt_range
  have heq : (popped.filter fun e => pusher pushes e.1 = some i).reverse =
      (numbered pushes).filter fun e => pusher pushes e.1 = some i := by
    refine List.Perm.eq_of_pairwise (fun e e' _ _ hlt hgt => absurd hgt (Nat.lt_asymm hlt))
      hpopped hnumbered ?_
    exact (List.reverse_perm _).trans (hall.filter _)
  rw [← numbered_filter, ← heq, List.map_reverse, List.reverse_reverse]

end

/-! ## While threads push -/

/-- The thread is not in a call of `pop`. -/
def Place.pushing {T : Type} : Place T → Bool
  | .idle | .pushLoad _ | .pushCas _ => true
  | _ => false

section
variable {ι T : Type} {s s' : State ι T} {chain : List ℕ} {i : ι} {node : ℕ} {p : Place T}

/-- Nobody has popped. -/
structure Filling (s : State ι T) (chain : List ℕ) : Prop where
  inv : Inv s chain
  ordered : Ordered s.pushes (s.tickets chain)
  quiet : s.popped = []
  pushing : ∀ i, (s.place i).pushing = true

theorem filling_init : Filling ({} : State ι T) [] where
  inv := inv_init
  ordered := by
    have hnone : ({} : State ι T).tickets [] = fun _ => [] := by
      funext o
      cases o with
      | none => rfl
      | some i => rfl
    rw [hnone]
    exact ordered_init
  quiet := rfl
  pushing := fun _ => rfl

theorem Inv.tickets_lt (h : Inv s chain) (o : Option ι) {t : ℕ} (ht : t ∈ s.tickets chain o) :
    t < s.pushes.length := h.custody.lt_fresh ht

variable [DecidableEq ι]

theorem pushing_goto (hall : ∀ j, (s.place j).pushing = true) (hp : p.pushing = true) (j : ι) :
    ((s.goto i p).place j).pushing = true := by
  rcases eq_or_ne j i with rfl | hne
  · rw [goto_self]
    exact hp
  · rw [goto_of_ne hne]
    exact hall j

/-- **The compare-exchange of a push, when it succeeds**, puts the node in front of the chain. -/
theorem Filling.publish (h : Filling s chain) (hown : (s.place i).own = some node)
    (hhead : s.head = s.link node) : Filling ((s.publish node).goto i .idle) (node :: chain) := by
  obtain ⟨t, ht⟩ := ticket_of_live ((h.inv.fits i).live node hown)
  refine ⟨h.inv.keep_publish hown hhead, ?_, h.quiet, pushing_goto h.pushing rfl⟩
  refine h.ordered.publish (tickets_own hown ht) (List.filterMap_cons_some ht)
    (tickets_none (congrArg Place.own goto_self)) fun j hne => ?_
  exact tickets_goto_of_ne fun heq => hne (Option.some_inj.mp heq)

omit [DecidableEq ι] in
theorem Filling.setNext (h : Filling s chain) (hown : (s.place i).own = some node)
    (next : Option ℕ) : Filling (s.setNext node next) chain where
  inv := h.inv.keep_setNext hown next
  ordered := by
    rw [tickets_setNext]
    exact h.ordered
  quiet := h.quiet
  pushing := h.pushing

theorem Filling.construct (h : Filling s chain) (hplace : s.place i = .idle)
    (hfree : s.heap node = none) (value : T) :
    Filling ((s.construct i value node).goto i (.pushLoad node)) chain where
  inv := h.inv.keep_construct hplace hfree value
  ordered := h.ordered.begin (fun o _ ht => h.inv.tickets_lt o ht) value (tickets_construct rfl)
    fun _ ho => h.inv.tickets_construct_of_ne hfree value ho
  quiet := h.quiet
  pushing := pushing_goto h.pushing rfl

/-- **A step of a push keeps the order.** -/
theorem Filling.next (h : Filling s chain) {a : Action ι T} (ha : ∀ i, a ≠ .pop i)
    (hstep : LockFreeStack.next a s = some s') : ∃ chain', Filling s' chain' := by
  have hpushing : ∀ {i : ι} {p : Place T}, s.place i = p → p.pushing = true :=
    fun {i} _ hplace => hplace ▸ h.pushing i
  cases moves_of_next hstep with
  | push value hplace hfree => exact ⟨chain, h.construct hplace hfree value⟩
  | pop => exact absurd rfl (ha _)
  | @pushLoad i node spurious hplace =>
      have hown : (s.place i).own = some node := congrArg Place.own hplace
      have hset := h.setNext hown s.head
      have hfits : (Place.pushCas node : Place T).Fits (s.setNext node s.head).entry := by
        refine ⟨fun a ha => (hset.inv.fits i).live a (hown.trans ha), ?_⟩
        intro _ _ hp
        cases hp
      have htickets : ((s.setNext node s.head).goto i (.pushCas node)).tickets chain =
          (s.setNext node s.head).tickets chain := tickets_goto hown.symm
      refine ⟨chain, hset.inv.keep_goto hown.symm hfits, ?_, hset.quiet, pushing_goto hset.pushing rfl⟩
      rw [htickets]
      exact hset.ordered
  | publish hplace hhead => exact ⟨_, h.publish (congrArg Place.own hplace) hhead⟩
  | pushAgain hplace => exact ⟨chain, h.setNext (congrArg Place.own hplace) s.head⟩
  | popEmpty hplace | popNext hplace | takeOut hplace | popAgain hplace | popValue hplace
  | popDelete hplace => exact absurd (hpushing hplace) Bool.false_ne_true

/-- When all pushes are complete, the chain has what was pushed. -/
theorem Filling.drained (h : Filling s chain) (hidle : ∀ i, s.place i = .idle) :
    Drained s.pushes (chain.filterMap s.entry) := by
  have htickets : (chain.filterMap s.entry).map Prod.fst = s.tickets chain none := by
    rw [List.map_filterMap]
    rfl
  refine drained_of_ordered (perm_numbered ?_ fun e he => ?_) ?_
  · rw [htickets]
    refine (List.perm_ext_iff_of_nodup (h.inv.custody.nodup none) List.nodup_range).mpr fun t => ?_
    rw [List.mem_range]
    refine ⟨h.inv.tickets_lt none, fun ht => ?_⟩
    rcases (h.inv.custody.born t).mp ht with hgone | ⟨o, ho⟩
    · have hnone : t ∈ s.popped.map Prod.fst := hgone
      rw [h.quiet] at hnone
      cases hnone
    · cases o with
      | none => exact ho
      | some i =>
          rw [tickets_none (congrArg Place.own (hidle i))] at ho
          cases ho
  · obtain ⟨node, -, hentry⟩ := List.mem_filterMap.mp he
    exact h.inv.entries node e hentry
  · rw [htickets]
    exact h.ordered.chain

end

/-! ## While one thread pops -/

section
variable {ι T : Type} {j : ι} {pushes : List (ι × T)} {all : List (ℕ × T)} {s s' : State ι T}
  {chain rest : List ℕ} {node : ℕ} {p : Place T}

/-- The entry of the node that a thread has taken out. -/
def State.inHand (s : State ι T) (j : ι) : List (ℕ × T) := (s.place j).own.toList.filterMap s.entry

/-- What a thread in a call of `pop` has read is what is there. -/
def Place.Sees {T : Type} (head : Option ℕ) (link : ℕ → Option ℕ) : Place T → Prop
  | .pushLoad _ | .pushCas _ => False
  | .popNext oldHead => oldHead = head
  | .popCas oldHead next => head = some oldHead ∧ next = link oldHead
  | _ => True

/-- The thread `j` is alone, and takes the entries `all` off the stack. -/
structure Draining (j : ι) (pushes : List (ι × T)) (all : List (ℕ × T)) (s : State ι T)
    (chain : List ℕ) : Prop where
  inv : Inv s chain
  whole : s.popped ++ s.inHand j ++ chain.filterMap s.entry = all
  sees : (s.place j).Sees s.head s.link
  pushes : s.pushes = pushes

/-- How far the thread is from the next node. -/
def Place.distance {T : Type} : Place T → ℕ
  | .popValue _ => 4
  | .popDelete _ _ => 3
  | .idle => 2
  | .popNext _ => 1
  | _ => 0

/-- What is left to do. -/
def State.left (s : State ι T) (j : ι) (chain : List ℕ) : ℕ :=
  5 * chain.length + (s.place j).distance

variable [DecidableEq ι]

theorem inHand_goto : (s.goto j p).inHand j = p.own.toList.filterMap s.entry := by
  rw [State.inHand, goto_self]
  rfl

theorem left_goto : (s.goto j p).left j chain = 5 * chain.length + p.distance := by
  rw [State.left, goto_self]

theorem sees_goto {head : Option ℕ} {link : ℕ → Option ℕ} (h : p.Sees head link) :
    ((s.goto j p).place j).Sees head link := by
  rw [goto_self]
  exact h

theorem Draining.goto (h : Draining j pushes all s chain) (hown : p.own = (s.place j).own)
    (hp : p.Fits s.entry) (hsees : p.Sees s.head s.link) : Draining j pushes all (s.goto j p) chain where
  inv := h.inv.keep_goto hown hp
  whole := by
    rw [inHand_goto, hown]
    exact h.whole
  sees := sees_goto hsees
  pushes := h.pushes

theorem Draining.takeOut (h : Draining j pushes all s (node :: rest)) (hown : (s.place j).own = none) :
    Draining j pushes all ((s.takeOut node (s.link node)).goto j (.popValue node)) rest where
  inv := h.inv.keep_takeOut hown
  whole := by
    obtain ⟨e, he⟩ := Option.isSome_iff_exists.mp (h.inv.chainLive node List.mem_cons_self)
    have hhand : s.inHand j = [] := by
      rw [State.inHand, hown]
      rfl
    have hnew : ((s.takeOut node (s.link node)).goto j (.popValue node)).inHand j = [e] := by
      rw [inHand_goto]
      exact List.filterMap_cons_some he
    have hwhole := h.whole
    rw [hhand, List.append_nil, List.filterMap_cons_some he] at hwhole
    rw [hnew, List.append_assoc]
    exact hwhole
  sees := sees_goto trivial
  pushes := h.pushes

theorem Draining.dispose (h : Draining j pushes all s chain) {got : Option (ℕ × T)}
    (hplace : s.place j = .popDelete node got) :
    Draining j pushes all ((s.dispose node got).goto j .idle) chain where
  inv := h.inv.keep_dispose hplace
  whole := by
    have hown : (s.place j).own = some node := congrArg Place.own hplace
    have hgot : got = s.entry node := (h.inv.fits j).got node got hplace
    obtain ⟨e, he⟩ := Option.isSome_iff_exists.mp ((h.inv.fits j).live node hown)
    have hhand : s.inHand j = [e] := by
      rw [State.inHand, hown]
      exact List.filterMap_cons_some he
    have hchain : chain.filterMap (s.dispose node got).entry = chain.filterMap s.entry := by
      refine List.filterMap_congr fun a ha => entry_dispose_of_ne ?_
      rintro rfl
      exact h.inv.own_notMem hown ha
    have hwhole := h.whole
    rw [hhand] at hwhole
    rw [inHand_goto]
    show s.popped ++ got.toList ++ [] ++ chain.filterMap (s.dispose node got).entry = all
    rw [hchain, hgot, he, List.append_nil]
    exact hwhole
  sees := sees_goto trivial
  pushes := h.pushes

/-- **A step of the thread** keeps what it takes off the stack; unless a compare-exchange fails
spuriously, there is less left to do, until the stack is found empty. -/
theorem Draining.next (h : Draining j pushes all s chain) {a : Action ι T} (ha : a.PopsBy j)
    (hstep : LockFreeStack.next a s = some s') :
    ∃ chain', Draining j pushes all s' chain' ∧
      (s.place j ≠ .popNext none → a ≠ .step j true → s'.left j chain' < s.left j chain) := by
  have hsees : ∀ {p : Place T}, s.place j = p → p.Sees s.head s.link := fun hplace => hplace ▸ h.sees
  have hleft : ∀ {p : Place T}, s.place j = p → s.left j chain = 5 * chain.length + p.distance :=
    fun hplace => congrArg (fun p : Place T => 5 * chain.length + p.distance) hplace
  cases moves_of_next hstep with
  | push => exact ha.elim
  | pop hplace =>
      obtain rfl := ha
      refine ⟨chain, h.goto (congrArg Place.own hplace).symm (fits_of_own_none rfl) rfl, ?_⟩
      intro _ _
      rw [left_goto, hleft hplace]
      exact Nat.lt_succ_self _
  | pushLoad hplace | pushAgain hplace | publish hplace =>
      obtain rfl := ha
      exact (hsees hplace).elim
  | popEmpty hplace =>
      obtain rfl := ha
      refine ⟨chain, h.goto (congrArg Place.own hplace).symm (fits_of_own_none rfl) trivial, ?_⟩
      exact fun hne => absurd hplace hne
  | @popNext i oldHead spurious hplace =>
      obtain rfl := ha
      have hhead : some oldHead = s.head := hsees hplace
      obtain ⟨rest, rfl⟩ := h.inv.chain_eq hhead.symm
      rw [read_eq (heap_of_entry (h.inv.chainLive oldHead List.mem_cons_self))]
      refine ⟨oldHead :: rest, h.goto (congrArg Place.own hplace).symm (fits_of_own_none rfl)
        ⟨hhead.symm, rfl⟩, ?_⟩
      intro _ _
      rw [left_goto, hleft hplace]
      exact Nat.lt_succ_self _
  | takeOut hplace hhead =>
      obtain rfl := ha
      obtain ⟨-, rfl⟩ := hsees hplace
      obtain ⟨rest, rfl⟩ := h.inv.chain_eq hhead
      refine ⟨rest, h.takeOut (congrArg Place.own hplace), ?_⟩
      intro _ _
      rw [left_goto, hleft hplace]
      show 5 * rest.length + 4 < 5 * (rest.length + 1)
      omega
  | popAgain hplace hfails =>
      obtain rfl := ha
      refine ⟨chain, h.goto (congrArg Place.own hplace).symm (fits_of_own_none rfl) rfl, ?_⟩
      intro _ hspurious
      exact absurd (congrArg (Action.step _) (hfails (hsees hplace).1)) hspurious
  | @popValue i oldHead spurious hplace =>
      obtain rfl := ha
      have hown : (s.place i).own = some oldHead := congrArg Place.own hplace
      rw [read_eq (heap_of_entry ((h.inv.fits i).live oldHead hown))]
      refine ⟨chain, h.goto hown.symm ⟨?_, ?_⟩ trivial, ?_⟩
      · exact fun a ha => (h.inv.fits i).live a (hown.trans ha)
      · intro node got hp
        cases hp
        rfl
      · intro _ _
        rw [left_goto, hleft hplace]
        exact Nat.lt_succ_self _
  | popDelete hplace =>
      obtain rfl := ha
      refine ⟨chain, h.dispose hplace, ?_⟩
      intro _ _
      rw [left_goto, hleft hplace]
      exact Nat.lt_succ_self _

omit [DecidableEq ι] in
theorem Draining.popped_eq (h : Draining j pushes all s chain) (hplace : s.place j = .popNext none) :
    s.popped = all := by
  have hsees := h.sees
  have hwhole := h.whole
  rw [hplace] at hsees
  obtain rfl : chain = [] := h.inv.linked.head_eq_none.mp (Eq.symm hsees)
  rw [State.inHand, hplace] at hwhole
  exact (List.append_nil _).symm.trans ((List.append_nil _).symm.trans hwhole)

omit [DecidableEq ι] in
theorem Filling.draining (h : Filling s chain) (hidle : s.place j = .idle) :
    Draining j s.pushes (chain.filterMap s.entry) s chain where
  inv := h.inv
  whole := by
    rw [State.inHand, hidle, h.quiet]
    rfl
  sees := by
    rw [hidle]
    trivial
  pushes := rfl

theorem step_isSome (hplace : s.place j ≠ .idle) (spurious : Bool) :
    (next (.step j spurious) s).isSome := by
  rw [next]
  split
  next hidle => exact absurd hidle hplace
  next => rfl
  next =>
    split
    next => rfl
    next => rfl
  next => rfl
  next => rfl
  next =>
    split
    next => rfl
    next => rfl
  next => rfl
  next => rfl

theorem exists_next (s : State ι T) (j : ι) :
    ∃ a s', Action.PopsBy j a ∧ a ≠ .step j true ∧ next a s = some s' := by
  by_cases hidle : s.place j = .idle
  · refine ⟨.pop j, s.goto j (.popNext s.head), rfl, by simp, ?_⟩
    rw [next, hidle]
  · obtain ⟨s', hstep⟩ := Option.isSome_iff_exists.mp (step_isSome hidle false)
    exact ⟨.step j false, s', rfl, by simp, hstep⟩

/-- **A thread that pops comes to find the stack empty**, if its compare-exchanges do not fail
for no reason from some point on. -/
theorem Draining.exists_end {s : State ι T} {chain : List ℕ} (h : Draining j pushes all s chain) :
    ∃ cs, (∀ a ∈ cs, a.PopsBy j ∧ a ≠ .step j true) ∧
      (schedule LockFreeStack.next cs s).place j = .popNext none := by
  by_cases hend : s.place j = .popNext none
  · exact ⟨[], fun _ ha => absurd ha List.not_mem_nil, hend⟩
  · obtain ⟨a, s', ha, hspurious, hstep⟩ := exists_next s j
    obtain ⟨chain', h', hless⟩ := h.next ha hstep
    have hlt := hless hend hspurious
    obtain ⟨cs, hcs, hplace⟩ := h'.exists_end
    refine ⟨a :: cs, fun b hb => ?_, ?_⟩
    · rcases List.mem_cons.mp hb with rfl | hb
      · exact ⟨ha, hspurious⟩
      · exact hcs b hb
    · rw [schedule_cons_of_some hstep]
      exact hplace
termination_by s.left j chain

/-! ## Runs -/

theorem filling_of_pushes {as : List (Action ι T)} (hpush : ∀ a ∈ as, ∀ i, a ≠ .pop i) :
    ∃ chain, Filling (schedule next as ({} : State ι T)) chain := by
  refine schedule_rule_of (fun s => ∃ chain, Filling s chain) hpush ⟨[], filling_init⟩ ?_
  rintro a s s' ha ⟨chain, h⟩ hstep
  exact h.next ha hstep

theorem draining_of_pops {bs : List (Action ι T)} (hpop : ∀ a ∈ bs, a.PopsBy j)
    (h : Draining j pushes all s chain) : ∃ chain', Draining j pushes all (schedule next bs s) chain' := by
  refine schedule_rule_of (fun s => ∃ chain, Draining j pushes all s chain) hpop ⟨chain, h⟩ ?_
  rintro a s s' ha ⟨chain, h⟩ hstep
  obtain ⟨chain', h', -⟩ := h.next ha hstep
  exact ⟨chain', h'⟩

theorem next_records {a : Action ι T} (hstep : next a s = some s') :
    s'.pushes = s.pushes ++ pushedBy a s ∧ s'.popped = s.popped ++ poppedBy a s := by
  cases moves_of_next hstep with
  | push value _ _ => exact ⟨rfl, (List.append_nil _).symm⟩
  | pop _ => exact ⟨(List.append_nil _).symm, (List.append_nil _).symm⟩
  | pushLoad hplace | publish hplace _ | pushAgain hplace _ | popEmpty hplace | popNext hplace
  | takeOut hplace _ | popAgain hplace _ | popValue hplace =>
      rw [poppedBy, hplace]
      exact ⟨(List.append_nil _).symm, (List.append_nil _).symm⟩
  | popDelete hplace =>
      rw [poppedBy, hplace]
      exact ⟨(List.append_nil _).symm, rfl⟩

theorem push_isSome {i : ι} {address : ℕ} (hplace : s.place i = .idle) (hfree : s.heap address = none)
    (value : T) : (next (.push i value address) s).isSome := by
  rw [next, hplace, hfree]
  rfl

/-- **Concurrent pushes lose nothing.**  A thread that is in no call can push.  When any number
of threads have pushed, in any interleaving of their steps, and all pushes are complete, one
thread that pops finds the stack empty just when it has got every value that was pushed once,
those of each thread in the reverse of the order of its pushes; and it comes to that. -/
theorem drain_lossless (j : ι) {as bs : List (Action ι T)} (hpush : ∀ a ∈ as, ∀ i, a ≠ .pop i)
    (hidle : ∀ i, (schedule next as ({} : State ι T)).place i = .idle)
    (hpop : ∀ a ∈ bs, a.PopsBy j) :
    (∀ pre i value address, (schedule next pre ({} : State ι T)).place i = .idle →
      (schedule next pre ({} : State ι T)).heap address = none →
        (next (.push i value address) (schedule next pre ({} : State ι T))).isSome) ∧
    ((schedule next bs (schedule next as ({} : State ι T))).place j = .popNext none →
      Drained (trace next pushedBy as ({} : State ι T))
        (trace next poppedBy bs (schedule next as ({} : State ι T)))) ∧
    ∃ cs, (∀ a ∈ cs, a.PopsBy j ∧ a ≠ .step j true) ∧
      (schedule next cs (schedule next bs (schedule next as ({} : State ι T)))).place j =
        .popNext none := by
  obtain ⟨chain, hfilling⟩ := filling_of_pushes hpush
  obtain ⟨chain', hdraining⟩ := draining_of_pops hpop (hfilling.draining (hidle j))
  have hpushes : (schedule next as ({} : State ι T)).pushes = trace next pushedBy as {} :=
    record_eq_trace State.pushes pushedBy {} rfl (fun _ _ _ hstep => (next_records hstep).1) as
  have hpopped := record_of_inv (fun _ => True) State.popped poppedBy
    (fun _ _ _ _ hstep => ⟨trivial, (next_records hstep).2⟩) bs
    (s := schedule next as ({} : State ι T)) trivial
  rw [hfilling.quiet, List.nil_append] at hpopped
  refine ⟨fun _ _ value _ hplace hfree => push_isSome hplace hfree value, fun hplace => ?_,
    hdraining.exists_end⟩
  rw [← hpushes, ← hpopped, hdraining.popped_eq hplace]
  exact hfilling.drained hidle

/-- Two threads push, one of them twice and past a push of the other that fails because of it. -/
def twoPushers : List (Action Bool ℕ) :=
  [.push true 7 0, .step true false, .push false 8 1, .step false false, .step true false] ++
    pushSteps true 9 2 ++ [.step false false, .step false true, .step false false]

/-- One thread pops until the stack is empty. -/
def popsAll : List (Action Bool ℕ) :=
  popSteps true ++ popSteps true ++ popSteps true ++ [.pop true]

/-- The values 7 and 9 of the one thread and 8 of the other come as 8, 9, 7. -/
theorem drain_three :
    Drained [(true, 7), (false, 8), (true, 9)]
      (trace next poppedBy popsAll (schedule next twoPushers ({} : State Bool ℕ))) ∧
    (trace next poppedBy popsAll (schedule next twoPushers ({} : State Bool ℕ))).map Prod.snd =
      [8, 9, 7] := by
  have hpushed : trace next pushedBy twoPushers {} = [(true, 7), (false, 8), (true, 9)] := rfl
  rw [← hpushed]
  refine ⟨(drain_lossless true ?_ ?_ ?_).2.1 ?_, ?_⟩
  · decide
  · decide
  · decide
  · rfl
  · rfl

end

end LearnCpp.Concurrency.LockFreeStack
