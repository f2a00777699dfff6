/-
# `LearnCpp.Memory.LruCache` — a list in the order of use, and a map into it

`topics/memory/lru_cache.cpp`: `list_` holds the entries, the most recently used
first, and `map_` has an iterator for each key.  A node of the list is known by
its address, which is what an iterator is; it keeps it when the node is spliced
to the front.  To follow an iterator to a node that is gone, or to look at the
back of an empty list, has no defined meaning, and the model returns `none`.

Map and list point at each other (`Corresponds`), and under that the cache is the
list in the order of last use:

    Corresponds s,  1 ≤ capacity   ⟹   a call answers and moves the entries as
                                        the recency list does
-/
import LearnCpp.Lib.Recency
import LearnCpp.Lib.Run
import Mathlib.Logic.Function.Basic

namespace LearnCpp.Memory.LRUCache

open Lib Lib.Recency

variable {K V : Type}

/-- A node of `list_`. -/
structure Node (K V : Type) where
  address : ℕ
  key : K
  value : V

def Node.entry (node : Node K V) : K × V := (node.key, node.value)

/-- `fresh` is the address of the next node. -/
structure State (K V : Type) where
  cap : ℕ
  list : List (Node K V) := []
  map : K → Option ℕ := fun _ => none
  fresh : ℕ := 0

def State.entries (s : State K V) : List (K × V) := s.list.map Node.entry

/-- `*it` -/
def deref (it : ℕ) (list : List (Node K V)) : Option (Node K V) :=
  list.find? fun node => node.address = it

/-- `list_.splice(list_.begin(), list_, it)` -/
def splice (it : ℕ) (list : List (Node K V)) : Option (List (Node K V)) :=
  (deref it list).map fun node => node :: list.filter fun node => node.address ≠ it

def Node.assign (it : ℕ) (value : V) (node : Node K V) : Node K V :=
  if node.address = it then { node with value := value } else node

/-- `it->second = value` -/
def assign (it : ℕ) (value : V) (list : List (Node K V)) : Option (List (Node K V)) :=
  (deref it list).map fun _ => list.map (Node.assign it value)

variable [DecidableEq K]

def get (key : K) (s : State K V) : Option (Option V × State K V) :=
  match s.map key with
  | none => some (none, s)
  | some it =>
      (splice it s.list).bind fun list =>
      (deref it list).map fun node => (some node.value, { s with list := list })

/-- `map_.erase(list_.back().first); list_.pop_back();` -/
def popBack (s : State K V) : Option (State K V) :=
  s.list.getLast?.map fun node =>
    { s with map := Function.update s.map node.key none, list := s.list.dropLast }

/-- `list_.emplace_front(key, value); map_[key] = list_.begin();` -/
def emplaceFront (key : K) (value : V) (s : State K V) : State K V :=
  { s with
    list := ⟨s.fresh, key, value⟩ :: s.list
    map := Function.update s.map key (some s.fresh), fresh := s.fresh + 1 }

def put (key : K) (value : V) (s : State K V) : Option (State K V) :=
  match s.map key with
  | some it =>
      (assign it value s.list).bind fun list =>
      (splice it list).map fun list => { s with list := list }
  | none =>
      (if s.cap ≤ s.list.length then popBack s else some s).map (emplaceFront key value)

def call : Call K V → State K V → Option (Option V × State K V)
  | .get key, s => get key s
  | .put key value, s => (put key value s).map fun s => (none, s)

def init (capacity : ℕ) : State K V := { cap := capacity }

/-! ## List and map -/

/-- List and map point at each other: one node for each key, and one key for each node. -/
structure Corresponds (s : State K V) : Prop where
  addresses : (s.list.map Node.address).Nodup
  fresh : ∀ node ∈ s.list, node.address < s.fresh
  keys : (s.list.map Node.key).Nodup
  map_iff : ∀ key a, s.map key = some a ↔ ∃ node ∈ s.list, node.key = key ∧ node.address = a

/-- The other nodes, told by their addresses. -/
def others (node : Node K V) (list : List (Node K V)) : List (Node K V) :=
  list.filter fun m => m.address ≠ node.address

section
variable {node m : Node K V} {value : V} {list : List (Node K V)}

omit [DecidableEq K]

theorem mem_others : m ∈ others node list ↔ m ∈ list ∧ m.address ≠ node.address := by
  rw [others, List.mem_filter, decide_eq_true_iff]

theorem deref_of_mem (haddresses : (list.map Node.address).Nodup) (h : node ∈ list) :
    deref node.address list = some node :=
  (find_iff haddresses).mpr ⟨h, rfl⟩

theorem splice_of_mem (haddresses : (list.map Node.address).Nodup) (h : node ∈ list) :
    splice node.address list = some (node :: others node list) := by
  rw [splice, deref_of_mem haddresses h]
  rfl

@[simp] theorem address_assign {it : ℕ} : (m.assign it value).address = m.address := by
  rw [Node.assign]
  split <;> rfl

theorem others_map_assign :
    others node (list.map (Node.assign node.address value)) = others node list := by
  rw [others, List.filter_map]
  have hsame : (fun m : Node K V => decide (m.address ≠ node.address)) ∘
      Node.assign node.address value = fun m => decide (m.address ≠ node.address) := by
    funext m
    rw [Function.comp_apply, address_assign]
  rw [hsame]
  refine (List.map_congr_left ?_).trans (List.map_id _)
  intro m hm
  exact if_neg (mem_others.mp hm).2

theorem splice_assign (haddresses : (list.map Node.address).Nodup) (h : node ∈ list) :
    (assign node.address value list).bind (splice node.address) =
      some ({ node with value := value } :: others node list) := by
  have hmem : { node with value := value } ∈ list.map (Node.assign node.address value) :=
    List.mem_map.mpr ⟨node, h, if_pos rfl⟩
  have haddresses' : ((list.map (Node.assign node.address value)).map Node.address).Nodup := by
    rw [List.map_map]
    have hsame : (Node.address : Node K V → ℕ) ∘ Node.assign node.address value = Node.address :=
      funext fun _ => address_assign
    rwa [hsame]
  rw [assign, deref_of_mem haddresses h]
  refine (splice_of_mem haddresses' hmem).trans ?_
  exact congrArg (fun l => some (_ :: l)) others_map_assign

end

section
variable {s s' : State K V} {node node' : Node K V} {key : K} {value : V}

omit [DecidableEq K] in
theorem keys_entries : Recency.keys s.entries = s.list.map Node.key := List.map_map ..

omit [DecidableEq K] in
theorem length_entries : s.entries.length = s.list.length := List.length_map ..

theorem Corresponds.entries_others (h : Corresponds s) (hnode : node ∈ s.list) :
    (others node s.list).map Node.entry = Recency.without node.key s.entries := by
  rw [Recency.without, State.entries, List.filter_map]
  refine congrArg (List.map Node.entry) (List.filter_congr ?_)
  intro m hm
  show decide (m.address ≠ node.address) = decide (m.key ≠ node.key)
  rw [decide_eq_decide]
  refine not_congr ⟨?_, ?_⟩
  · intro haddress
    rw [List.inj_on_of_nodup_map h.addresses hm hnode haddress]
  · intro hkey
    rw [List.inj_on_of_nodup_map h.keys hm hnode hkey]

theorem Corresponds.exists_node (h : Corresponds s) {it : ℕ} (hmap : s.map key = some it) :
    ∃ node ∈ s.list, node.key = key ∧ node.address = it ∧
      Recency.lookup key s.entries = some node.value := by
  obtain ⟨node, hmem, hkey, haddress⟩ := (h.map_iff key it).mp hmap
  refine ⟨node, hmem, hkey, haddress, Recency.lookup_of_mem ?_ ?_⟩
  · rw [keys_entries]
    exact h.keys
  · exact List.mem_map.mpr ⟨node, hmem, Prod.ext hkey rfl⟩

theorem Corresponds.lookup_none (h : Corresponds s) (hmap : s.map key = none) :
    Recency.lookup key s.entries = none := by
  rw [Recency.lookup_eq_none, keys_entries]
  intro habs
  obtain ⟨node, hmem, hkey⟩ := List.mem_map.mp habs
  cases hmap.symm.trans ((h.map_iff key node.address).mpr ⟨node, hmem, hkey, rfl⟩)

omit [DecidableEq K] in
theorem Corresponds.toFront (h : Corresponds s) (hnode : node ∈ s.list)
    (haddress : node'.address = node.address) (hkey : node'.key = node.key) :
    Corresponds { s with list := node' :: others node s.list } := by
  have hkeys : node.key ∉ (others node s.list).map Node.key := by
    intro habs
    obtain ⟨m, hm, heq⟩ := List.mem_map.mp habs
    obtain ⟨hmem, hne⟩ := mem_others.mp hm
    rw [List.inj_on_of_nodup_map h.keys hmem hnode heq] at hne
    exact hne rfl
  have haddresses : node.address ∉ (others node s.list).map Node.address := by
    intro habs
    obtain ⟨m, hm, heq⟩ := List.mem_map.mp habs
    exact (mem_others.mp hm).2 heq
  constructor
  · show (node'.address :: (others node s.list).map Node.address).Nodup
    rw [haddress]
    exact List.nodup_cons.mpr ⟨haddresses, h.addresses.sublist (List.filter_sublist.map _)⟩
  · intro m hm
    rcases List.mem_cons.mp hm with rfl | hm
    · rw [haddress]
      exact h.fresh node hnode
    · exact h.fresh m (mem_others.mp hm).1
  · show (node'.key :: (others node s.list).map Node.key).Nodup
    rw [hkey]
    exact List.nodup_cons.mpr ⟨hkeys, h.keys.sublist (List.filter_sublist.map _)⟩
  · intro key a
    rw [h.map_iff key a]
    constructor
    · rintro ⟨m, hm, rfl, rfl⟩
      by_cases hsame : m.address = node.address
      · obtain rfl := List.inj_on_of_nodup_map h.addresses hm hnode hsame
        exact ⟨node', List.mem_cons_self, hkey, haddress⟩
      · exact ⟨m, List.mem_cons_of_mem _ (mem_others.mpr ⟨hm, hsame⟩), rfl, rfl⟩
    · rintro ⟨m, hm, rfl, rfl⟩
      rcases List.mem_cons.mp hm with rfl | hm
      · exact ⟨node, hnode, hkey.symm, haddress.symm⟩
      · exact ⟨m, (mem_others.mp hm).1, rfl, rfl⟩

theorem Corresponds.popBack (h : Corresponds s) (hpop : popBack s = some s') :
    Corresponds s' ∧ s'.cap = s.cap ∧ s'.list = s.list.dropLast ∧
      ∀ key, s.map key = none → s'.map key = none := by
  obtain ⟨last, hlast, rfl⟩ := Option.map_eq_some_iff.mp hpop
  obtain ⟨front, hlist⟩ := List.getLast?_eq_some_iff.mp hlast
  have hdrop : s.list.dropLast = front := by rw [hlist, List.dropLast_concat]
  have hsub : front.Sublist s.list := hdrop ▸ List.dropLast_sublist s.list
  have hkey : ∀ m ∈ front, m.key ≠ last.key := by
    intro m hm heq
    have hkeys := h.keys
    rw [hlist, List.map_append] at hkeys
    refine List.disjoint_of_nodup_append hkeys (List.mem_map_of_mem hm) ?_
    exact List.mem_singleton.mpr heq
  refine ⟨?_, rfl, rfl, ?_⟩
  · rw [hdrop]
    refine ⟨h.addresses.sublist (hsub.map _), fun m hm => h.fresh m (hsub.subset hm),
      h.keys.sublist (hsub.map _), ?_⟩
    intro key a
    show Function.update s.map last.key none key = some a ↔ _
    rcases eq_or_ne key last.key with rfl | hne
    · rw [Function.update_self]
      refine iff_of_false (Option.some_ne_none a).symm ?_
      rintro ⟨m, hm, heq, -⟩
      exact hkey m hm heq
    · rw [Function.update_of_ne hne, h.map_iff key a]
      constructor
      · rintro ⟨m, hm, rfl, rfl⟩
        rw [hlist, List.mem_append] at hm
        rcases hm with hm | hm
        · exact ⟨m, hm, rfl, rfl⟩
        · exact absurd (congrArg Node.key (List.mem_singleton.mp hm)) hne
      · rintro ⟨m, hm, rfl, rfl⟩
        exact ⟨m, hsub.subset hm, rfl, rfl⟩
  · intro key hnone
    show Function.update s.map last.key none key = none
    rw [Function.update_apply]
    split
    · rfl
    · exact hnone

theorem Corresponds.emplaceFront (h : Corresponds s) (hnew : s.map key = none) :
    Corresponds (emplaceFront key value s) := by
  have hkey : ∀ m ∈ s.list, m.key ≠ key := by
    rintro m hm rfl
    cases hnew.symm.trans ((h.map_iff m.key m.address).mpr ⟨m, hm, rfl, rfl⟩)
  constructor
  · show (s.fresh :: s.list.map Node.address).Nodup
    refine List.nodup_cons.mpr ⟨?_, h.addresses⟩
    intro habs
    obtain ⟨m, hm, heq⟩ := List.mem_map.mp habs
    exact (h.fresh m hm).ne heq
  · intro m hm
    rcases List.mem_cons.mp hm with rfl | hm
    · exact Nat.lt_succ_self _
    · exact Nat.lt_succ_of_lt (h.fresh m hm)
  · show (key :: s.list.map Node.key).Nodup
    refine List.nodup_cons.mpr ⟨?_, h.keys⟩
    intro habs
    obtain ⟨m, hm, heq⟩ := List.mem_map.mp habs
    exact hkey m hm heq
  · intro k a
    show Function.update s.map key (some s.fresh) k = some a ↔
      ∃ m ∈ (⟨s.fresh, key, value⟩ : Node K V) :: s.list, m.key = k ∧ m.address = a
    rw [List.exists_mem_cons_iff]
    rcases eq_or_ne k key with rfl | hne
    · rw [Function.update_self, Option.some_inj]
      constructor
      · rintro rfl
        exact .inl ⟨rfl, rfl⟩
      · rintro (⟨-, rfl⟩ | ⟨m, hm, heq, -⟩)
        · rfl
        · exact absurd heq (hkey m hm)
    · rw [Function.update_of_ne hne, or_iff_right fun habs => hne habs.1.symm]
      exact h.map_iff k a

/-! ## Each call -/

theorem get_refines (h : Corresponds s) (key : K) :
    ∃ s', get key s = some (Recency.lookup key s.entries, s') ∧ Corresponds s' ∧
      s'.cap = s.cap ∧ s'.entries = Recency.step s.cap (.get key) s.entries := by
  rw [Recency.step, get]
  cases hmap : s.map key with
  | none =>
      rw [h.lookup_none hmap]
      exact ⟨s, rfl, h, rfl, rfl⟩
  | some it =>
      obtain ⟨node, hnode, rfl, rfl, hlookup⟩ := h.exists_node hmap
      have hfront : Corresponds { s with list := node :: others node s.list } :=
        h.toFront hnode rfl rfl
      rw [hlookup]
      refine ⟨{ s with list := node :: others node s.list }, ?_, hfront, rfl, ?_⟩
      · show (splice node.address s.list).bind _ = _
        rw [splice_of_mem h.addresses hnode, Option.bind_some,
          deref_of_mem hfront.addresses List.mem_cons_self]
        rfl
      · exact congrArg (_ :: ·) (h.entries_others hnode)

theorem makeRoom_refines (h : Corresponds s) (hcap : 1 ≤ s.cap) :
    ∃ s', (if s.cap ≤ s.list.length then popBack s else some s) = some s' ∧ Corresponds s' ∧
      s'.cap = s.cap ∧
      s'.entries = (if s.cap ≤ s.entries.length then s.entries.dropLast else s.entries) ∧
      ∀ key, s.map key = none → s'.map key = none := by
  rw [length_entries]
  split
  next hfull =>
    cases hlast : s.list.getLast? with
    | none =>
        -- a full cache is not empty
        rw [List.getLast?_eq_none_iff.mp hlast] at hfull
        exact absurd (hcap.trans hfull) (Nat.not_succ_le_zero 0)
    | some last =>
        have hpop : popBack s = some
            { s with map := Function.update s.map last.key none, list := s.list.dropLast } := by
          rw [popBack, hlast]
          rfl
        obtain ⟨hs', hcap', hlist, hmap⟩ := h.popBack hpop
        refine ⟨_, hpop, hs', hcap', ?_, hmap⟩
        exact List.map_dropLast
  next => exact ⟨s, rfl, h, rfl, rfl, fun _ => id⟩

theorem put_refines (h : Corresponds s) (hcap : 1 ≤ s.cap) (key : K) (value : V) :
    ∃ s', put key value s = some s' ∧ Corresponds s' ∧
      s'.cap = s.cap ∧ s'.entries = Recency.step s.cap (.put key value) s.entries := by
  rw [Recency.step, put]
  cases hmap : s.map key with
  | none =>
      obtain ⟨s', hroom, hs', hcap', hentries, hnone⟩ := makeRoom_refines h hcap
      rw [h.lookup_none hmap, hroom]
      refine ⟨emplaceFront key value s', rfl, hs'.emplaceFront (hnone key hmap), hcap', ?_⟩
      exact congrArg ((key, value) :: ·) hentries
  | some it =>
      obtain ⟨node, hnode, rfl, rfl, hlookup⟩ := h.exists_node hmap
      rw [hlookup]
      refine ⟨{ s with list := { node with value := value } :: others node s.list }, ?_,
        h.toFront hnode rfl rfl, rfl, ?_⟩
      · show (assign node.address value s.list).bind _ = _
        have hboth : (assign node.address value s.list).bind (splice node.address) =
            some ({ node with value := value } :: others node s.list) :=
          splice_assign h.addresses hnode
        obtain ⟨list, hassign, hsplice⟩ := Option.bind_eq_some_iff.mp hboth
        rw [hassign, Option.bind_some, hsplice]
        rfl
      · exact congrArg (_ :: ·) (h.entries_others hnode)

/-- **Each call does what the recency list does**, and has a meaning. -/
theorem call_refines (h : Corresponds s) (hcap : 1 ≤ s.cap) (c : Call K V) :
    ∃ s', call c s = some (Recency.answer c s.entries, s') ∧ Corresponds s' ∧
      s'.cap = s.cap ∧ s'.entries = Recency.step s.cap c s.entries := by
  cases c with
  | get key => exact get_refines h key
  | put key value =>
      obtain ⟨s', hput, hs'⟩ := put_refines h hcap key value
      refine ⟨s', ?_, hs'⟩
      show (put key value s).map _ = _
      rw [hput]
      rfl

end

/-! ## Runs -/

/-- A cache and the calls that it has answered, the latest first. -/
structure Session (K V : Type) where
  cache : State K V
  past : List (Event K V) := []

def Session.call (c : Call K V) (t : Session K V) : Option (Session K V) :=
  (LRUCache.call c t.cache).map fun (answer, cache) =>
    { cache := cache, past := ⟨c, answer⟩ :: t.past }

def Session.init (capacity : ℕ) : Session K V := { cache := LRUCache.init capacity }

structure Session.Inv (capacity : ℕ) (calls : List (Call K V)) (t : Session K V) : Prop where
  cap : t.cache.cap = capacity
  corresponds : Corresponds t.cache
  length : t.cache.entries.length ≤ capacity
  reflects : Reflects t.past t.cache.entries
  entries : t.cache.entries = exec (Recency.step capacity) calls []
  past : t.past.map Event.call = calls.reverse

section
variable {capacity : ℕ} {calls : List (Call K V)} {t : Session K V}

theorem Session.init_inv : Session.Inv capacity [] (Session.init capacity : Session K V) where
  cap := rfl
  corresponds := {
    addresses := List.nodup_nil
    fresh := fun _ h => absurd h List.not_mem_nil
    keys := List.nodup_nil
    map_iff := fun _ _ => iff_of_false (Option.some_ne_none _).symm fun ⟨_, h, _⟩ => List.not_mem_nil h }
  length := Nat.zero_le _
  reflects := ⟨List.Pairwise.nil, fun _ h => absurd h List.not_mem_nil⟩
  entries := rfl
  past := rfl

theorem Session.Inv.call (h : Session.Inv capacity calls t) (hcapacity : 1 ≤ capacity)
    (c : Call K V) : ∃ t', Session.call c t = some t' ∧ Session.Inv capacity (calls ++ [c]) t' := by
  obtain ⟨cache, hcall, hcorresponds, hcap, hentries⟩ :=
    call_refines h.corresponds (h.cap.symm ▸ hcapacity) c
  rw [h.cap] at hentries hcap
  refine ⟨{ cache := cache, past := ⟨c, answer c t.cache.entries⟩ :: t.past }, ?_,
    hcap, hcorresponds, ?_, ?_, ?_, ?_⟩
  · rw [Session.call, hcall]
    rfl
  · rw [hentries]
    exact length_step_le hcapacity h.reflects.nodup h.length c
  · rw [hentries]
    exact h.reflects.step c
  · rw [hentries, exec_concat, ← h.entries]
  · rw [List.reverse_append, ← h.past]
    rfl

theorem Session.run_inv (hcapacity : 1 ≤ capacity) (calls : List (Call K V)) :
    ∃ t, run Session.call calls (Session.init capacity) = some t ∧ Session.Inv capacity calls t :=
  run_rule (Session.Inv capacity) Session.init_inv
    (fun _ c _ _ h => h.call hcapacity c) calls (List.prefix_refl calls)

end

/-- What a cache promises after a run: map and list correspond one to one, the order is
that of the last uses, the values are those of the latest puts, and keys leave only by
being the least recently used. -/
structure Promises (capacity : ℕ) (t : Session K V) : Prop where
  addresses : (t.cache.list.map Node.address).Nodup
  keys : (t.cache.list.map Node.key).Nodup
  map_iff : ∀ key a, t.cache.map key = some a ↔
    ∃ node ∈ t.cache.list, node.key = key ∧ node.address = a
  length : t.cache.list.length ≤ capacity
  order : t.cache.list.Pairwise fun a b => lastUse b.key t.past < lastUse a.key t.past
  hit : ∀ node ∈ t.cache.list, ∃ cache value,
    latestPut node.key t.past = some value ∧ get node.key t.cache = some (some value, cache)
  miss : ∀ key, key ∉ t.cache.list.map Node.key → get key t.cache = some (none, t.cache)
  eviction : ∀ c t' key, Session.call c t = some t' → key ∈ t.cache.list.map Node.key →
    key ∉ t'.cache.list.map Node.key →
      (∃ key' value, c = .put key' value ∧ key' ∉ t.cache.list.map Node.key) ∧
      t.cache.list.length = capacity ∧
      ∀ other ∈ t.cache.list.map Node.key, other ≠ key →
        lastUse key t.past < lastUse other t.past

theorem Session.Inv.promises {capacity : ℕ} {calls : List (Call K V)} {t : Session K V}
    (h : Session.Inv capacity calls t) (hcapacity : 1 ≤ capacity) : Promises capacity t where
  addresses := h.corresponds.addresses
  keys := h.corresponds.keys
  map_iff := h.corresponds.map_iff
  length := length_entries (s := t.cache) ▸ h.length
  order := List.pairwise_map.mp h.reflects.order
  hit := by
    intro node hnode
    have hmem : node.entry ∈ t.cache.entries := List.mem_map_of_mem hnode
    obtain ⟨cache, hget, -⟩ := get_refines h.corresponds node.key
    rw [Recency.lookup_of_mem h.reflects.nodup hmem] at hget
    exact ⟨cache, node.value, h.reflects.latest _ hmem, hget⟩
  miss := by
    intro key hmiss
    have hmap : t.cache.map key = none := by
      cases hmap : t.cache.map key with
      | none => rfl
      | some it =>
          obtain ⟨node, hnode, hkey, -⟩ := (h.corresponds.map_iff key it).mp hmap
          exact absurd (List.mem_map.mpr ⟨node, hnode, hkey⟩) hmiss
    rw [get, hmap]
  eviction := by
    intro c t' key hcall hin hout
    obtain ⟨cache, hcall', -, -, hentries⟩ :=
      call_refines h.corresponds (h.cap.symm ▸ hcapacity) c
    rw [Session.call, hcall', Option.map_some] at hcall
    cases hcall
    rw [h.cap] at hentries
    rw [← keys_entries, hentries] at hout
    rw [← keys_entries] at hin ⊢
    obtain ⟨hput, hfull, hleast⟩ := h.reflects.evicted hin hout
    rw [← length_entries]
    exact ⟨hput, Nat.le_antisymm h.length hfull, hleast⟩

/-- **The cache is the recency list**: for every sequence of calls its entries are those of the
list that the calls leave, and it keeps its promises about the calls it has answered. -/
theorem refines_recency {capacity : ℕ} (hcapacity : 1 ≤ capacity) (calls : List (Call K V)) :
    ∃ t, run Session.call calls (Session.init capacity) = some t ∧
      t.cache.entries = exec (Recency.step capacity) calls [] ∧
      t.past.map Event.call = calls.reverse ∧ Promises capacity t := by
  obtain ⟨t, hrun, h⟩ := Session.run_inv hcapacity calls
  exact ⟨t, hrun, h.entries, h.past, h.promises hcapacity⟩

/-- The calls of the source's own `main`: 2 is evicted, and 4 was used last. -/
theorem refines_recency_demo :
    ∃ t, run Session.call
        [.put 1 "one", .put 2 "two", .put 3 "three", .get 1, .put 4 "four", .get 2, .get 1, .get 4]
        (Session.init 3) = some t ∧
      t.cache.entries = [(4, "four"), (1, "one"), (3, "three")] ∧ Promises 3 t := by
  obtain ⟨t, hrun, hentries, -, h⟩ := refines_recency (by decide : 1 ≤ 3)
    [.put 1 "one", .put 2 "two", .put 3 "three", .get 1, .put 4 "four", .get 2, .get 1, .get 4]
  refine ⟨t, hrun, ?_, h⟩
  rw [hentries]
  rfl

/-! ## A small cache next to a large one -/

theorem included_run {n m : ℕ} (hn : 1 ≤ n) (hnm : n ≤ m) (calls : List (Call K V)) :
    Included n (exec (Recency.step n) calls []) (exec (Recency.step m) calls []) := by
  induction calls using List.reverseRecOn with
  | nil => exact ⟨List.Sublist.refl _, .inr rfl⟩
  | append_singleton calls c ih =>
      obtain ⟨small, -, hsmall⟩ := Session.run_inv hn calls
      obtain ⟨large, -, hlarge⟩ := Session.run_inv (hn.trans hnm) calls
      rw [exec_concat, exec_concat]
      refine ih.step hn hnm ?_ ?_ c
      · exact hsmall.entries ▸ hsmall.length
      · exact hlarge.entries ▸ hlarge.reflects.nodup

/-- **Inclusion**: what hits in a cache hits in every larger one that saw the same calls. -/
theorem inclusion {n m : ℕ} (hn : 1 ≤ n) (hnm : n ≤ m) (calls : List (Call K V)) :
    ∃ small large, run Session.call calls (Session.init n) = some small ∧
      run Session.call calls (Session.init m) = some large ∧
      small.cache.entries.Sublist large.cache.entries ∧
      ∀ key value small', get key small.cache = some (some value, small') →
        ∃ large', get key large.cache = some (some value, large') := by
  obtain ⟨small, hrun, hsmall⟩ := Session.run_inv hn calls
  obtain ⟨large, hrun', hlarge⟩ := Session.run_inv (hn.trans hnm) calls
  have hincluded : Included n small.cache.entries large.cache.entries := by
    rw [hsmall.entries, hlarge.entries]
    exact included_run hn hnm calls
  refine ⟨small, large, hrun, hrun', hincluded.sublist, ?_⟩
  intro key value small' hget
  obtain ⟨cache, hget', -⟩ := get_refines hsmall.corresponds key
  obtain ⟨large', hlarge', -⟩ := get_refines hlarge.corresponds key
  rw [hget'] at hget
  have hlookup : Recency.lookup key small.cache.entries = some value :=
    congrArg Prod.fst (Option.some_inj.mp hget)
  rw [hincluded.lookup hlarge.reflects.nodup hlookup] at hlarge'
  exact ⟨large', hlarge'⟩

theorem inclusion_one_two :
    ∃ small large, run Session.call [.put 1 "one", .put 2 "two", .get 1, .put 3 "three"]
        (Session.init 1) = some small ∧
      run Session.call [.put 1 "one", .put 2 "two", .get 1, .put 3 "three"]
        (Session.init 2) = some large ∧
      small.cache.entries.Sublist large.cache.entries ∧
      ∀ key value small', get key small.cache = some (some value, small') →
        ∃ large', get key large.cache = some (some value, large') :=
  inclusion (by decide) (by decide) _

/-! ## Any capacity

The constructor takes any `size_t`.  At capacity zero an empty list is already
full, and the first `put` looks at its back. -/

/-- After every call, the list was never taken from when empty, and holds at most
`capacity` entries. -/
def Bounded (capacity : ℕ) (calls : List (Call K V)) : Prop :=
  ∀ pre, pre <+: calls → ∃ t, run Session.call pre (Session.init capacity) = some t ∧
    t.cache.list.length ≤ capacity

theorem run_gets {capacity : ℕ} (calls : List (Call K V))
    (hgets : ∀ c ∈ calls, ∃ key, c = .get key) :
    ∃ t, run Session.call calls (Session.init capacity) = some t ∧
      t.cache = LRUCache.init capacity := by
  refine run_rule (fun _ (t : Session K V) => t.cache = LRUCache.init capacity) rfl ?_ calls
    (List.prefix_refl calls)
  intro pre c t hp ht
  obtain ⟨key, rfl⟩ := hgets c (hp.subset (by simp))
  refine ⟨{ cache := t.cache, past := ⟨.get key, none⟩ :: t.past }, ?_, ht⟩
  rw [Session.call, ht]
  rfl

/-- A `put` into an empty cache of capacity zero takes from an empty list, so a run that
never does has no `put`. -/
theorem gets_of_bounded_zero {calls : List (Call K V)} (h : Bounded 0 calls) :
    ∀ pre, pre <+: calls → ∀ c ∈ pre, ∃ key, c = .get key := by
  intro pre
  induction pre using List.reverseRecOn with
  | nil =>
      intro _ c hc
      cases hc
  | append_singleton pre c ih =>
      intro hp
      have hgets := ih (isPrefix_of_concat hp)
      obtain ⟨t, hrun, ht⟩ := @run_gets K V _ 0 pre hgets
      obtain ⟨t', hrun', -⟩ := h _ hp
      rw [run_concat, hrun, Option.bind_some, Session.call, ht] at hrun'
      refine List.forall_mem_append.mpr ⟨hgets, List.forall_mem_singleton.mpr ?_⟩
      cases c with
      | get key => exact ⟨key, rfl⟩
      | put key value => cases hrun'

/-- **The cache is safe and bounded** just when there is capacity for an entry, or no call
that stores one. -/
theorem bounded_iff (capacity : ℕ) (calls : List (Call K V)) :
    Bounded capacity calls ↔ 1 ≤ capacity ∨ ∀ c ∈ calls, ∃ key, c = .get key := by
  constructor
  · intro h
    refine or_iff_not_imp_left.mpr fun hzero => ?_
    obtain rfl : capacity = 0 := by omega
    exact gets_of_bounded_zero h calls (List.prefix_refl calls)
  · rintro (hcapacity | hgets) pre hp
    · obtain ⟨t, hrun, ht⟩ := Session.run_inv hcapacity pre
      exact ⟨t, hrun, length_entries (s := t.cache) ▸ ht.length⟩
    · obtain ⟨t, hrun, ht⟩ := @run_gets K V _ capacity pre fun c hc => hgets c (hp.subset hc)
      refine ⟨t, hrun, ?_⟩
      rw [ht]
      exact Nat.zero_le _

/-- The constructor accepts the capacity, and the first `put` fails. -/
theorem not_bounded_zero : ¬ Bounded 0 [Call.put 1 "one"] := by
  intro h
  obtain ⟨t, hrun, -⟩ := h _ (List.prefix_refl _)
  cases hrun

end LearnCpp.Memory.LRUCache
