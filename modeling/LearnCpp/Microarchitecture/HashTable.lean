/-
# `LearnCpp.Microarchitecture.HashTable` — open addressing with linear probing

`topics/microarchitecture/cache_friendly_hash_table.cpp`: cells in one array, no
erase, and a table that doubles.  `insert` and `rehash` call each other, so
`insert` has fuel; an `index` into a table without cells divides by zero, which
has no meaning.  `rehashes` and `fallbacks` count the calls of `rehash`, at any
depth, and the times that the probe loop of `insert` ends without a place.

Every entry can be reached: between the home of its key and its cell there are
only other keys.  So the entries are what `find` finds, and

    size entries,  capacity ≤ 2 · size   ⟹   the new table takes all of them,
                                              none of them when it is half full

since `size ≤ capacity`: a rehash does not rehash, and leaves a free cell.
-/
import LearnCpp.Lib.Probing
import Mathlib.Data.Finset.Card
import Mathlib.Data.List.Nodup

namespace LearnCpp.Microarchitecture.OpenAddressingHashTable

open Lib.Probing

variable {K V : Type}

structure Table (K V : Type) where
  capacity : ℕ
  cell : ℕ → Option (K × V) := fun _ => none
  size : ℕ := 0
  rehashes : ℕ := 0
  fallbacks : ℕ := 0

/-- Why a call has no result. -/
inductive Fault where
  | moduloByZero
  | outOfFuel
  deriving DecidableEq

variable [DecidableEq K]

def index (hash : K → ℕ) (key : K) (s : Table K V) : Except Fault ℕ :=
  if s.capacity = 0 then .error .moduloByZero else .ok (hash key % s.capacity)

/-- A cell where the probe loop stops. -/
def stops (key : K) : Option (K × V) → Bool
  | none => true
  | some e => e.1 = key

/-- The steps of the probe loop from `i` on to the cell where it stops. -/
def probe (key : K) (i : ℕ) (s : Table K V) : Option ℕ :=
  (List.range s.capacity).find? fun j => stops key (s.cell (walk s.capacity i j))

/-- What `insert` does with the cell where it stops. -/
def store (key : K) (value : V) (idx : ℕ) (s : Table K V) : Table K V :=
  match s.cell idx with
  | none => { s with cell := Function.update s.cell idx (some (key, value)), size := s.size + 1 }
  | some e => { s with cell := Function.update s.cell idx (some (e.1, value)) }

/-- `rehash`, over the `insert` that it calls. -/
def rehash (insert : K → V → Table K V → Except Fault (Bool × Table K V)) (s : Table K V) :
    Except Fault (Table K V) :=
  ((List.range s.capacity).filterMap s.cell).foldlM (fun t e => (insert e.1 e.2 t).map Prod.snd)
    { capacity := s.capacity * 2, rehashes := s.rehashes + 1, fallbacks := s.fallbacks }

def insert (hash : K → ℕ) : ℕ → K → V → Table K V → Except Fault (Bool × Table K V)
  | 0, _, _, _ => .error .outOfFuel
  | fuel + 1, key, value, s => do
      let s ← if s.capacity ≤ s.size * 2 then rehash (insert hash fuel) s else pure s
      let i ← index hash key s
      match probe key i s with
      | some j => pure (true, store key value (walk s.capacity i j) s)
      | none => do
          let s ← rehash (insert hash fuel) { s with fallbacks := s.fallbacks + 1 }
          insert hash fuel key value s

def find (hash : K → ℕ) (key : K) (s : Table K V) : Except Fault (Option V) := do
  let i ← index hash key s
  match probe key i s with
  | some j => pure ((s.cell (walk s.capacity i j)).map Prod.snd)
  | none => pure none

def init (capacity : ℕ) : Table K V := { capacity := capacity }

/-! ## Where the probe loop stops -/

/-- The cell that the loop for `key` looks at after `j` steps. -/
def spot (hash : K → ℕ) (s : Table K V) (key : K) (j : ℕ) : ℕ :=
  walk s.capacity (hash key % s.capacity) j

/-- The loop for `key` stops after `j` steps. -/
structure Stop (hash : K → ℕ) (s : Table K V) (key : K) (j : ℕ) : Prop where
  lt : j < s.capacity
  here : stops key (s.cell (spot hash s key j)) = true
  before : ∀ j' < j, stops key (s.cell (spot hash s key j')) = false

def filled (s : Table K V) : Finset ℕ := (Finset.range s.capacity).filter fun i => (s.cell i).isSome

def Holds (s : Table K V) (key : K) (value : V) : Prop :=
  ∃ i < s.capacity, s.cell i = some (key, value)

/-- Every entry is where the loop for its key stops, and `size` counts the entries. -/
structure Inv (hash : K → ℕ) (s : Table K V) : Prop where
  pos : 0 < s.capacity
  reach : ∀ i < s.capacity, ∀ e, s.cell i = some e → ∃ j, Stop hash s e.1 j ∧ spot hash s e.1 j = i
  size : s.size = (filled s).card

/-- What `find` finds. -/
def content (hash : K → ℕ) (s : Table K V) (key : K) : Option V :=
  match probe key (hash key % s.capacity) s with
  | some j => (s.cell (spot hash s key j)).map Prod.snd
  | none => none

section
variable {hash : K → ℕ} {s : Table K V} {key : K} {value : V} {j : ℕ}

theorem probe_iff : probe key (hash key % s.capacity) s = some j ↔ Stop hash s key j := by
  rw [probe, List.find?_range_eq_some, List.mem_range]
  constructor
  · rintro ⟨hstops, hlt, hbefore⟩
    exact ⟨hlt, hstops, fun j' hj' => Bool.not_inj (hbefore j' hj')⟩
  · intro h
    exact ⟨h.here, h.lt, fun j' hj' => congrArg Bool.not (h.before j' hj')⟩

theorem find_eq (hpos : 0 < s.capacity) : find hash key s = .ok (content hash s key) := by
  rw [find, index, if_neg hpos.ne', content]
  show (match probe key (hash key % s.capacity) s with
    | some j => pure ((s.cell (walk s.capacity (hash key % s.capacity) j)).map Prod.snd)
    | none => pure none) = _
  cases probe key (hash key % s.capacity) s <;> rfl

theorem Stop.spot_lt (h : Stop hash s key j) : spot hash s key j < s.capacity :=
  walk_lt (Nat.zero_lt_of_lt h.lt)

theorem Stop.key_eq (h : Stop hash s key j) {e : K × V} (he : s.cell (spot hash s key j) = some e) :
    e.1 = key := by
  have hstops := h.here
  rw [he] at hstops
  exact of_decide_eq_true hstops

theorem content_of_stop (h : Stop hash s key j) :
    content hash s key = (s.cell (spot hash s key j)).map Prod.snd := by
  rw [content, probe_iff.mpr h]

/-- **The entries are what `find` finds.** -/
theorem Inv.content_iff (h : Inv hash s) : content hash s key = some value ↔ Holds s key value := by
  constructor
  · intro hcontent
    cases hprobe : probe key (hash key % s.capacity) s with
    | none =>
        rw [content, hprobe] at hcontent
        cases hcontent
    | some j =>
        have hstop := probe_iff.mp hprobe
        rw [content_of_stop hstop] at hcontent
        obtain ⟨e, he, rfl⟩ := Option.map_eq_some_iff.mp hcontent
        obtain rfl := hstop.key_eq he
        exact ⟨_, hstop.spot_lt, he⟩
  · rintro ⟨i, hi, hcell⟩
    obtain ⟨j, hstop, rfl⟩ := h.reach i hi _ hcell
    rw [content_of_stop hstop, hcell]
    rfl

theorem Inv.size_le (h : Inv hash s) : s.size ≤ s.capacity := by
  rw [h.size]
  exact (Finset.card_filter_le _ _).trans (Finset.card_range _).le

theorem Inv.exists_stop (h : Inv hash s) (hfree : s.size < s.capacity) (key : K) :
    ∃ j, Stop hash s key j := by
  obtain ⟨i, hi, hempty⟩ : ∃ i < s.capacity, s.cell i = none := by
    by_contra hnone
    have hall : filled s = Finset.range s.capacity := by
      refine Finset.filter_true_of_mem fun i hi => Option.isSome_iff_ne_none.mpr ?_
      exact fun habs => hnone ⟨i, Finset.mem_range.mp hi, habs⟩
    rw [h.size, hall, Finset.card_range] at hfree
    exact Nat.lt_irrefl _ hfree
  obtain ⟨j, hj, hwalk⟩ := exists_walk (Nat.mod_lt (hash key) h.pos) hi
  have hexists : ∃ j, stops key (s.cell (spot hash s key j)) = true := by
    refine ⟨j, ?_⟩
    rw [spot, hwalk, hempty]
    rfl
  refine ⟨Nat.find hexists, ?_, Nat.find_spec hexists, fun j' hj' => ?_⟩
  · refine (Nat.find_min' hexists ?_).trans_lt hj
    rw [spot, hwalk, hempty]
    rfl
  · exact Bool.eq_false_iff.mpr (Nat.find_min hexists hj')

/-! ## Storing -/

theorem Stop.stops_update (h : Stop hash s key j) {key' : K} {x : ℕ}
    (hx : stops key' (s.cell x) = false) :
    stops key' (Function.update s.cell (spot hash s key j) (some (key, value)) x) = false := by
  rcases eq_or_ne x (spot hash s key j) with rfl | hne
  · rw [Function.update_self]
    cases hcell : s.cell (spot hash s key j) with
    | none =>
        rw [hcell] at hx
        cases hx
    | some e =>
        rw [hcell] at hx
        show decide (key = key') = false
        rw [← h.key_eq hcell]
        exact hx
  · rw [Function.update_of_ne hne]
    exact hx

omit [DecidableEq K] in
theorem filled_update {idx : ℕ} (hidx : idx < s.capacity) {e : K × V} :
    filled { s with cell := Function.update s.cell idx (some e) } = Insert.insert idx (filled s) := by
  ext i
  rw [Finset.mem_insert, filled, filled, Finset.mem_filter, Finset.mem_filter]
  show i ∈ Finset.range s.capacity ∧ (Function.update s.cell idx (some e) i).isSome = true ↔ _
  rcases eq_or_ne i idx with rfl | hne
  · rw [Function.update_self]
    exact iff_of_true ⟨Finset.mem_range.mpr hidx, rfl⟩ (.inl rfl)
  · rw [Function.update_of_ne hne, or_iff_right hne]

/-- The table after a store, as far as entries go. -/
def stored (hash : K → ℕ) (key : K) (value : V) (j : ℕ) (s : Table K V) : Table K V :=
  { s with
    cell := Function.update s.cell (spot hash s key j) (some (key, value))
    size := if (s.cell (spot hash s key j)).isSome then s.size else s.size + 1 }

theorem store_eq (h : Stop hash s key j) :
    store key value (spot hash s key j) s = stored hash key value j s := by
  rw [store, stored]
  split
  next hcell =>
    rw [hcell]
    rfl
  next e hcell =>
    rw [hcell, h.key_eq hcell]
    rfl

theorem Stop.after (h : Stop hash s key j) : Stop hash (stored hash key value j s) key j := by
  refine ⟨h.lt, ?_, fun j' hj' => h.stops_update (h.before j' hj')⟩
  show stops key (Function.update s.cell (spot hash s key j) (some (key, value))
    (spot hash s key j)) = true
  rw [Function.update_self]
  exact decide_eq_true rfl

theorem Stop.after_of_ne (h : Stop hash s key j) {k : K} {j' : ℕ} (h' : Stop hash s k j')
    (hne : spot hash s k j' ≠ spot hash s key j) : Stop hash (stored hash key value j s) k j' := by
  refine ⟨h'.lt, ?_, fun x hx => h.stops_update (h'.before x hx)⟩
  show stops k (Function.update s.cell (spot hash s key j) (some (key, value))
    (spot hash s k j')) = true
  rw [Function.update_of_ne hne]
  exact h'.here

/-- **A store keeps every entry where its key is looked for.** -/
theorem Inv.after (h : Inv hash s) (hstop : Stop hash s key j) :
    Inv hash (stored hash key value j s) := by
  refine ⟨h.pos, ?_, ?_⟩
  · intro i hi e he
    rcases eq_or_ne i (spot hash s key j) with rfl | hne
    · obtain rfl : (key, value) = e :=
        Option.some_inj.mp ((Function.update_self _ _ s.cell).symm.trans he)
      exact ⟨j, hstop.after, rfl⟩
    · have hcell : s.cell i = some e := (Function.update_of_ne hne _ _).symm.trans he
      obtain ⟨j', hstop', rfl⟩ := h.reach i hi e hcell
      exact ⟨j', hstop.after_of_ne hstop' hne, rfl⟩
  · show (if (s.cell (spot hash s key j)).isSome then s.size else s.size + 1) =
      (filled { s with cell := Function.update s.cell (spot hash s key j) (some (key, value)) }).card
    rw [filled_update hstop.spot_lt]
    split
    next hsome =>
      rw [Finset.insert_eq_of_mem, h.size]
      exact Finset.mem_filter.mpr ⟨Finset.mem_range.mpr hstop.spot_lt, hsome⟩
    next hnone =>
      rw [Finset.card_insert_of_notMem, h.size]
      exact fun habs => hnone (Finset.mem_filter.mp habs).2

theorem content_stored_self (hstop : Stop hash s key j) :
    content hash (stored hash key value j s) key = some value := by
  rw [content_of_stop hstop.after]
  show (Function.update s.cell (spot hash s key j) (some (key, value)) (spot hash s key j)).map _ = _
  rw [Function.update_self]
  rfl

theorem Inv.content_stored_of_ne (h : Inv hash s) (hstop : Stop hash s key j) {k : K}
    (hne : k ≠ key) : content hash (stored hash key value j s) k =
      content hash s k := by
  refine Option.ext fun v => ?_
  rw [(h.after hstop).content_iff, h.content_iff]
  refine exists_congr fun i => and_congr_right fun _ => ?_
  show Function.update s.cell (spot hash s key j) (some (key, value)) i = _ ↔ _
  rcases eq_or_ne i (spot hash s key j) with rfl | hi
  · rw [Function.update_self]
    refine iff_of_false ?_ fun habs => hne (hstop.key_eq habs)
    intro habs
    exact hne (congrArg Prod.fst (Option.some_inj.mp habs)).symm
  · rw [Function.update_of_ne hi]

theorem content_stored (h : Inv hash s) (hstop : Stop hash s key j) :
    content hash (stored hash key value j s) =
      Function.update (content hash s) key (some value) := by
  funext k
  rcases eq_or_ne k key with rfl | hne
  · rw [Function.update_self]
    exact content_stored_self hstop
  · rw [Function.update_of_ne hne]
    exact h.content_stored_of_ne hstop hne

theorem size_stored (hstop : Stop hash s key j) : (stored hash key value j s).size =
    if (content hash s key).isSome then s.size else s.size + 1 := by
  rw [content_of_stop hstop, Option.isSome_map]
  rfl

end

/-! ## Inserting -/

/-- The table with a new pair. -/
def place (hash : K → ℕ) (key : K) (value : V) (s : Table K V) : Table K V :=
  match probe key (hash key % s.capacity) s with
  | some j => stored hash key value j s
  | none => s

/-- The table of twice the capacity with the same pairs. -/
def relocate (hash : K → ℕ) (s : Table K V) : Table K V :=
  ((List.range s.capacity).filterMap s.cell).foldl (fun t e => place hash e.1 e.2 t)
    { capacity := s.capacity * 2, rehashes := s.rehashes + 1, fallbacks := s.fallbacks }

/-- What it takes for a table to be one with a new pair. -/
structure Placed (hash : K → ℕ) (key : K) (value : V) (s s' : Table K V) : Prop where
  inv : Inv hash s'
  content : content hash s' = Function.update (content hash s) key (some value)
  size : s'.size = if (OpenAddressingHashTable.content hash s key).isSome then s.size else s.size + 1
  capacity : s'.capacity = s.capacity
  rehashes : s'.rehashes = s.rehashes
  fallbacks : s'.fallbacks = s.fallbacks

section
variable {hash : K → ℕ} {s : Table K V} {key : K} {value : V} {fuel : ℕ}

theorem Inv.placed (h : Inv hash s) (hfree : s.size < s.capacity) :
    Placed hash key value s (place hash key value s) := by
  obtain ⟨j, hstop⟩ := h.exists_stop hfree key
  rw [place, probe_iff.mpr hstop]
  exact ⟨h.after hstop, content_stored h hstop, size_stored hstop, rfl, rfl, rfl⟩

theorem insert_probe (h : Inv hash s) (hfree : s.size < s.capacity) :
    (do
      let i ← index hash key s
      match probe key i s with
      | some j => pure (true, store key value (walk s.capacity i j) s)
      | none => do
          let s ← rehash (insert hash fuel) { s with fallbacks := s.fallbacks + 1 }
          insert hash fuel key value s) = Except.ok (true, place hash key value s) := by
  obtain ⟨j, hstop⟩ := h.exists_stop hfree key
  rw [index, if_neg h.pos.ne', place, probe_iff.mpr hstop]
  show (match probe key (hash key % s.capacity) s with
    | some j => pure (true, store key value (walk s.capacity (hash key % s.capacity) j) s)
    | none => do
        let s ← rehash (insert hash fuel) { s with fallbacks := s.fallbacks + 1 }
        insert hash fuel key value s) = _
  rw [probe_iff.mpr hstop]
  exact congrArg (fun s => Except.ok (true, s)) (store_eq hstop)

theorem insert_of_room (h : Inv hash s) (hroom : s.size * 2 < s.capacity) :
    insert hash (fuel + 1) key value s = .ok (true, place hash key value s) := by
  rw [insert, if_neg (Nat.not_le_of_lt hroom), pure_bind]
  exact insert_probe h (by omega)

theorem init_inv {capacity : ℕ} (hpos : 0 < capacity) {r f : ℕ} :
    Inv hash ({ capacity := capacity, rehashes := r, fallbacks := f } : Table K V) where
  pos := hpos
  reach := by
    intro i _ e he
    cases he
  size := by
    refine (Finset.card_eq_zero.mpr (Finset.filter_false_of_mem ?_)).symm
    intro i _ habs
    cases habs

theorem content_init {capacity r f : ℕ} (hpos : 0 < capacity) :
    content hash ({ capacity := capacity, rehashes := r, fallbacks := f } : Table K V) =
      fun _ => none := by
  funext k
  refine Option.eq_none_iff_forall_ne_some.mpr fun v hv => ?_
  obtain ⟨i, _, hcell⟩ := (init_inv hpos).content_iff.mp hv
  cases hcell

/-- What relocating some of the entries comes to. -/
structure Relocated (hash : K → ℕ) (t₀ : Table K V) (es : List (K × V)) (t : Table K V) : Prop where
  inv : Inv hash t
  content : ∀ k v, content hash t k = some v ↔ (k, v) ∈ es
  size : t.size = es.length
  capacity : t.capacity = t₀.capacity
  rehashes : t.rehashes = t₀.rehashes
  fallbacks : t.fallbacks = t₀.fallbacks

/-- **A rehash does not rehash**: the new table is never half full before it has all entries. -/
theorem foldlM_insert (hash : K → ℕ) (fuel : ℕ) {capacity r f : ℕ} (hpos : 0 < capacity) (es : List (K × V))
    (hnodup : (es.map Prod.fst).Nodup) (hroom : es.length * 2 ≤ capacity) :
    es.foldlM (fun t e => (insert hash (fuel + 1) e.1 e.2 t).map Prod.snd)
        { capacity := capacity, rehashes := r, fallbacks := f } =
      .ok (es.foldl (fun t e => place hash e.1 e.2 t)
        { capacity := capacity, rehashes := r, fallbacks := f }) ∧
    Relocated hash { capacity := capacity, rehashes := r, fallbacks := f } es
      (es.foldl (fun t e => place hash e.1 e.2 t)
        { capacity := capacity, rehashes := r, fallbacks := f }) := by
  induction es using List.reverseRecOn with
  | nil =>
      refine ⟨rfl, init_inv hpos, ?_, rfl, rfl, rfl, rfl⟩
      intro k v
      rw [List.foldl_nil, content_init hpos]
      exact iff_of_false (Option.some_ne_none v).symm List.not_mem_nil
  | append_singleton es e ih =>
      rw [List.map_append] at hnodup
      rw [List.length_append, List.length_singleton] at hroom
      obtain ⟨hfold, ht⟩ := ih (List.nodup_append.mp hnodup).1 (by omega)
      rw [List.foldlM_append, hfold, List.foldl_append, List.foldl_cons, List.foldl_nil]
      generalize es.foldl (fun t e => place hash e.1 e.2 t) _ = t at ht ⊢
      have hnew : OpenAddressingHashTable.content hash t e.1 = none := by
        refine Option.eq_none_iff_forall_ne_some.mpr fun v hv => ?_
        have hmem : (e.1, v) ∈ es := (ht.content e.1 v).mp hv
        exact List.disjoint_of_nodup_append hnodup (List.mem_map_of_mem hmem) List.mem_cons_self
      have hcapacity : t.capacity = capacity := ht.capacity
      have hsize : t.size = es.length := ht.size
      have hplaced : Placed hash e.1 e.2 t (place hash e.1 e.2 t) := ht.inv.placed (by omega)
      constructor
      · show ((insert hash (fuel + 1) e.1 e.2 t).map Prod.snd).bind pure = _
        rw [insert_of_room ht.inv (by omega)]
        rfl
      · refine ⟨hplaced.inv, ?_, ?_, hplaced.capacity.trans ht.capacity,
          hplaced.rehashes.trans ht.rehashes, hplaced.fallbacks.trans ht.fallbacks⟩
        · intro k v
          rw [hplaced.content, List.mem_append, List.mem_singleton, ← ht.content k v]
          rcases eq_or_ne k e.1 with rfl | hne
          · rw [Function.update_self, hnew, or_iff_right (Option.some_ne_none v).symm, Option.some_inj]
            exact ⟨fun hv => Prod.ext rfl hv.symm, fun hv => (congrArg Prod.snd hv).symm⟩
          · rw [Function.update_of_ne hne, or_iff_left fun habs => hne (congrArg Prod.fst habs)]
        · rw [hplaced.size, hnew, List.length_append, hsize]
          rfl

/-- The pairs of a table, in the order in which a rehash moves them. -/
def pairs (s : Table K V) : List (K × V) := (List.range s.capacity).filterMap s.cell

theorem Inv.nodup_pairs (h : Inv hash s) : ((pairs s).map Prod.fst).Nodup := by
  refine List.pairwise_map.mpr (List.pairwise_filterMap.mpr ?_)
  refine List.nodup_range.imp_of_mem ?_
  intro i i' hi hi' hne e he e' he' hkey
  obtain ⟨j, hstop, rfl⟩ := h.reach i (List.mem_range.mp hi) e he
  obtain ⟨j', hstop', rfl⟩ := h.reach i' (List.mem_range.mp hi') e' he'
  rw [← hkey] at hstop' hne
  obtain rfl : j = j' := Option.some_inj.mp ((probe_iff.mpr hstop).symm.trans (probe_iff.mpr hstop'))
  exact hne rfl

theorem Inv.length_pairs (h : Inv hash s) : (pairs s).length = s.size := by
  rw [pairs, List.length_filterMap_eq_countP, List.countP_eq_length_filter, h.size]
  exact congrArg List.length (List.filter_congr fun i _ => Bool.decide_eq_true.symm)

theorem Inv.mem_pairs (h : Inv hash s) {k : K} {v : V} :
    (k, v) ∈ pairs s ↔ content hash s k = some v := by
  rw [h.content_iff, pairs, List.mem_filterMap]
  exact exists_congr fun i => and_congr_left' List.mem_range

/-- A table of twice the capacity, with the same pairs and a rehash more. -/
structure Doubled (hash : K → ℕ) (s s' : Table K V) : Prop where
  inv : Inv hash s'
  content : content hash s' = content hash s
  size : s'.size = s.size
  capacity : s'.capacity = s.capacity * 2
  rehashes : s'.rehashes = s.rehashes + 1
  fallbacks : s'.fallbacks = s.fallbacks

theorem Inv.rehash (h : Inv hash s) (fuel : ℕ) :
    rehash (insert hash (fuel + 1)) s = .ok (relocate hash s) ∧ Doubled hash s (relocate hash s) := by
  have hroom : (pairs s).length * 2 ≤ s.capacity * 2 := by
    rw [h.length_pairs]
    exact Nat.mul_le_mul_right 2 h.size_le
  obtain ⟨hfold, ht⟩ := foldlM_insert hash fuel (r := s.rehashes + 1) (f := s.fallbacks)
    (Nat.mul_pos h.pos Nat.zero_lt_two) (pairs s) h.nodup_pairs hroom
  refine ⟨hfold, ht.inv, ?_, ht.size.trans h.length_pairs, ht.capacity, ht.rehashes, ht.fallbacks⟩
  funext k
  refine Option.ext fun v => ?_
  rw [← h.mem_pairs]
  exact ht.content k v

/-- What an `insert` comes to. -/
structure Inserted (hash : K → ℕ) (key : K) (value : V) (s s' : Table K V) : Prop where
  returns : ∀ fuel, 2 ≤ fuel → insert hash fuel key value s = .ok (true, s')
  inv : Inv hash s'
  content : content hash s' = Function.update (content hash s) key (some value)
  size : s'.size = if (OpenAddressingHashTable.content hash s key).isSome then s.size else s.size + 1
  rehashes : s'.rehashes ≤ s.rehashes + 1
  fallbacks : s'.fallbacks = s.fallbacks

/-- An `insert` keeps the capacity, or doubles it in a table that is half full. -/
def Grown (s s' : Table K V) : Prop :=
  s'.capacity = s.capacity ∨ (s'.capacity = s.capacity * 2 ∧ s.capacity ≤ s.size * 2)

/-- **Every `insert` returns**, with at most one rehash and without the fallback; and the
table grows only when it is half full. -/
theorem Inv.insert_grown (h : Inv hash s) (key : K) (value : V) :
    ∃ s', Inserted hash key value s s' ∧ Grown s s' := by
  by_cases hfull : s.capacity ≤ s.size * 2
  · obtain ⟨-, hd⟩ := h.rehash 0
    have hfree : (relocate hash s).size < (relocate hash s).capacity := by
      rw [hd.size, hd.capacity]
      exact h.size_le.trans_lt (lt_mul_of_one_lt_right h.pos Nat.one_lt_two)
    have hp : Placed hash key value (relocate hash s) (place hash key value (relocate hash s)) :=
      hd.inv.placed hfree
    refine ⟨place hash key value (relocate hash s), ⟨?_, hp.inv, ?_, ?_, ?_, ?_⟩,
      .inr ⟨hp.capacity.trans hd.capacity, hfull⟩⟩
    · intro fuel hfuel
      obtain ⟨fuel, rfl⟩ := Nat.exists_eq_add_of_le' hfuel
      rw [OpenAddressingHashTable.insert, if_pos hfull, (h.rehash fuel).1]
      exact insert_probe hd.inv hfree
    · rw [hp.content, hd.content]
    · rw [hp.size, hd.content, hd.size]
    · rw [hp.rehashes, hd.rehashes]
    · rw [hp.fallbacks, hd.fallbacks]
  · have hroom : s.size * 2 < s.capacity := Nat.lt_of_not_le hfull
    have hp : Placed hash key value s (place hash key value s) := h.placed (by omega)
    refine ⟨place hash key value s, ⟨?_, hp.inv, hp.content, hp.size, ?_, hp.fallbacks⟩,
      .inl hp.capacity⟩
    · intro fuel hfuel
      obtain ⟨fuel, rfl⟩ := Nat.exists_eq_add_of_le' hfuel
      exact insert_of_room h hroom
    · rw [hp.rehashes]
      exact Nat.le_succ _

theorem Inv.insert (h : Inv hash s) (key : K) (value : V) : ∃ s', Inserted hash key value s s' :=
  (h.insert_grown key value).imp fun _ => And.left

end

/-! ## Runs -/

def inserts (hash : K → ℕ) (fuel : ℕ) (calls : List (K × V)) (s : Table K V) :
    Except Fault (Table K V) :=
  calls.foldlM (fun s call => (insert hash fuel call.1 call.2 s).map Prod.snd) s

/-- The value of the last insert of a key. -/
def latest (key : K) (calls : List (K × V)) : Option V :=
  (calls.reverse.find? fun call => call.1 = key).map Prod.snd

theorem latest_concat (calls : List (K × V)) (call : K × V) :
    (fun key => latest key (calls ++ [call])) =
      Function.update (fun key => latest key calls) call.1 (some call.2) := by
  funext key
  rw [latest, List.reverse_append, List.reverse_singleton, List.singleton_append]
  rcases eq_or_ne key call.1 with rfl | hne
  · rw [Function.update_self]
    exact congrArg _ (List.find?_cons_of_pos (p := fun c : K × V => c.1 = call.1) (decide_eq_true rfl))
  · rw [Function.update_of_ne hne]
    refine congrArg _ (List.find?_cons_of_neg (p := fun c : K × V => c.1 = key) fun habs => ?_)
    exact hne (of_decide_eq_true habs).symm

theorem latest_isSome {key : K} {calls : List (K × V)} :
    (latest key calls).isSome ↔ key ∈ calls.map Prod.fst := by
  rw [latest, Option.isSome_map, List.find?_isSome, List.mem_map]
  refine exists_congr fun call => ?_
  rw [List.mem_reverse, decide_eq_true_iff]

theorem run_inv (hash : K → ℕ) {capacity : ℕ} (hcapacity : 1 ≤ capacity) (calls : List (K × V)) :
    ∃ s, (∀ fuel, 2 ≤ fuel → inserts hash fuel calls (init capacity) = .ok s) ∧ Inv hash s ∧
      content hash s = (fun key => latest key calls) ∧
      s.size = (calls.map Prod.fst).toFinset.card ∧ s.fallbacks = 0 := by
  induction calls using List.reverseRecOn with
  | nil => exact ⟨init capacity, fun _ _ => rfl, init_inv hcapacity, content_init hcapacity, rfl, rfl⟩
  | append_singleton calls call ih =>
      obtain ⟨s, hrun, hs, hcontent, hsize, hfallbacks⟩ := ih
      obtain ⟨s', h⟩ := hs.insert call.1 call.2
      refine ⟨s', ?_, h.inv, ?_, ?_, h.fallbacks.trans hfallbacks⟩
      · intro fuel hfuel
        rw [inserts, List.foldlM_append]
        have hbefore := hrun fuel hfuel
        rw [inserts] at hbefore
        rw [hbefore]
        show ((insert hash fuel call.1 call.2 s).map Prod.snd).bind pure = _
        rw [h.returns fuel hfuel]
        rfl
      · rw [h.content, hcontent, latest_concat]
      · have hisSome : (content hash s call.1).isSome ↔ call.1 ∈ (calls.map Prod.fst).toFinset := by
          rw [hcontent, latest_isSome, List.mem_toFinset]
        rw [h.size, hsize, List.map_append, List.map_singleton, List.toFinset_append,
          List.toFinset_cons, List.toFinset_nil, insert_empty_eq, Finset.union_comm,
          ← Finset.insert_eq]
        split
        next hin => rw [Finset.insert_eq_of_mem (hisSome.mp hin)]
        next hout => rw [Finset.card_insert_of_notMem fun habs => hout (hisSome.mpr habs)]

/-- **The table is a finite map**, whatever the hash function: and every `insert` returns `true`,
with at most one rehash, counted at any depth, and without the fallback. -/
theorem refines_map (hash : K → ℕ) {capacity : ℕ} (hcapacity : 1 ≤ capacity)
    (calls : List (K × V)) :
    ∃ s, (∀ fuel, 2 ≤ fuel → inserts hash fuel calls (init capacity) = .ok s) ∧
      (∀ key, find hash key s = .ok (latest key calls)) ∧
      s.size = (calls.map Prod.fst).toFinset.card ∧
      ∀ key value, ∃ s', (∀ fuel, 2 ≤ fuel → insert hash fuel key value s = .ok (true, s')) ∧
        s'.rehashes ≤ s.rehashes + 1 ∧ s'.fallbacks = s.fallbacks := by
  obtain ⟨s, hrun, hs, hcontent, hsize, -⟩ := run_inv hash hcapacity calls
  refine ⟨s, hrun, ?_, hsize, ?_⟩
  · intro key
    rw [find_eq hs.pos, hcontent]
  · intro key value
    obtain ⟨s', h⟩ := hs.insert key value
    exact ⟨s', h.returns, h.rehashes, h.fallbacks⟩

/-- The table of one cell is full after one insert. -/
theorem refines_map_one :
    ∃ s, (∀ fuel, 2 ≤ fuel → inserts id fuel [(1, "one"), (2, "two"), (1, "uno")] (init 1) = .ok s) ∧
      (∀ key, find id key s = .ok (latest key [(1, "one"), (2, "two"), (1, "uno")])) ∧
      s.size = ([(1, "one"), (2, "two"), (1, "uno")].map Prod.fst).toFinset.card ∧
      ∀ key value, ∃ s', (∀ fuel, 2 ≤ fuel → insert id fuel key value s = .ok (true, s')) ∧
        s'.rehashes ≤ s.rehashes + 1 ∧ s'.fallbacks = s.fallbacks :=
  refines_map id (Nat.le_refl 1) _

/-! ## Any initial capacity

The constructor takes any `size_t`.  Zero doubles to zero, so a table without cells never
gets one, and the first call divides by its size. -/

inductive Call (K V : Type) where
  | insert (key : K) (value : V)
  | find (key : K)

/-- One call; what it answers is dropped. -/
def step (hash : K → ℕ) (fuel : ℕ) : Call K V → Table K V → Except Fault (Table K V)
  | .insert key value, s => (insert hash fuel key value s).map Prod.snd
  | .find key, s => (find hash key s).map fun _ => s

def calls (hash : K → ℕ) (fuel : ℕ) (cs : List (Call K V)) (s : Table K V) : Except Fault (Table K V) :=
  cs.foldlM (fun s c => step hash fuel c s) s

/-- After every call: it returned, without a division by zero, and the table has no more
cells than it began with or four for each entry. -/
def Sound (hash : K → ℕ) (capacity : ℕ) (cs : List (Call K V)) : Prop :=
  ∀ pre, pre <+: cs → ∃ s, (∀ fuel, 2 ≤ fuel → calls hash fuel pre (init capacity) = .ok s) ∧
    s.capacity ≤ max capacity (4 * s.size)

section
variable {hash : K → ℕ} {capacity : ℕ} {s s' : Table K V} {key : K} {value : V}

theorem Inserted.size_le (h : Inserted hash key value s s') : s.size ≤ s'.size := by
  rw [h.size]
  split
  · exact le_refl _
  · exact Nat.le_succ _

omit [DecidableEq K] in
/-- Growth keeps the bound: a table that doubles has half as many entries as cells. -/
theorem Grown.capacity_le (h : Grown s s') (hsize : s.size ≤ s'.size)
    (hs : s.capacity ≤ max capacity (4 * s.size)) : s'.capacity ≤ max capacity (4 * s'.size) := by
  rcases h with hsame | ⟨hdouble, hhalf⟩ <;> omega

theorem Inv.step (h : Inv hash s) (hs : s.capacity ≤ max capacity (4 * s.size)) (c : Call K V) :
    ∃ s', (∀ fuel, 2 ≤ fuel → step hash fuel c s = .ok s') ∧ Inv hash s' ∧
      s'.capacity ≤ max capacity (4 * s'.size) := by
  cases c with
  | insert key value =>
      obtain ⟨s', hinserted, hgrown⟩ := h.insert_grown key value
      refine ⟨s', fun fuel hfuel => ?_, hinserted.inv, hgrown.capacity_le hinserted.size_le hs⟩
      rw [OpenAddressingHashTable.step, hinserted.returns fuel hfuel]
      rfl
  | find key =>
      refine ⟨s, fun fuel _ => ?_, h, hs⟩
      rw [OpenAddressingHashTable.step, find_eq h.pos]
      rfl

theorem calls_inv (hash : K → ℕ) (hcapacity : 1 ≤ capacity) (cs : List (Call K V)) :
    ∃ s, (∀ fuel, 2 ≤ fuel → calls hash fuel cs (init capacity) = .ok s) ∧ Inv hash s ∧
      s.capacity ≤ max capacity (4 * s.size) := by
  induction cs using List.reverseRecOn with
  | nil => exact ⟨init capacity, fun _ _ => rfl, init_inv hcapacity, le_max_left _ _⟩
  | append_singleton cs c ih =>
      obtain ⟨s, hrun, hinv, hs⟩ := ih
      obtain ⟨s', hstep, hinv', hs'⟩ := hinv.step hs c
      refine ⟨s', fun fuel hfuel => ?_, hinv', hs'⟩
      have hbefore := hrun fuel hfuel
      rw [calls] at hbefore
      rw [calls, List.foldlM_append, hbefore]
      show (step hash fuel c s).bind pure = _
      rw [hstep fuel hfuel]
      rfl

/-- Whatever is called on a table without cells divides by zero. -/
theorem step_init_zero (fuel : ℕ) (c : Call K V) :
    step hash (fuel + 1) c (init 0) = .error .moduloByZero := by
  cases c with
  | insert key value => rfl
  | find key => rfl

/-- **Every call returns and the table stays small** just when it began with a cell, or
nothing is called. -/
theorem sound_iff (hash : K → ℕ) (capacity : ℕ) (cs : List (Call K V)) :
    Sound hash capacity cs ↔ 1 ≤ capacity ∨ cs = [] := by
  constructor
  · intro h
    refine or_iff_not_imp_left.mpr fun hzero => ?_
    obtain rfl : capacity = 0 := by omega
    cases cs with
    | nil => rfl
    | cons c cs =>
        obtain ⟨s, hrun, -⟩ := h [c] (List.prefix_append [c] cs)
        have hfail : calls hash 2 [c] (init 0) = .error .moduloByZero := by
          rw [calls, List.foldlM_cons, step_init_zero]
          rfl
        cases hfail.symm.trans (hrun 2 le_rfl)
  · rintro (hcapacity | rfl) pre hp
    · obtain ⟨s, hrun, -, hs⟩ := calls_inv hash hcapacity pre
      exact ⟨s, hrun, hs⟩
    · obtain rfl := List.prefix_nil.mp hp
      exact ⟨init capacity, fun _ _ => rfl, le_max_left _ _⟩

end

/-- The first insert into a table that was made without cells. -/
theorem not_sound_zero : ¬ Sound id 0 [Call.insert 1 "one"] := by
  intro h
  obtain ⟨s, hrun, -⟩ := h _ (List.prefix_refl _)
  cases hrun 2 le_rfl

end LearnCpp.Microarchitecture.OpenAddressingHashTable
