/-
# `LearnCpp.Lib.Recency` — lists in the order of last use

The abstract cache with a bound: entries with distinct keys, the most recently
used first.  A hit moves its entry to the front; a new key comes to the front,
and when the cache is full the last entry goes.

What that means is said in terms of the calls of the past and their answers.  The
list reflects the past when its order is that of the last uses and its values are
those of the latest puts (`Reflects`); every call keeps that, and an entry only
leaves by being the least recently used (`Reflects.evicted`).

Two caches that see the same calls, a small one and a large one, do not stay
prefixes of each other: a hit in the large one alone reorders it.  But

    small <+ large,   and   small is full  or  small = large

is kept by every call (`Included.step`), so what hits in the small cache hits in
the large one.
-/
import Mathlib.Algebra.Order.Group.Nat
import Mathlib.Data.List.Nodup
import Mathlib.Tactic.Common

namespace LearnCpp.Lib.Recency

variable {K V : Type}

inductive Call (K V : Type) where
  | get (key : K)
  | put (key : K) (value : V)
  deriving DecidableEq

def keys (l : List (K × V)) : List K := l.map Prod.fst

variable [DecidableEq K]

def lookup (key : K) (l : List (K × V)) : Option V :=
  (l.find? fun e => e.1 = key).map Prod.snd

def without (key : K) (l : List (K × V)) : List (K × V) := l.filter fun e => e.1 ≠ key

/-- Put an entry to the front that was somewhere. -/
def touch (key : K) (value : V) (l : List (K × V)) : List (K × V) := (key, value) :: without key l

/-- Put a new entry to the front of at most `capacity` entries. -/
def insert (capacity : ℕ) (key : K) (value : V) (l : List (K × V)) : List (K × V) :=
  (key, value) :: if capacity ≤ l.length then l.dropLast else l

def step (capacity : ℕ) : Call K V → List (K × V) → List (K × V)
  | .get key, l =>
      match lookup key l with
      | some value => touch key value l
      | none => l
  | .put key value, l =>
      match lookup key l with
      | some _ => touch key value l
      | none => insert capacity key value l

def answer : Call K V → List (K × V) → Option V
  | .get key, l => lookup key l
  | .put _ _, _ => none

section
variable {key : K} {value : V} {l : List (K × V)} {capacity : ℕ}

theorem without_sublist : (without key l).Sublist l := List.filter_sublist

theorem ne_of_mem_without {e : K × V} (he : e ∈ without key l) : e.1 ≠ key :=
  of_decide_eq_true (List.mem_filter.mp he).2

theorem find_iff {α κ : Type} [DecidableEq κ] {key : α → κ} {l : List α} (hnodup : (l.map key).Nodup)
    {k : κ} {r : α} : l.find? (fun x => key x = k) = some r ↔ r ∈ l ∧ key r = k := by
  constructor
  · intro hfind
    have hkey : decide (key r = k) = true := List.find?_some (p := fun x => decide (key x = k)) hfind
    exact ⟨List.mem_of_find?_eq_some hfind, of_decide_eq_true hkey⟩
  · rintro ⟨hr, rfl⟩
    cases hfind : l.find? (fun x => key x = key r) with
    | none => exact absurd (decide_eq_true rfl) (List.find?_eq_none.mp hfind r hr)
    | some r' =>
        have hkey : decide (key r' = key r) = true :=
          List.find?_some (p := fun x => decide (key x = key r)) hfind
        rw [List.inj_on_of_nodup_map hnodup (List.mem_of_find?_eq_some hfind) hr
          (of_decide_eq_true hkey)]

theorem lookup_of_mem (hnodup : (keys l).Nodup) (h : (key, value) ∈ l) :
    lookup key l = some value :=
  Option.map_eq_some_iff.mpr ⟨(key, value), (find_iff hnodup).mpr ⟨h, rfl⟩, rfl⟩

theorem mem_of_lookup (h : lookup key l = some value) : (key, value) ∈ l := by
  obtain ⟨e, he, rfl⟩ := Option.map_eq_some_iff.mp h
  have hkey : decide (e.1 = key) = true := List.find?_some (p := fun x : K × V => decide (x.1 = key)) he
  obtain rfl := of_decide_eq_true hkey
  exact List.mem_of_find?_eq_some he

theorem lookup_eq_none : lookup key l = none ↔ key ∉ keys l := by
  rw [lookup, Option.map_eq_none_iff, List.find?_eq_none]
  constructor
  · intro h hmem
    obtain ⟨e, he, rfl⟩ := List.mem_map.mp hmem
    exact h e he (decide_eq_true rfl)
  · intro h e he heq
    exact h (List.mem_map.mpr ⟨e, he, of_decide_eq_true heq⟩)

theorem length_without (hnodup : (keys l).Nodup) (h : key ∈ keys l) :
    (without key l).length + 1 = l.length := by
  induction l with
  | nil => cases h
  | cons e l ih =>
      obtain ⟨hfresh, hrest⟩ := List.nodup_cons.mp hnodup
      by_cases he : e.1 = key
      · have hall : without key l = l := by
          refine List.filter_eq_self.mpr fun e' he' => decide_eq_true ?_
          rintro rfl
          exact hfresh (he ▸ List.mem_map_of_mem he')
        have hhead : without key (e :: l) = without key l :=
          List.filter_cons_of_neg fun habs => of_decide_eq_true habs he
        rw [hhead, hall]
        rfl
      · have hhead : without key (e :: l) = e :: without key l :=
          List.filter_cons_of_pos (decide_eq_true he)
        have hmem : key ∈ keys l := by
          rcases List.mem_cons.mp h with heq | hmem
          · exact absurd heq.symm he
          · exact hmem
        rw [hhead, List.length_cons, ih hrest hmem]
        rfl

end

/-! ## The past -/

/-- A call and what it answered. -/
structure Event (K V : Type) where
  call : Call K V
  answer : Option V

/-- The key that a call used: of a put, or of a get that hit. -/
def Event.uses : Event K V → Option K
  | ⟨.put key _, _⟩ => some key
  | ⟨.get key, some _⟩ => some key
  | ⟨.get _, none⟩ => none

/-- When a key was last used, with the latest event first; 0 for never. -/
def lastUse (key : K) : List (Event K V) → ℕ
  | [] => 0
  | e :: past => if e.uses = some key then past.length + 1 else lastUse key past

/-- The value of the latest put of a key, with the latest event first. -/
def latestPut (key : K) : List (Event K V) → Option V
  | [] => none
  | ⟨.put key' value, _⟩ :: past => if key' = key then some value else latestPut key past
  | ⟨.get _, _⟩ :: past => latestPut key past

/-- The entries are in the order of their last uses, with the values of the latest puts. -/
structure Reflects (past : List (Event K V)) (l : List (K × V)) : Prop where
  order : l.Pairwise fun a b => lastUse b.1 past < lastUse a.1 past
  latest : ∀ e ∈ l, latestPut e.1 past = some e.2

section
variable {past : List (Event K V)} {e : Event K V} {key : K} {value : V} {l l' : List (K × V)}
  {capacity : ℕ}

theorem lastUse_le : lastUse key past ≤ past.length := by
  induction past with
  | nil => exact Nat.le_refl 0
  | cons e past ih =>
      rw [lastUse]
      split
      · exact Nat.le_refl _
      · exact Nat.le_succ_of_le ih

theorem lastUse_of_uses (h : e.uses = some key) : lastUse key (e :: past) = past.length + 1 :=
  if_pos h

theorem lastUse_of_ne (h : e.uses ≠ some key) : lastUse key (e :: past) = lastUse key past :=
  if_neg h

theorem latestPut_of_ne (h : e.uses ≠ some key) : latestPut key (e :: past) = latestPut key past := by
  obtain ⟨call, answer⟩ := e
  cases call with
  | get key' => rfl
  | put key' value => exact if_neg fun heq => h (congrArg some heq)

theorem Reflects.nodup (h : Reflects past l) : (keys l).Nodup := by
  refine List.pairwise_map.mpr (h.order.imp ?_)
  intro a b hlt heq
  rw [heq] at hlt
  exact Nat.lt_irrefl _ hlt

/-- **A use puts its key to the front**, before entries that were in order. -/
theorem Reflects.use (h : Reflects past l) (huses : e.uses = some key)
    (hvalue : latestPut key (e :: past) = some value) (hsub : l'.Sublist l)
    (hothers : ∀ x ∈ l', x.1 ≠ key) : Reflects (e :: past) ((key, value) :: l') := by
  have hne : ∀ x ∈ l', e.uses ≠ some x.1 := by
    intro x hx heq
    exact hothers x hx (Option.some_inj.mp (heq.symm.trans huses))
  constructor
  · refine List.pairwise_cons.mpr ⟨?_, ?_⟩
    · intro x hx
      rw [lastUse_of_uses huses, lastUse_of_ne (hne x hx)]
      exact Nat.lt_succ_of_le lastUse_le
    · refine (h.order.sublist hsub).imp_of_mem ?_
      intro a b ha hb hlt
      rwa [lastUse_of_ne (hne a ha), lastUse_of_ne (hne b hb)]
  · intro x hx
    rcases List.mem_cons.mp hx with rfl | hx
    · exact hvalue
    · rw [latestPut_of_ne (hne x hx)]
      exact h.latest x (hsub.subset hx)

theorem Reflects.miss (h : Reflects past l) (hmiss : e.uses = none) : Reflects (e :: past) l := by
  have hne : ∀ k, e.uses ≠ some k := by
    intro k habs
    cases hmiss.symm.trans habs
  constructor
  · refine h.order.imp ?_
    intro a b hlt
    rwa [lastUse_of_ne (hne _), lastUse_of_ne (hne _)]
  · intro x hx
    rw [latestPut_of_ne (hne _)]
    exact h.latest x hx

omit [DecidableEq K] in
theorem kept_sublist : (if capacity ≤ l.length then l.dropLast else l).Sublist l := by
  split
  · exact List.dropLast_sublist l
  · exact List.Sublist.refl l

/-- **Every call keeps the list in the order of the last uses**, with the latest values. -/
theorem Reflects.step (h : Reflects past l) (c : Call K V) :
    Reflects (⟨c, answer c l⟩ :: past) (step capacity c l) := by
  cases c with
  | get key =>
      show Reflects (⟨.get key, lookup key l⟩ :: past) (match lookup key l with
        | some value => touch key value l
        | none => l)
      cases hlookup : lookup key l with
      | none => exact h.miss rfl
      | some value =>
          have hvalue : latestPut key past = some value := h.latest _ (mem_of_lookup hlookup)
          exact h.use rfl hvalue without_sublist fun x => ne_of_mem_without
  | put key value =>
      show Reflects (⟨.put key value, none⟩ :: past) (match lookup key l with
        | some _ => touch key value l
        | none => insert capacity key value l)
      have hvalue : latestPut key (⟨.put key value, none⟩ :: past) = some value := if_pos rfl
      cases hlookup : lookup key l with
      | some _ => exact h.use rfl hvalue without_sublist fun x => ne_of_mem_without
      | none =>
          refine h.use rfl hvalue kept_sublist ?_
          rintro x hx rfl
          exact lookup_eq_none.mp hlookup (List.mem_map_of_mem (kept_sublist.subset hx))

omit [DecidableEq K] in
theorem length_insert_le (hcapacity : 1 ≤ capacity) (hl : l.length ≤ capacity) :
    (insert capacity key value l).length ≤ capacity := by
  rw [insert, List.length_cons]
  split
  · rw [List.length_dropLast]
    omega
  · omega

theorem length_step_le (hcapacity : 1 ≤ capacity) (hnodup : (keys l).Nodup)
    (hl : l.length ≤ capacity) (c : Call K V) : (step capacity c l).length ≤ capacity := by
  have htouch : ∀ {key : K} {value : V} (value' : V), lookup key l = some value →
      (touch key value' l).length ≤ capacity := by
    intro key value value' hlookup
    rw [touch, List.length_cons,
      length_without hnodup (List.mem_map_of_mem (mem_of_lookup hlookup))]
    exact hl
  cases c with
  | get key =>
      rw [Recency.step]
      split
      next value hlookup => exact htouch value hlookup
      next => exact hl
  | put key value =>
      rw [Recency.step]
      split
      next hlookup => exact htouch value hlookup
      next => exact length_insert_le hcapacity hl

theorem mem_keys_touch {key' : K} (h : key ∈ keys l) : key ∈ keys (touch key' value l) := by
  obtain ⟨x, hx, rfl⟩ := List.mem_map.mp h
  by_cases heq : x.1 = key'
  · rw [heq]
    exact List.mem_cons_self
  · exact List.mem_cons_of_mem _ (List.mem_map_of_mem (List.mem_filter.mpr ⟨hx, decide_eq_true heq⟩))

/-- **A key leaves only as the least recently used one**, when a new key comes into
a full cache. -/
theorem Reflects.evicted (h : Reflects past l) {c : Call K V} (hin : key ∈ keys l)
    (hout : key ∉ keys (Recency.step capacity c l)) :
    (∃ key' value, c = .put key' value ∧ key' ∉ keys l) ∧ capacity ≤ l.length ∧
      ∀ other ∈ keys l, other ≠ key → lastUse key past < lastUse other past := by
  cases c with
  | get key' =>
      rw [Recency.step] at hout
      split at hout
      next => exact absurd (mem_keys_touch hin) hout
      next => exact absurd hin hout
  | put key' value =>
      rw [Recency.step] at hout
      split at hout
      next => exact absurd (mem_keys_touch hin) hout
      next hlookup =>
        by_cases hfull : capacity ≤ l.length
        · refine ⟨⟨key', value, rfl, lookup_eq_none.mp hlookup⟩, hfull, ?_⟩
          rcases List.eq_nil_or_concat l with rfl | ⟨front, last, rfl⟩
          · cases hin
          · rw [insert, if_pos hfull, List.concat_eq_append, List.dropLast_concat] at hout
            rw [List.concat_eq_append] at hin h
            have hfront : key ∉ keys front := fun habs => hout (List.mem_cons_of_mem _ habs)
            obtain rfl : key = last.1 := by
              rw [keys, List.map_append, List.mem_append] at hin
              exact List.mem_singleton.mp (hin.resolve_left hfront)
            intro other hother hne
            rw [List.concat_eq_append, keys, List.map_append, List.mem_append] at hother
            rcases hother with hother | hother
            · obtain ⟨x, hx, rfl⟩ := List.mem_map.mp hother
              exact (List.pairwise_append.mp h.order).2.2 x hx last (List.mem_singleton_self last)
            · exact absurd (List.mem_singleton.mp hother) hne
        · rw [insert, if_neg hfull] at hout
          exact absurd (List.mem_cons_of_mem _ hin) hout

end

/-! ## A small cache in a large one -/

/-- A cache of capacity `n` next to a larger one. -/
structure Included (n : ℕ) (small large : List (K × V)) : Prop where
  sublist : small.Sublist large
  full : small.length = n ∨ small = large

section
variable {n m : ℕ} {small large : List (K × V)} {key : K} {value : V}

/-- **What hits in the small cache hits in the large one.** -/
theorem Included.lookup (h : Included n small large) (hnodup : (keys large).Nodup)
    (hit : lookup key small = some value) : lookup key large = some value :=
  lookup_of_mem hnodup (h.sublist.subset (mem_of_lookup hit))

omit [DecidableEq K] in
theorem sublist_dropLast (h : small.Sublist large) : small.dropLast.Sublist large.dropLast := by
  rw [← List.reverse_sublist, ← List.tail_reverse, ← List.tail_reverse]
  exact h.reverse.tail

theorem Included.touch (h : Included n small large) (hnodup : (keys small).Nodup)
    (hin : key ∈ keys small) : Included n (touch key value small) (touch key value large) where
  sublist := (h.sublist.filter _).cons_cons _
  full := by
    refine h.full.imp ?_ (congrArg _)
    intro hfull
    rw [Recency.touch, List.length_cons, length_without hnodup hin, hfull]

omit [DecidableEq K] in
/-- What misses in the small cache alone finds it full. -/
theorem Included.full_of_miss (h : Included n small large) (hmiss : key ∉ keys small)
    (hin : key ∈ keys large) : small.length = n := by
  refine h.full.resolve_right ?_
  rintro rfl
  exact hmiss hin

theorem Included.sublist_without (h : Included n small large) (hmiss : key ∉ keys small) :
    small.Sublist (without key large) := by
  have hself : without key small = small := by
    refine List.filter_eq_self.mpr fun x hx => decide_eq_true ?_
    rintro rfl
    exact hmiss (List.mem_map_of_mem hx)
  have hfilter : (without key small).Sublist (without key large) := h.sublist.filter _
  rwa [hself] at hfilter

omit [DecidableEq K] in
theorem Included.insert (h : Included n small large) (hn : 1 ≤ n) (hnm : n ≤ m)
    (hsmall : small.length ≤ n) :
    Included n (insert n key value small) (insert m key value large) := by
  rcases Nat.lt_or_eq_of_le hsmall with hroom | hfull
  · -- not full, so the caches are equal, and neither evicts
    obtain rfl : small = large := h.full.resolve_left hroom.ne
    have hroom' : ¬ m ≤ small.length := Nat.not_le_of_lt (hroom.trans_le hnm)
    rw [Recency.insert, Recency.insert, if_neg (Nat.not_le_of_lt hroom), if_neg hroom']
    exact ⟨List.Sublist.refl _, .inr rfl⟩
  · refine ⟨?_, .inl ?_⟩
    · rw [Recency.insert, Recency.insert, if_pos hfull.ge]
      refine List.Sublist.cons_cons _ ?_
      split
      · exact sublist_dropLast h.sublist
      · exact (List.dropLast_sublist small).trans h.sublist
    · rw [Recency.insert, if_pos hfull.ge, List.length_cons, List.length_dropLast, hfull]
      exact Nat.sub_add_cancel hn

/-- **Inclusion is kept by every call**, whichever of the caches it hits. -/
theorem Included.step (h : Included n small large) (hn : 1 ≤ n) (hnm : n ≤ m)
    (hsmall : small.length ≤ n) (hnodup : (keys large).Nodup) (c : Call K V) :
    Included n (step n c small) (step m c large) := by
  have hnodup' : (keys small).Nodup := hnodup.sublist (h.sublist.map Prod.fst)
  cases c with
  | get key =>
      show Included n (match Recency.lookup key small with
        | some value => Recency.touch key value small
        | none => small) (match Recency.lookup key large with
        | some value => Recency.touch key value large
        | none => large)
      cases hlookup : Recency.lookup key small with
      | some value =>
          rw [h.lookup hnodup hlookup]
          exact h.touch hnodup' (List.mem_map_of_mem (mem_of_lookup hlookup))
      | none =>
          have hmiss : key ∉ keys small := lookup_eq_none.mp hlookup
          cases hlarge : Recency.lookup key large with
          | none => exact h
          | some value =>
              have hin : key ∈ keys large := List.mem_map_of_mem (mem_of_lookup hlarge)
              exact ⟨(h.sublist_without hmiss).cons _, .inl (h.full_of_miss hmiss hin)⟩
  | put key value =>
      show Included n (match Recency.lookup key small with
        | some _ => Recency.touch key value small
        | none => Recency.insert n key value small) (match Recency.lookup key large with
        | some _ => Recency.touch key value large
        | none => Recency.insert m key value large)
      cases hlookup : Recency.lookup key small with
      | some value' =>
          rw [h.lookup hnodup hlookup]
          exact h.touch hnodup' (List.mem_map_of_mem (mem_of_lookup hlookup))
      | none =>
          have hmiss : key ∉ keys small := lookup_eq_none.mp hlookup
          cases hlarge : Recency.lookup key large with
          | none => exact h.insert hn hnm hsmall
          | some value' =>
              -- the small cache evicts, the large one does not
              have hin : key ∈ keys large := List.mem_map_of_mem (mem_of_lookup hlarge)
              have hfull : small.length = n := h.full_of_miss hmiss hin
              show Included n (Recency.insert n key value small) (Recency.touch key value large)
              rw [Recency.insert, if_pos hfull.ge]
              refine ⟨((List.dropLast_sublist small).trans (h.sublist_without hmiss)).cons_cons _, .inl ?_⟩
              rw [List.length_cons, List.length_dropLast, hfull]
              exact Nat.sub_add_cancel hn

end

end LearnCpp.Lib.Recency
