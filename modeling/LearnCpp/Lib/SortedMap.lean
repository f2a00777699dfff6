/-
# `LearnCpp.Lib.SortedMap` — an ordered map as an ascending list

A map with ordered keys, such as `std::map`, that is walked from either end.  It
is the list of its entries, strictly ascending by key; that it is ascending is a
field, so the first entry is the one with the least key and the last the one
with the greatest.

What `upsert` does is said once, by where it cuts the list (`upsertList_split`):

    entries          = lo ++ [(k, a)] ++ hi        or  lo ++ hi
    upsert k f       = lo ++ [(k, f …)] ++ hi

A walk from one end that drops entries and rewrites values keeps a sublist of
the keys, and `replace` puts such a result back.  Two maps are equal when their
lookups are (`ext_lookup`).
-/
import Mathlib.Order.Lattice
import Mathlib.Data.List.Nodup
import Mathlib.Data.List.Perm.Basic
import Mathlib.Tactic.Common

namespace LearnCpp.Lib

structure SortedMap (κ α : Type) [LinearOrder κ] where
  entries : List (κ × α)
  sorted : entries.Pairwise fun a b => a.1 < b.1

namespace SortedMap

variable {κ α : Type} [LinearOrder κ]

def empty : SortedMap κ α := ⟨[], .nil⟩

instance : Inhabited (SortedMap κ α) := ⟨empty⟩

def lookup (m : SortedMap κ α) (k : κ) : Option α := m.entries.lookup k

/-- The entries with `f` of the value at `k` as the value at `k`. -/
def upsertList (k : κ) (f : Option α → α) : List (κ × α) → List (κ × α)
  | [] => [(k, f none)]
  | (k', a) :: es =>
      if k < k' then (k, f none) :: (k', a) :: es
      else if k' < k then (k', a) :: upsertList k f es
      else (k, f (some a)) :: es

/-! ## Where a key is -/

theorem lookup_eq_none_of_ne {k : κ} {es : List (κ × α)} (h : ∀ e ∈ es, e.1 ≠ k) :
    es.lookup k = none :=
  List.lookup_eq_none_iff.mpr fun e he => bne_iff_ne.mpr (h e he).symm

/-- Where `upsert` works: behind the entries with a lesser key, and before those with a greater. -/
theorem upsertList_split {k : κ} {f : Option α → α} : ∀ {es : List (κ × α)},
    es.Pairwise (fun a b => a.1 < b.1) → ∃ lo hi,
      es = lo ++ (es.lookup k).toList.map (k, ·) ++ hi ∧
      upsertList k f es = lo ++ (k, f (es.lookup k)) :: hi ∧
      (∀ e ∈ lo, e.1 < k) ∧ ∀ e ∈ hi, k < e.1
  | [], _ => ⟨[], [], rfl, rfl, List.forall_mem_nil _, List.forall_mem_nil _⟩
  | (j, a) :: es, h => by
      obtain ⟨hhead, htail⟩ := List.pairwise_cons.mp h
      rw [upsertList, List.lookup_cons]
      rcases lt_trichotomy k j with hlt | rfl | hgt
      · have hhi : ∀ e ∈ (j, a) :: es, k < e.1 :=
          List.forall_mem_cons.mpr ⟨hlt, fun e he => hlt.trans (hhead e he)⟩
        have hnone : es.lookup k = none :=
          lookup_eq_none_of_ne fun e he => (hhi e (List.mem_cons_of_mem _ he)).ne'
        rw [beq_eq_false_iff_ne.mpr hlt.ne, hnone, if_pos hlt]
        exact ⟨[], (j, a) :: es, rfl, rfl, List.forall_mem_nil _, hhi⟩
      · rw [beq_self_eq_true, if_neg (lt_irrefl k), if_neg (lt_irrefl k)]
        exact ⟨[], es, rfl, rfl, List.forall_mem_nil _, hhead⟩
      · obtain ⟨lo, hi, hes, hup, hlo, hhi⟩ := upsertList_split (f := f) htail
        rw [beq_eq_false_iff_ne.mpr hgt.ne', if_neg hgt.not_gt, if_pos hgt]
        refine ⟨(j, a) :: lo, hi, ?_, ?_, List.forall_mem_cons.mpr ⟨hgt, hlo⟩, hhi⟩
        · exact congrArg ((j, a) :: ·) hes
        · exact congrArg ((j, a) :: ·) hup

theorem upsertList_sorted {k : κ} {f : Option α → α} {es : List (κ × α)}
    (h : es.Pairwise fun a b => a.1 < b.1) : (upsertList k f es).Pairwise fun a b => a.1 < b.1 := by
  obtain ⟨lo, hi, hes, hup, hlo, hhi⟩ := upsertList_split (f := f) h
  rw [hes, List.append_assoc] at h
  obtain ⟨hlosorted, hrest, hcross⟩ := List.pairwise_append.mp h
  rw [hup]
  refine List.pairwise_append.mpr ⟨hlosorted, List.pairwise_cons.mpr ⟨hhi, ?_⟩, ?_⟩
  · exact (List.pairwise_append.mp hrest).2.1
  · intro a ha b hb
    rcases List.mem_cons.mp hb with rfl | hb
    · exact hlo a ha
    · exact (hlo a ha).trans (hhi b hb)

/-! ## The operations -/

/-- `m[k] = f(m[k])`, where `f` also says what becomes of an absent key. -/
def upsert (m : SortedMap κ α) (k : κ) (f : Option α → α) : SortedMap κ α :=
  ⟨upsertList k f m.entries, upsertList_sorted m.sorted⟩

/-- Other values for some of the keys, and the rest dropped. -/
def replace (m : SortedMap κ α) (es : List (κ × α))
    (h : (es.map Prod.fst).Sublist (m.entries.map Prod.fst)) : SortedMap κ α :=
  ⟨es, by
    have hsorted := List.pairwise_map.mpr m.sorted
    exact List.pairwise_map.mp (hsorted.sublist h)⟩

theorem upsert_split (m : SortedMap κ α) (k : κ) (f : Option α → α) : ∃ lo hi,
    m.entries = lo ++ (m.lookup k).toList.map (k, ·) ++ hi ∧
    (m.upsert k f).entries = lo ++ (k, f (m.lookup k)) :: hi ∧
    (∀ e ∈ lo, e.1 < k) ∧ ∀ e ∈ hi, k < e.1 :=
  upsertList_split m.sorted

@[simp] theorem lookup_upsert (m : SortedMap κ α) (k k' : κ) (f : Option α → α) :
    (m.upsert k f).lookup k' = if k' = k then some (f (m.lookup k)) else m.lookup k' := by
  obtain ⟨lo, hi, hentries, hupsert, hlo, -⟩ := m.upsert_split k f
  rw [lookup, hupsert, List.lookup_append, List.lookup_cons]
  rcases eq_or_ne k' k with rfl | hne
  · rw [lookup_eq_none_of_ne fun e he => (hlo e he).ne, beq_self_eq_true, if_pos rfl]
    rfl
  · -- the entry of `k`, if there was one, does not matter
    have hmid : ((m.lookup k).toList.map (k, ·)).lookup k' = none :=
      lookup_eq_none_of_ne fun e he => by
        obtain ⟨a, -, rfl⟩ := List.mem_map.mp he
        exact hne.symm
    rw [beq_eq_false_iff_ne.mpr hne, if_neg hne]
    dsimp only
    rw [lookup, hentries, List.lookup_append, List.lookup_append, hmid, Option.or_none]

theorem mem_entries_iff {k : κ} {a : α} (m : SortedMap κ α) :
    (k, a) ∈ m.entries ↔ m.lookup k = some a := by
  obtain ⟨es, hsorted⟩ := m
  rw [lookup]
  dsimp only
  induction es with
  | nil => simp
  | cons e es ih =>
      obtain ⟨k', a'⟩ := e
      obtain ⟨hhead, htail⟩ := List.pairwise_cons.mp hsorted
      rw [List.mem_cons, List.lookup_cons, ih htail]
      rcases eq_or_ne k k' with rfl | hne
      · have hnone : es.lookup k = none := lookup_eq_none_of_ne fun e he => (hhead e he).ne'
        simp [hnone, eq_comm]
      · simp [hne, beq_eq_false_iff_ne.mpr hne]

theorem ext_lookup {m m' : SortedMap κ α} (h : ∀ k, m.lookup k = m'.lookup k) : m = m' := by
  have hmem : ∀ e, e ∈ m.entries ↔ e ∈ m'.entries := by
    rintro ⟨k, a⟩
    rw [mem_entries_iff, mem_entries_iff, h]
  have hnodup : ∀ m : SortedMap κ α, m.entries.Nodup :=
    fun m => m.sorted.imp fun hlt heq => hlt.ne (congrArg Prod.fst heq)
  have hperm := (List.perm_ext_iff_of_nodup (hnodup m) (hnodup m')).mpr hmem
  obtain ⟨es, hsorted⟩ := m
  obtain ⟨es', hsorted'⟩ := m'
  congr 1
  exact hperm.eq_of_pairwise (fun a b _ _ hab hba => absurd (hab.trans hba) (lt_irrefl _))
    hsorted hsorted'

end SortedMap

end LearnCpp.Lib
