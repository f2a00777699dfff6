/-
# `LearnCpp.Lib.Probing` — linear probing with tombstones that are never cleared

A table of `n` cells; the search for a key starts at its `home` and walks
cyclically until it meets the key or an `empty` cell.  Erasing leaves a `tomb`,
which a search walks over and an insertion takes back.  Nothing turns a tomb
into an empty cell again, and the table does not grow.

Can such a table fill up, when keys out of a set `D` with fewer than `n` members
are erased and inserted again without end?  Each insertion may claim a fresh
cell, so no local count answers this.  The argument here is global.

* Some cell `c`, the *cut*, has no heavy stretch of homes before it
  (`exists_cut`).  It stays empty for ever, so positions can be counted from it
  (`rel`), and nothing ever walks across it.
* With all of `D` queueing at their homes, `overflow p` of them are pushed past
  position `p`: a number that depends on `D` and the homes alone.
* Invariant (`Inv.crossing`): at most `overflow p` *live* keys with a home
  before `p` are stored at `p` or later.  An insertion walks over live keys
  only, and those plus the new key are accounted for by `overflow` at its home
  and by the homes in between.
* Hence (`Inv.filled`): a cell that was ever claimed is one that `D`, queueing
  at its homes, would reach; and there are at most `D.card` of these.
-/
import Mathlib.Data.Finset.Card
import Mathlib.Data.Finset.Max
import Mathlib.Logic.Function.Basic
import Mathlib.Tactic.Common
import Mathlib.Tactic.Linarith

namespace LearnCpp.Lib.Probing

/-! ## Walking round the table -/

/-- The cell `j` steps after `h`. -/
def walk (n h j : ℕ) : ℕ := (h + j) % n

theorem walk_lt {n h j : ℕ} (hn : 0 < n) : walk n h j < n := Nat.mod_lt _ hn

theorem walk_zero {n h : ℕ} (hh : h < n) : walk n h 0 = h := Nat.mod_eq_of_lt hh

theorem walk_succ (n h j : ℕ) : walk n h (j + 1) = (walk n h j + 1) % n := by
  simp [walk, Nat.add_assoc]

theorem exists_walk {n h x : ℕ} (hh : h < n) (hx : x < n) : ∃ j < n, walk n h j = x := by
  by_cases hle : h ≤ x
  · exact ⟨x - h, by omega, by rw [walk, Nat.add_sub_cancel' hle, Nat.mod_eq_of_lt hx]⟩
  · refine ⟨x + n - h, by omega, ?_⟩
    have : h + (x + n - h) = x + n := by omega
    rw [walk, this, Nat.add_mod_right, Nat.mod_eq_of_lt hx]

/-- The position of a cell counted from the one after `c`, which comes last itself. -/
def rel (n c x : ℕ) : ℕ := if x ≤ c then x + (n - 1 - c) else x - (c + 1)

section
variable {n c x y : ℕ}

theorem rel_lt (hc : c < n) (hx : x < n) : rel n c x < n := by
  unfold rel; split <;> omega

theorem rel_self (hc : c < n) : rel n c c = n - 1 := by
  unfold rel; split <;> omega

theorem rel_inj (hc : c < n) (hx : x < n) (hy : y < n) (h : rel n c x = rel n c y) : x = y := by
  unfold rel at h; split at h <;> split at h <;> omega

theorem rel_next (hc : c < n) (hx : x < n) (hne : x ≠ c) : rel n c ((x + 1) % n) = rel n c x + 1 := by
  by_cases hlast : x + 1 = n
  · rw [hlast, Nat.mod_self]; unfold rel; split <;> split <;> omega
  · rw [Nat.mod_eq_of_lt (by omega)]; unfold rel; split <;> split <;> omega

/-- A walk that has not met the cut moves one position a step. -/
theorem rel_walk {h : ℕ} (hc : c < n) (hh : h < n) :
    ∀ j, (∀ m < j, walk n h m ≠ c) → rel n c (walk n h j) = rel n c h + j
  | 0, _ => by rw [walk_zero hh, Nat.add_zero]
  | j + 1, hm => by
      have hj := rel_walk hc hh j fun m hmj => hm m (by omega)
      rw [walk_succ, rel_next hc (walk_lt (by omega)) (hm j (by omega)), hj, Nat.add_assoc]

end

/-! ## Keys queueing at their ranks

`r` gives each key of `D` a rank; each rank serves one key, and the rest are
pushed on to the next. -/

section Queue
variable {κ : Type} (D : Finset κ) (r : κ → ℕ)

/-- How many keys have a rank in `[a, b)`. -/
def count (a b : ℕ) : ℕ := (D.filter fun k => a ≤ r k ∧ r k < b).card

/-- How many keys are pushed past rank `p`. -/
def overflow : ℕ → ℕ
  | 0 => 0
  | p + 1 => overflow p + count D r p (p + 1) - 1

theorem count_add {a b c : ℕ} (hab : a ≤ b) (hbc : b ≤ c) :
    count D r a b + count D r b c = count D r a c := by
  classical
  unfold count
  rw [← Finset.card_union_of_disjoint]
  · congr 1
    ext k
    simp only [Finset.mem_union, Finset.mem_filter]
    constructor
    · rintro (⟨hk, h⟩ | ⟨hk, h⟩) <;> exact ⟨hk, by omega⟩
    · rintro ⟨hk, h⟩
      by_cases hb : r k < b
      · exact Or.inl ⟨hk, by omega⟩
      · exact Or.inr ⟨hk, by omega⟩
  · refine Finset.disjoint_filter.mpr fun k _ h => ?_
    omega

theorem count_self (a : ℕ) : count D r a a = 0 := by
  unfold count
  rw [Finset.card_eq_zero, Finset.filter_eq_empty_iff]
  intro k _
  omega

variable {D} in
theorem count_pos {k : κ} (hk : k ∈ D) {a b : ℕ} (ha : a ≤ r k) (hb : r k < b) :
    0 < count D r a b :=
  Finset.card_pos.mpr ⟨k, Finset.mem_filter.mpr ⟨hk, ha, hb⟩⟩

theorem count_le_card (a b : ℕ) : count D r a b ≤ D.card := Finset.card_filter_le _ _

theorem overflow_add_count_le {a : ℕ} : ∀ {b : ℕ}, a ≤ b →
    overflow D r a + count D r a b ≤ overflow D r b + (b - a) := by
  intro b hab
  induction b, hab using Nat.le_induction with
  | base => rw [count_self]; omega
  | succ b hab ih =>
      have := count_add D r hab (Nat.le_add_right b 1)
      simp only [overflow]
      omega

/-- What overflows at `b` has come in since some `a` at which nothing did. -/
theorem exists_overflow_eq : ∀ b, ∃ a ≤ b, overflow D r b + (b - a) = count D r a b
  | 0 => ⟨0, Nat.le_refl 0, by rw [count_self]; rfl⟩
  | b + 1 => by
      obtain ⟨a, hab, ha⟩ := exists_overflow_eq b
      have := count_add D r hab (Nat.le_add_right b 1)
      by_cases hpos : 0 < overflow D r b + count D r b (b + 1)
      · exact ⟨a, by omega, by simp only [overflow]; omega⟩
      · refine ⟨b + 1, Nat.le_refl _, ?_⟩
        rw [count_self]
        simp only [overflow]
        omega

/-- A rank that serves somebody. -/
def Served (p : ℕ) : Prop := 0 < overflow D r p + count D r p (p + 1)

instance (p : ℕ) : Decidable (Served D r p) := inferInstanceAs (Decidable (0 < _))

/-- Each rank that serves somebody serves one key. -/
theorem card_served (m : ℕ) :
    ((Finset.range m).filter (Served D r)).card + overflow D r m = count D r 0 m := by
  induction m with
  | zero => simp [overflow, count_self]
  | succ m ih =>
      have := count_add D r (Nat.zero_le m) (Nat.le_add_right m 1)
      rw [Finset.range_add_one, Finset.filter_insert]
      by_cases hs : Served D r m
      · have hnot : m ∉ (Finset.range m).filter (Served D r) := by simp
        rw [if_pos hs, Finset.card_insert_of_notMem hnot]
        simp only [overflow]
        unfold Served at hs
        omega
      · rw [if_neg hs]
        simp only [overflow]
        unfold Served at hs
        omega

end Queue

/-! ## The cut -/

section Cut
variable {κ : Type} (D : Finset κ) (home : κ → ℕ) (n : ℕ)

/-- No stretch of cells that ends at `c` is the home of as many keys as it has cells. -/
def IsCut (c : ℕ) : Prop :=
  c < n ∧ ∀ a < n, count D (fun k => rel n c (home k)) a n < n - a

variable {D home} in
theorem count_le_count {r : κ → ℕ} {a b a' b' : ℕ}
    (h : ∀ k ∈ D, a ≤ r k → r k < b → a' ≤ home k ∧ home k < b') :
    count D r a b ≤ count D home a' b' := by
  refine Finset.card_le_card fun k hk => ?_
  simp only [Finset.mem_filter] at hk ⊢
  exact ⟨hk.1, h k hk.1 hk.2.1 hk.2.2⟩

variable {D home} in
theorem count_le_count_add_count {r : κ → ℕ} {a b a₁ b₁ a₂ b₂ : ℕ}
    (h : ∀ k ∈ D, a ≤ r k → r k < b → a₁ ≤ home k ∧ home k < b₁ ∨ a₂ ≤ home k ∧ home k < b₂) :
    count D r a b ≤ count D home a₁ b₁ + count D home a₂ b₂ := by
  classical
  unfold count
  refine (Finset.card_le_card fun k hk => ?_).trans (Finset.card_union_le _ _)
  simp only [Finset.mem_union, Finset.mem_filter] at hk ⊢
  exact (h k hk.1 hk.2.1 hk.2.2).imp (fun h₁ => ⟨hk.1, h₁⟩) fun h₂ => ⟨hk.1, h₂⟩

/-- With fewer keys than cells there is a cut: the cell before the first minimum
of (keys with a home below `x`) − `x`. -/
theorem exists_cut (hhome : ∀ k ∈ D, home k < n) (hcard : D.card < n) : ∃ c, IsCut D home n c := by
  let P : ℕ → ℤ := fun x => (count D home 0 x : ℤ) - x
  have hPn : P n < P 0 := by
    have := count_le_card D home 0 n
    simp only [P, count_self]
    push_cast
    omega
  -- the first minimum of `P`
  have hex : ∃ x, x ≤ n ∧ ∀ y ≤ n, P x ≤ P y := by
    obtain ⟨x, hx, hmin⟩ := Finset.exists_min_image (Finset.range (n + 1)) P ⟨0, by simp⟩
    exact ⟨x, by simpa [Nat.lt_succ_iff] using hx,
      fun y hy => hmin y (by simpa [Nat.lt_succ_iff] using hy)⟩
  classical
  obtain ⟨hxn, hmin⟩ := Nat.find_spec hex
  have hfirst : ∀ y < Nat.find hex, P (Nat.find hex) < P y := by
    intro y hy
    by_contra hle
    exact Nat.find_min hex hy ⟨by omega, fun z hz => by have := hmin z hz; omega⟩
  generalize Nat.find hex = x at hxn hmin hfirst
  have hx0 : 0 < x := by
    rcases Nat.eq_zero_or_pos x with h | h
    · subst h; have := hmin n (Nat.le_refl n); omega
    · exact h
  refine ⟨x - 1, by omega, ?_⟩
  intro a ha
  by_cases hwrap : n - x ≤ a
  · -- the stretch does not wrap: it is `[y, x)`
    have hsub : count D (fun k => rel n (x - 1) (home k)) a n ≤ count D home (a - (n - x)) x :=
      count_le_count fun k hk h _ => by
        have := hhome k hk
        unfold rel at h
        split at h <;> omega
    have hadd := count_add D home (Nat.zero_le (a - (n - x))) (show a - (n - x) ≤ x by omega)
    have hlt := hfirst (a - (n - x)) (by omega)
    simp only [P] at hlt
    omega
  · -- the stretch wraps: it is `[x + a, n)` and `[0, x)`
    have hlt := hmin (x + a) (by omega)
    have hadd := count_add D home (Nat.zero_le (x + a)) (show x + a ≤ n by omega)
    have hsub : count D (fun k => rel n (x - 1) (home k)) a n
        ≤ count D home (x + a) n + count D home 0 x :=
      count_le_count_add_count fun k hk h _ => by
        have := hhome k hk
        unfold rel at h
        split at h <;> omega
    have := count_le_card D home 0 n
    simp only [P] at hlt hPn
    omega

variable {D home n} in
theorem not_served_of_isCut {c : ℕ} (h : IsCut D home n c) :
    ¬ Served D (fun k => rel n c (home k)) (n - 1) := by
  intro hs
  obtain ⟨hc, hlight⟩ := h
  obtain ⟨a, ha, heq⟩ := exists_overflow_eq D (fun k => rel n c (home k)) (n - 1)
  have hadd := count_add D (fun k => rel n c (home k)) ha (Nat.sub_le n 1)
  have := hlight a (by omega)
  have hn : n - 1 + 1 = n := by omega
  unfold Served at hs
  rw [hn] at hs
  omega

end Cut

/-! ## The table -/

/-- A cell of the table. -/
inductive Cell (κ : Type) where
  | empty
  | tomb
  | live (k : κ)
  deriving DecidableEq

section Table
variable {κ : Type} (n : ℕ) (home : κ → ℕ) (D : Finset κ)

/-- `k` is stored somewhere. -/
def Live (cell : ℕ → Cell κ) (k : κ) : Prop := ∃ i < n, cell i = .live k

open Classical in
/-- The live keys with a home before position `p` that are stored at `p` or later. -/
noncomputable def crossing (c : ℕ) (cell : ℕ → Cell κ) (p : ℕ) : Finset κ :=
  D.filter fun k => rel n c (home k) < p ∧ ∃ i < n, cell i = .live k ∧ p ≤ rel n c i

/-- The invariant of a table that holds keys of `D`, with cut `c`. -/
structure Inv (c : ℕ) (cell : ℕ → Cell κ) : Prop where
  isCut : IsCut D home n c
  mem : ∀ i < n, ∀ k, cell i = .live k → k ∈ D
  unique : ∀ i < n, ∀ j < n, ∀ k, cell i = .live k → cell j = .live k → i = j
  path : ∀ i < n, ∀ k, cell i = .live k →
    ∃ j < n, walk n (home k) j = i ∧ ∀ m < j, cell (walk n (home k) m) ≠ .empty
  cut : cell c = .empty
  crossing : ∀ p, (crossing n home D c cell p).card ≤ overflow D (fun k => rel n c (home k)) p
  filled : ∀ i < n, cell i ≠ .empty → Served D (fun k => rel n c (home k)) (rel n c i)

variable {n home D} {c : ℕ} {cell : ℕ → Cell κ}

theorem Inv.init (hcut : IsCut D home n c) : Inv n home D c fun _ => .empty := by
  refine ⟨hcut, ?_, ?_, ?_, rfl, ?_, ?_⟩
  · intro _ _ _ h; cases h
  · intro _ _ _ _ _ h; cases h
  · intro _ _ _ h; cases h
  · intro p
    have hnone : Probing.crossing n home D c (fun _ => .empty) p = ∅ := by
      simp [Probing.crossing]
    rw [hnone]
    exact Nat.zero_le _
  · intro _ _ h; exact absurd rfl h

/-- **The bound.**  However often keys are erased and inserted again, the cells
that were ever claimed are no more than the keys. -/
theorem Inv.card_filled_le [DecidableEq κ] (h : Inv n home D c cell) :
    ((Finset.range n).filter fun i => cell i ≠ .empty).card ≤ D.card := by
  have hc := h.isCut.1
  have hserved := card_served D (fun k => rel n c (home k)) n
  have hle := count_le_card D (fun k => rel n c (home k)) 0 n
  refine (Finset.card_le_card_of_injOn (rel n c) ?_ ?_).trans
    (show ((Finset.range n).filter (Served D fun k => rel n c (home k))).card ≤ D.card by omega)
  · intro i hi
    simp only [Finset.coe_filter, Finset.mem_range, Set.mem_ofPred_eq] at hi ⊢
    exact ⟨rel_lt hc hi.1, h.filled i hi.1 hi.2⟩
  · intro i hi j hj hij
    simp only [Finset.coe_filter, Finset.mem_range, Set.mem_ofPred_eq] at hi hj
    exact rel_inj hc hi.1 hj.1 hij

theorem Inv.rel_walk (h : Inv n home D c cell) {x j : ℕ} (hx : x < n)
    (hne : ∀ m < j, cell (walk n x m) ≠ .empty) : rel n c (walk n x j) = rel n c x + j :=
  Probing.rel_walk h.isCut.1 hx j fun m hm heq => hne m hm (heq ▸ h.cut)

theorem Inv.rel_home_le (h : Inv n home D c cell) (hhome : ∀ k, home k < n) {i : ℕ} {k : κ}
    (hi : i < n) (hk : cell i = .live k) : rel n c (home k) ≤ rel n c i := by
  obtain ⟨j, _, hj, hne⟩ := h.path i hi k hk
  have := h.rel_walk (hhome k) hne
  rw [hj] at this
  omega

/-- **Every search stops** within one turn, at the key if it is live and at an
empty cell if it is not. -/
theorem Inv.exists_stop (h : Inv n home D c cell) (hhome : ∀ k, home k < n) (k : κ) :
    ∃ j < n, (∀ m < j, cell (walk n (home k) m) ≠ .empty ∧ cell (walk n (home k) m) ≠ .live k) ∧
      (cell (walk n (home k) j) = .live k ∨
        cell (walk n (home k) j) = .empty ∧ ¬ Live n cell k) := by
  classical
  have hex : ∃ j, j < n ∧ (cell (walk n (home k) j) = .live k ∨ cell (walk n (home k) j) = .empty) := by
    obtain ⟨j, hj, hwalk⟩ := exists_walk (hhome k) h.isCut.1
    exact ⟨j, hj, Or.inr (hwalk ▸ h.cut)⟩
  obtain ⟨hj, hstop⟩ := Nat.find_spec hex
  have hbefore : ∀ m < Nat.find hex,
      cell (walk n (home k) m) ≠ .empty ∧ cell (walk n (home k) m) ≠ .live k := by
    intro m hm
    have := Nat.find_min hex hm
    exact ⟨fun he => this ⟨by omega, Or.inr he⟩, fun hl => this ⟨by omega, Or.inl hl⟩⟩
  refine ⟨Nat.find hex, hj, hbefore, hstop.imp_right fun hempty => ⟨hempty, ?_⟩⟩
  -- the path to a live `k` would lead over the empty cell or stop before it
  rintro ⟨i, hi, hik⟩
  obtain ⟨j', _, hwalk, hne⟩ := h.path i hi k hik
  rcases Nat.lt_trichotomy j' (Nat.find hex) with hlt | heq | hgt
  · exact (hbefore j' hlt).2 (hwalk ▸ hik)
  · rw [← heq, hwalk, hik] at hempty
    cases hempty
  · exact hne _ hgt hempty

/-- **Erasing** leaves a tomb. -/
theorem Inv.erase (h : Inv n home D c cell) {s : ℕ} {k : κ} (hk : cell s = .live k) :
    Inv n home D c (Function.update cell s .tomb) := by
  have hlive : ∀ i k', Function.update cell s .tomb i = .live k' → i ≠ s ∧ cell i = .live k' := by
    intro i k' hi
    by_cases hs : i = s
    · subst hs; simp at hi
    · exact ⟨hs, by simpa [Function.update_of_ne hs] using hi⟩
  have hempty : ∀ i, Function.update cell s .tomb i = .empty ↔ cell i = .empty := by
    intro i
    by_cases hs : i = s
    · subst hs; simp [hk]
    · simp [Function.update_of_ne hs]
  refine ⟨h.isCut, ?_, ?_, ?_, (hempty c).mpr h.cut, ?_, ?_⟩
  · intro i hi k' hk'; exact h.mem i hi k' (hlive i k' hk').2
  · intro i hi j hj k' hki hkj
    exact h.unique i hi j hj k' (hlive i k' hki).2 (hlive j k' hkj).2
  · intro i hi k' hk'
    obtain ⟨j, hj, hwalk, hne⟩ := h.path i hi k' (hlive i k' hk').2
    exact ⟨j, hj, hwalk, fun m hm he => hne m hm ((hempty _).mp he)⟩
  · intro p
    refine (Finset.card_le_card ?_).trans (h.crossing p)
    intro k' hk'
    simp only [Probing.crossing, Finset.mem_filter] at hk' ⊢
    obtain ⟨hD, hlt, i, hi, hik, hp⟩ := hk'
    exact ⟨hD, hlt, i, hi, (hlive i k' hik).2, hp⟩
  · intro i hi hne
    exact h.filled i hi fun he => hne ((hempty i).mpr he)

/-! ### Insertion -/

theorem update_eq_live {s i : ℕ} {k k' : κ} : Function.update cell s (.live k) i = .live k' ↔
    (i = s ∧ k' = k) ∨ (i ≠ s ∧ cell i = .live k') := by
  rcases eq_or_ne i s with rfl | hne
  · simp [eq_comm]
  · simp [hne]

theorem update_ne_empty {s i : ℕ} {k : κ} (hi : cell i ≠ .empty) :
    Function.update cell s (.live k) i ≠ .empty := by
  rcases eq_or_ne i s with rfl | hne
  · simp
  · simpa [hne] using hi

section Insert
variable (h : Inv n home D c cell) (hhome : ∀ k, home k < n) {k : κ} (hk : k ∈ D)
  (hnot : ¬ Live n cell k) {j : ℕ} (hlive : ∀ m < j, ∃ k', cell (walk n (home k) m) = .live k')
include h hhome hk hnot hlive

/-- The room an insertion finds: past every position it walks to, at least one
key more overflows than crosses. -/
theorem Inv.crossing_lt_overflow {q : ℕ} (hlow : rel n c (home k) < q)
    (hhigh : q ≤ rel n c (home k) + j) :
    (Probing.crossing n home D c cell q).card + 1 ≤ overflow D (fun k => rel n c (home k)) q := by
  classical
  set R := rel n c (home k) with hR
  have hn : 0 < n := lt_of_le_of_lt (Nat.zero_le _) (hhome k)
  -- the keys that the walk passes before position `q`
  have : Nonempty κ := ⟨k⟩
  choose! g hg using hlive
  have hrel : ∀ m < j, rel n c (walk n (home k) m) = R + m := fun m hm =>
    h.rel_walk (hhome k) fun m' hm' => by rw [hg m' (by omega)]; exact nofun
  have hpassed : ((Finset.range (q - R)).image g).card = q - R := by
    rw [Finset.card_image_of_injOn, Finset.card_range]
    intro m hm m' hm' heq
    simp only [Finset.coe_range, Set.mem_Iio] at hm hm'
    have hsame := h.unique _ (walk_lt hn) _ (walk_lt hn) (g m) (hg m (by omega))
      (heq ▸ hg m' (by omega))
    have := hrel m (by omega)
    rw [hsame, hrel m' (by omega)] at this
    omega
  have hdisj : Disjoint (Probing.crossing n home D c cell q) ((Finset.range (q - R)).image g) := by
    rw [Finset.disjoint_left]
    intro k' hcross himg
    obtain ⟨m, hm, rfl⟩ := Finset.mem_image.mp himg
    simp only [Finset.mem_range] at hm
    simp only [Probing.crossing, Finset.mem_filter] at hcross
    obtain ⟨_, _, i, hi, hik, hq⟩ := hcross
    have := h.unique _ hi _ (walk_lt hn) (g m) hik (hg m (by omega))
    rw [this, hrel m (by omega)] at hq
    omega
  -- all of them are live, so none is `k`, and each has its home before `R` or in `[R, q)`
  have hsub : Probing.crossing n home D c cell q ∪ (Finset.range (q - R)).image g ⊆
      Probing.crossing n home D c cell R ∪
        (D.filter fun k => R ≤ rel n c (home k) ∧ rel n c (home k) < q).erase k := by
    have hplace : ∀ k', ∀ i < n, cell i = .live k' → R ≤ rel n c i → rel n c (home k') < q →
        k' ∈ Probing.crossing n home D c cell R ∪
          (D.filter fun k => R ≤ rel n c (home k) ∧ rel n c (home k) < q).erase k := by
      intro k' i hi hik hRi hq
      have hD := h.mem i hi k' hik
      simp only [Probing.crossing, Finset.mem_union, Finset.mem_filter, Finset.mem_erase]
      by_cases hhR : rel n c (home k') < R
      · exact Or.inl ⟨hD, hhR, i, hi, hik, hRi⟩
      · exact Or.inr ⟨fun heq => hnot ⟨i, hi, heq ▸ hik⟩, hD, by omega, hq⟩
    intro k' hk'
    rcases Finset.mem_union.mp hk' with hcross | himg
    · simp only [Probing.crossing, Finset.mem_filter] at hcross
      obtain ⟨_, hlt, i, hi, hik, hqi⟩ := hcross
      exact hplace k' i hi hik (by omega) hlt
    · obtain ⟨m, hm, rfl⟩ := Finset.mem_image.mp himg
      simp only [Finset.mem_range] at hm
      have hle := h.rel_home_le hhome (walk_lt hn) (hg m (by omega))
      rw [hrel m (by omega)] at hle
      exact hplace (g m) _ (walk_lt hn) (hg m (by omega)) (by rw [hrel m (by omega)]; omega)
        (by omega)
  have hkmem : k ∈ D.filter fun k => R ≤ rel n c (home k) ∧ rel n c (home k) < q :=
    Finset.mem_filter.mpr ⟨hk, Nat.le_refl _, hlow⟩
  have hpos := Finset.card_pos.mpr ⟨k, hkmem⟩
  have hcard := (Finset.card_le_card hsub).trans (Finset.card_union_le _ _)
  rw [Finset.card_union_of_disjoint hdisj, hpassed, Finset.card_erase_of_mem hkmem] at hcard
  have hR' := h.crossing R
  have hadd := overflow_add_count_le D (fun k => rel n c (home k)) (show R ≤ q by omega)
  simp only [count] at hadd
  omega

omit hk hnot in
theorem Inv.rel_arrival : rel n c (walk n (home k) j) = rel n c (home k) + j :=
  h.rel_walk (hhome k) fun m hm hempty => by
    obtain ⟨k', hk'⟩ := hlive m hm
    cases hk'.symm.trans hempty

theorem Inv.served_arrival :
    Served D (fun k => rel n c (home k)) (rel n c (walk n (home k) j)) := by
  rw [h.rel_arrival hhome hlive, Served]
  rcases Nat.eq_zero_or_pos j with hj0 | hj0
  · have := count_pos (fun k => rel n c (home k)) hk
      (show rel n c (home k) + j ≤ rel n c (home k) by omega)
      (show rel n c (home k) < rel n c (home k) + j + 1 by omega)
    omega
  · have := h.crossing_lt_overflow hhome hk hnot hlive
      (show rel n c (home k) < rel n c (home k) + j by omega) (Nat.le_refl _)
    omega

/-- Up to the cell that is claimed one more key crosses, and there was room for it. -/
theorem Inv.crossing_arrival (p : ℕ) :
    (Probing.crossing n home D c (Function.update cell (walk n (home k) j) (.live k)) p).card ≤
      overflow D (fun k => rel n c (home k)) p := by
  classical
  by_cases hp : rel n c (home k) < p ∧ p ≤ rel n c (home k) + j
  · refine le_trans ?_ (h.crossing_lt_overflow hhome hk hnot hlive hp.1 hp.2)
    refine (Finset.card_le_card ?_).trans (Finset.card_insert_le k _)
    intro k' hk'
    simp only [Probing.crossing, Finset.mem_insert, Finset.mem_filter] at hk' ⊢
    obtain ⟨hD, hlt, i, hi, hik, hpi⟩ := hk'
    rcases update_eq_live.mp hik with ⟨_, rfl⟩ | ⟨_, hik⟩
    · exact Or.inl rfl
    · exact Or.inr ⟨hD, hlt, i, hi, hik, hpi⟩
  · refine (Finset.card_le_card ?_).trans (h.crossing p)
    intro k' hk'
    simp only [Probing.crossing, Finset.mem_filter] at hk' ⊢
    obtain ⟨hD, hlt, i, hi, hik, hpi⟩ := hk'
    rcases update_eq_live.mp hik with ⟨rfl, rfl⟩ | ⟨_, hik⟩
    · exact absurd ⟨hlt, h.rel_arrival hhome hlive ▸ hpi⟩ hp
    · exact ⟨hD, hlt, i, hi, hik, hpi⟩

/-- **Inserting** a key at a cell that is reached over live cells only. -/
theorem Inv.insert (hj : j < n) :
    Inv n home D c (Function.update cell (walk n (home k) j) (.live k)) := by
  have hserved := h.served_arrival hhome hk hnot hlive
  have hcrossing := h.crossing_arrival hhome hk hnot hlive
  have hsn : walk n (home k) j < n := walk_lt (lt_of_le_of_lt (Nat.zero_le j) hj)
  generalize hs : walk n (home k) j = s at *
  have hsc : s ≠ c := by
    rintro rfl
    rw [rel_self hsn] at hserved
    exact not_served_of_isCut h.isCut hserved
  refine ⟨h.isCut, ?_, ?_, ?_, ?_, hcrossing, ?_⟩
  · intro i hi k' hk'
    rcases update_eq_live.mp hk' with ⟨_, rfl⟩ | ⟨_, hik⟩
    · exact hk
    · exact h.mem i hi k' hik
  · intro i hi i' hi' k' hki hki'
    rcases update_eq_live.mp hki with ⟨his, hkk⟩ | ⟨_, hik⟩ <;>
      rcases update_eq_live.mp hki' with ⟨his', hkk'⟩ | ⟨_, hik'⟩
    · rw [his, his']
    · exact absurd ⟨i', hi', hkk ▸ hik'⟩ hnot
    · exact absurd ⟨i, hi, hkk' ▸ hik⟩ hnot
    · exact h.unique i hi i' hi' k' hik hik'
  · intro i hi k' hk'
    rcases update_eq_live.mp hk' with ⟨rfl, rfl⟩ | ⟨_, hik⟩
    · refine ⟨j, hj, hs, fun m hm => update_ne_empty fun hempty => ?_⟩
      obtain ⟨k'', hk''⟩ := hlive m hm
      cases hk''.symm.trans hempty
    · obtain ⟨j', hj', hwalk, hne⟩ := h.path i hi k' hik
      exact ⟨j', hj', hwalk, fun m hm => update_ne_empty (hne m hm)⟩
  · rw [Function.update_of_ne (Ne.symm hsc)]
    exact h.cut
  · intro i hi hne
    rcases eq_or_ne i s with rfl | hi'
    · exact hserved
    · exact h.filled i hi (by simpa [Function.update_of_ne hi'] using hne)

end Insert

end Table

end LearnCpp.Lib.Probing
