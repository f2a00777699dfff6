/-
# `LearnCpp.ClassicAlgorithms.SelectionSort` — a swap in every round

`topics/appendix/classic_algorithms/sort.cpp`, `selectionSort`.  The exchange of
the least element with the first stands inside the loop that looks for it, so
that it is made in every round, with the index `k` found so far.

Two elements are all that a pass moves, the first of the segment and the one at
`k`, and a round sees them and the next element only:

    exchange z (p, q)  =  if z < q then (z, p) else (q, p)

A pass begins with both of them the first element.  Once it has met the least
element it has that in the first place after every second round, and in the
other place between, until another of the same value lands in it.  So a pass
puts the least element first only on some segments (`PlacesLeast`), and a vector
is sorted when each pass finds such a segment.

An exchange does no harm in the last round of its pass.  None is made before it just
when all elements but the last are in order (`undisturbed_iff`), and such vectors are
sorted; others come out in order by chance.
-/
import Mathlib.Algebra.Group.Nat.Even
import LearnCpp.Lib.Run
import LearnCpp.Lib.Vector

namespace LearnCpp.ClassicAlgorithms.SelectionSort

open Lib

/-- The variables of a pass. -/
structure Selection where
  k : ℕ
  nums : List ℤ
deriving DecidableEq

/-- One round of the inner loop of pass `i`. -/
def selectStep (i j : ℕ) (s : Selection) : Option Selection :=
  match s.nums[j]?, s.nums[s.k]? with
  | some x, some y =>
      let k := if x < y then j else s.k
      (swap s.nums i k).map fun nums => ⟨k, nums⟩
  | _, _ => none

/-- Pass `i`, over `j` from `i + 1` on. -/
def selectPass (n i : ℕ) (nums : List ℤ) : Option (List ℤ) :=
  (run (selectStep i) (List.range' (i + 1) (n - (i + 1))) ⟨i, nums⟩).map Selection.nums

/-- The first `t` passes. -/
def selectPasses (n t : ℕ) (nums : List ℤ) : Option (List ℤ) :=
  run (selectPass n) (List.range t) nums

/-- `n` is converted from `nums.size()`. -/
def selectionSort (nums : List ℤ) : Option (List ℤ) :=
  let n := (intOf nums.length).toNat
  selectPasses n (n - 1) nums

/-! ## The two elements that a pass moves -/

/-- The element in the first place and the one at `k`. -/
structure Pair where
  p : ℤ
  q : ℤ
deriving DecidableEq

/-- One round, for the next element `z`. -/
def exchange (s : Pair) (z : ℤ) : Pair := if z < s.q then ⟨z, s.p⟩ else ⟨s.q, s.p⟩

/-- A pass over the elements `zs` after the first, which is `x`. -/
def exchanges (x : ℤ) (zs : List ℤ) : Pair := zs.foldl exchange ⟨x, x⟩

section
variable {i j n : ℕ} {a : List ℤ}

/-- What holds in pass `i`, begun with the vector `a`, when the next index is `j`. -/
structure PassInv (a : List ℤ) (i j : ℕ) (pair : Pair) (s : Selection) : Prop where
  perm : s.nums.Perm a
  lt : s.k < j
  first : s.nums[i]? = some pair.p
  atK : s.nums[s.k]? = some pair.q
  before : ∀ l, l < i → s.nums[l]? = a[l]?
  after : ∀ l, j ≤ l → s.nums[l]? = a[l]?
  le : i ≤ s.k

theorem passInv_init (hi : i < a.length) : PassInv a i (i + 1) ⟨a[i], a[i]⟩ ⟨i, a⟩ where
  perm := .refl a
  lt := Nat.lt_succ_self i
  first := List.getElem?_eq_getElem hi
  atK := List.getElem?_eq_getElem hi
  before := fun _ _ => rfl
  after := fun _ _ => rfl
  le := le_refl i

theorem PassInv.step {pair : Pair} {s : Selection} (h : PassInv a i j pair s) (hj : j < a.length) :
    ∃ s', selectStep i j s = some s' ∧ PassInv a i (j + 1) (exchange pair a[j]) s' := by
  obtain ⟨k, nums⟩ := s
  have hlen : nums.length = a.length := h.perm.length_eq
  have hk : k < j := h.lt
  have hik : i ≤ k := h.le
  have hz : nums[j]? = some a[j] := (h.after j le_rfl).trans (List.getElem?_eq_getElem hj)
  have hq : nums[k]? = some pair.q := h.atK
  by_cases hlt : a[j] < pair.q
  · obtain ⟨nums', hswap, hperm, hfirst, hat, hother⟩ :=
      exists_swap (show i < nums.length by omega) (show j < nums.length by omega)
    refine ⟨⟨j, nums'⟩, ?_, ?_⟩
    · simp only [selectStep, hz, hq, if_pos hlt, hswap, Option.map_some]
    · rw [exchange, if_pos hlt]
      refine ⟨hperm.trans h.perm, Nat.lt_succ_self j, hfirst.trans hz, hat.trans h.first,
        fun l hl => ?_, fun l hl => ?_, hik.trans hk.le⟩
      · rw [hother l (by omega) (by omega), h.before l hl]
      · rw [hother l (by omega) (by omega), h.after l (by omega)]
  · obtain ⟨nums', hswap, hperm, hfirst, hat, hother⟩ :=
      exists_swap (show i < nums.length by omega) (show k < nums.length by omega)
    refine ⟨⟨k, nums'⟩, ?_, ?_⟩
    · simp only [selectStep, hz, hq, if_neg hlt, hswap, Option.map_some]
    · rw [exchange, if_neg hlt]
      refine ⟨hperm.trans h.perm, Nat.lt_succ_of_lt hk, hfirst.trans hq, hat.trans h.first,
        fun l hl => ?_, fun l hl => ?_, hik⟩
      · rw [hother l (by omega) (by omega), h.before l hl]
      · rw [hother l (by omega) (by omega), h.after l (by omega)]

theorem passInv_run (hi : i < a.length) {n : ℕ} (hn : i + 1 + n ≤ a.length) :
    ∃ s, run (selectStep i) (List.range' (i + 1) n) ⟨i, a⟩ = some s ∧
      PassInv a i (i + 1 + n) (exchanges a[i] ((a.drop (i + 1)).take n)) s := by
  refine run_range' (fun t s => PassInv a i (i + 1 + t) (exchanges a[i] ((a.drop (i + 1)).take t)) s)
    (passInv_init hi) (i + 1) fun t s ht hinv => ?_
  obtain ⟨s', hstep, hinv'⟩ := hinv.step (by omega)
  have htake : (a.drop (i + 1)).take (t + 1) = (a.drop (i + 1)).take t ++ [a[i + 1 + t]] := by
    rw [List.take_succ_eq_append_getElem (by rw [List.length_drop]; omega), List.getElem_drop]
  refine ⟨s', hstep, ?_⟩
  rw [htake, exchanges, List.foldl_concat]
  exact hinv'

end

/-- **A pass** keeps what is before its segment, permutes the segment, and has in the
first place what the exchanges leave there. -/
theorem selectPass_append (pre : List ℤ) (x : ℤ) (zs : List ℤ) :
    ∃ ws, selectPass (pre ++ x :: zs).length pre.length (pre ++ x :: zs) =
        some (pre ++ (exchanges x zs).p :: ws) ∧ ((exchanges x zs).p :: ws).Perm (x :: zs) := by
  have hlen : (pre ++ x :: zs).length = pre.length + 1 + zs.length := by simp; omega
  have hrounds : (pre ++ x :: zs).length - (pre.length + 1) = zs.length := by omega
  have hfirst : pre.length < (pre ++ x :: zs).length := by omega
  have hx : (pre ++ x :: zs)[pre.length] = x := by simp
  obtain ⟨⟨k, nums⟩, hrun, hinv⟩ := passInv_run (n := zs.length) hfirst (by omega)
  have hzs : ((pre ++ x :: zs).drop (pre.length + 1)).take zs.length = zs := by
    rw [List.drop_append, List.drop_eq_nil_of_le (Nat.le_succ _)]
    simp
  rw [hx, hzs] at hinv
  have hpre : nums.take pre.length = pre := by
    refine List.ext_getElem? fun l => ?_
    rw [List.getElem?_take]
    split
    next hl => rw [hinv.before l hl, List.getElem?_append_left hl]
    next hl => rw [List.getElem?_eq_none (by omega)]
  obtain ⟨hi, hp⟩ := List.getElem?_eq_some_iff.mp hinv.first
  have hnums : nums = pre ++ (exchanges x zs).p :: nums.drop (pre.length + 1) := by
    rw [← hp, ← List.drop_eq_getElem_cons hi]
    exact (List.take_append_drop pre.length nums).symm.trans (by rw [hpre])
  refine ⟨nums.drop (pre.length + 1), ?_, ?_⟩
  · rw [selectPass, hrounds, hrun, ← hnums]
    rfl
  · have hperm : nums.Perm (pre ++ x :: zs) := hinv.perm
    rw [hnums] at hperm
    exact (List.perm_append_left_iff pre).mp hperm

/-! ## When the least element comes first -/

/-- The first element of a segment is the least. -/
def LeastFirst : List ℤ → Prop
  | [] => True
  | x :: zs => ∀ z ∈ zs, x ≤ z

/-- A pass puts the least element of this segment first: it is there already, or an even
number of elements follow its first occurrence, or it occurs again with an even number of
elements between the two. -/
def PlacesLeast : List ℤ → Prop
  | [] => True
  | x :: zs => (∀ z ∈ zs, x ≤ z) ∨
      ∃ front m rest, zs = front ++ m :: rest ∧ m < x ∧ (∀ z ∈ front, m < z) ∧
        (∀ z ∈ rest, m ≤ z) ∧ (Even rest.length ∨ ∃ t, rest[2 * t]? = some m)

section
variable {m : ℤ} {s : Pair} {zs : List ℤ}

theorem foldl_exchange_of_lt (hp : m < s.p) (hq : m < s.q) (hzs : ∀ z ∈ zs, m < z) :
    m < (zs.foldl exchange s).p ∧ m < (zs.foldl exchange s).q := by
  induction zs generalizing s with
  | nil => exact ⟨hp, hq⟩
  | cons z zs ih =>
      obtain ⟨hz, hzs⟩ := List.forall_mem_cons.mp hzs
      by_cases hlt : z < s.q
      · rw [List.foldl_cons, exchange, if_pos hlt]
        exact ih hz hp hzs
      · rw [List.foldl_cons, exchange, if_neg hlt]
        exact ih hq hp hzs

theorem foldl_exchange_of_le (hzs : ∀ z ∈ zs, m ≤ z) : zs.foldl exchange ⟨m, m⟩ = ⟨m, m⟩ := by
  induction zs with
  | nil => rfl
  | cons z zs ih =>
      obtain ⟨hz, hzs⟩ := List.forall_mem_cons.mp hzs
      rw [List.foldl_cons, exchange, if_neg hz.not_gt]
      exact ih hzs

theorem exchange_exchange {q z₁ z₂ : ℤ} (h₂ : m ≤ z₂) :
    exchange (exchange ⟨m, q⟩ z₁) z₂ = ⟨m, if z₁ < q then z₁ else q⟩ := by
  by_cases hlt : z₁ < q
  · rw [exchange, exchange, if_pos hlt, if_pos hlt, if_neg h₂.not_gt]
  · rw [exchange, exchange, if_neg hlt, if_neg hlt, if_neg h₂.not_gt]

/-- With the least element in the first place, it is there after every second round, unless
it meets itself in the other place and then stays. -/
theorem foldl_exchange_p_iff : ∀ (rest : List ℤ) {q : ℤ}, m < q → (∀ z ∈ rest, m ≤ z) →
    ((rest.foldl exchange ⟨m, q⟩).p = m ↔
      Even rest.length ∨ ∃ t, rest[2 * t]? = some m)
  | [], q, _, _ => by simp
  | [z], q, hq, hrest => by
      have hz : m ≤ z := hrest z List.mem_cons_self
      have hp : ([z].foldl exchange ⟨m, q⟩).p = if z < q then z else q := by
        rw [List.foldl_cons, List.foldl_nil, exchange]
        split <;> rfl
      rw [hp]
      constructor
      · intro h
        refine .inr ⟨0, ?_⟩
        split at h
        · exact congrArg some h
        · exact absurd h hq.ne'
      · rintro (heven | ⟨t, ht⟩)
        · simp at heven
        · cases t with
          | zero => rw [if_pos (by simp_all)]; simpa using ht
          | succ t => simp [Nat.mul_succ] at ht
  | z₁ :: z₂ :: rest, q, hq, hrest => by
      obtain ⟨h₁, hrest₁⟩ := List.forall_mem_cons.mp hrest
      obtain ⟨h₂, hrest₂⟩ := List.forall_mem_cons.mp hrest₁
      rw [List.foldl_cons, List.foldl_cons, exchange_exchange h₂]
      rcases h₁.lt_or_eq with hlt | rfl
      · have hlt' : m < if z₁ < q then z₁ else q := by split <;> assumption
        rw [foldl_exchange_p_iff rest hlt' hrest₂, List.length_cons, List.length_cons,
          Nat.even_add_one, Nat.even_add_one, not_not]
        refine or_congr_right ⟨?_, ?_⟩
        · rintro ⟨t, ht⟩
          exact ⟨t + 1, ht⟩
        · rintro ⟨t, ht⟩
          cases t with
          | zero => exact absurd (Option.some.inj ht) hlt.ne'
          | succ t => exact ⟨t, ht⟩
      · rw [if_pos hq, foldl_exchange_of_le hrest₂]
        exact iff_of_true rfl (.inr ⟨0, rfl⟩)

end

theorem exists_first_least : ∀ {zs : List ℤ}, zs ≠ [] →
    ∃ front m rest, zs = front ++ m :: rest ∧ (∀ z ∈ front, m < z) ∧ ∀ z ∈ rest, m ≤ z := by
  intro zs
  induction zs with
  | nil => intro h; exact absurd rfl h
  | cons z zs ih =>
      intro _
      rcases eq_or_ne zs [] with rfl | hne
      · exact ⟨[], z, [], rfl, List.forall_mem_nil _, List.forall_mem_nil _⟩
      · obtain ⟨front, m, rest, rfl, hfront, hrest⟩ := ih hne
        rcases lt_or_ge m z with hlt | hle
        · exact ⟨z :: front, m, rest, rfl, List.forall_mem_cons.mpr ⟨hlt, hfront⟩, hrest⟩
        · refine ⟨[], z, front ++ m :: rest, rfl, List.forall_mem_nil _, fun y hy => ?_⟩
          rcases List.mem_append.mp hy with hy | hy
          · exact hle.trans (hfront y hy).le
          · rcases List.mem_cons.mp hy with rfl | hy
            · exact hle
            · exact hle.trans (hrest y hy)

/-- Where the first occurrence of the least element is not the first element, the
exchanges leave that element in the first place by the parity of what follows. -/
theorem exchanges_p_iff {x m : ℤ} {front rest : List ℤ} (hx : m < x) (hfront : ∀ z ∈ front, m < z)
    (hrest : ∀ z ∈ rest, m ≤ z) :
    (exchanges x (front ++ m :: rest)).p = m ↔
      Even rest.length ∨ ∃ t, rest[2 * t]? = some m := by
  obtain ⟨hp, hq⟩ := foldl_exchange_of_lt (s := ⟨x, x⟩) hx hx hfront
  rw [exchanges, List.foldl_append, List.foldl_cons, exchange, if_pos hq]
  exact foldl_exchange_p_iff rest hp hrest

theorem forall_le_iff {x m z : ℤ} {front rest : List ℤ} (hx : m < x) (hfront : ∀ z ∈ front, m < z)
    (hrest : ∀ z ∈ rest, m ≤ z) : (∀ y ∈ x :: (front ++ m :: rest), z ≤ y) ↔ z ≤ m := by
  constructor
  · intro h
    exact h m (by simp)
  · intro h y hy
    simp only [List.mem_cons, List.mem_append] at hy
    rcases hy with rfl | hy | rfl | hy
    · exact h.trans hx.le
    · exact h.trans (hfront y hy).le
    · exact h
    · exact h.trans (hrest y hy)

/-- **A pass puts the least element first** exactly on the segments of `PlacesLeast`. -/
theorem leastFirst_exchanges_iff {x : ℤ} {zs ws : List ℤ}
    (hperm : ((exchanges x zs).p :: ws).Perm (x :: zs)) :
    LeastFirst ((exchanges x zs).p :: ws) ↔ PlacesLeast (x :: zs) := by
  have hmem : (exchanges x zs).p ∈ x :: zs := hperm.mem_iff.mp List.mem_cons_self
  have hleast : LeastFirst ((exchanges x zs).p :: ws) ↔ ∀ z ∈ x :: zs, (exchanges x zs).p ≤ z := by
    constructor
    · intro h z hz
      rcases List.mem_cons.mp (hperm.mem_iff.mpr hz) with rfl | hz
      · exact le_refl _
      · exact h z hz
    · intro h z hz
      exact h z (hperm.mem_iff.mp (List.mem_cons_of_mem _ hz))
  rw [hleast]
  constructor
  · intro h
    by_cases hx : ∀ z ∈ zs, x ≤ z
    · exact .inl hx
    · obtain ⟨y, hy, hyx⟩ : ∃ y ∈ zs, y < x := by simpa using hx
      obtain ⟨front, m, rest, rfl, hfront, hrest⟩ := exists_first_least (List.ne_nil_of_mem hy)
      have hmx : m < x := by
        refine lt_of_le_of_lt ?_ hyx
        simp only [List.mem_cons, List.mem_append] at hy
        rcases hy with hy | rfl | hy
        · exact (hfront y hy).le
        · exact le_refl _
        · exact hrest y hy
      have hp : (exchanges x (front ++ m :: rest)).p = m :=
        le_antisymm (h m (by simp)) ((forall_le_iff hmx hfront hrest).mpr le_rfl _ hmem)
      exact .inr ⟨front, m, rest, rfl, hmx, hfront, hrest,
        (exchanges_p_iff hmx hfront hrest).mp hp⟩
  · rintro (hx | ⟨front, m, rest, rfl, hmx, hfront, hrest, hpar⟩)
    · rw [exchanges, foldl_exchange_of_le hx]
      exact List.forall_mem_cons.mpr ⟨le_refl x, hx⟩
    · rw [(exchanges_p_iff hmx hfront hrest).mpr hpar]
      exact (forall_le_iff hmx hfront hrest).mpr le_rfl

/-! ## All passes -/

theorem pairwise_iff_leastFirst : ∀ {out : List ℤ},
    out.Pairwise (· ≤ ·) ↔ ∀ l, l + 1 < out.length → LeastFirst (out.drop l)
  | [] => by simp
  | x :: out => by
      rw [List.pairwise_cons, pairwise_iff_leastFirst]
      constructor
      · rintro ⟨hx, hout⟩ l hl
        cases l with
        | zero => exact hx
        | succ l => exact hout l (by simpa using hl)
      · intro h
        refine ⟨fun z hz => ?_, fun l hl => h (l + 1) (by simpa using hl)⟩
        have hpos : 0 < out.length := List.length_pos_of_mem hz
        exact h 0 (by simpa using hpos) z hz

theorem LeastFirst.of_perm {ys d d' : List ℤ} (hys : ys ≠ []) (hperm : d'.Perm d)
    (h : LeastFirst (ys ++ d)) : LeastFirst (ys ++ d') := by
  cases ys with
  | nil => exact absurd rfl hys
  | cons y ys =>
      intro z hz
      refine h z (List.mem_append.mpr ?_)
      exact (List.mem_append.mp hz).imp_right hperm.mem_iff.mp

theorem selectPass_spec {a : List ℤ} {i : ℕ} (hi : i < a.length) :
    ∃ b, selectPass a.length i a = some b ∧ b.Perm a ∧
      (∀ l, l < i → (LeastFirst (b.drop l) ↔ LeastFirst (a.drop l))) ∧
      (LeastFirst (b.drop i) ↔ PlacesLeast (a.drop i)) := by
  obtain ⟨pre, x, zs, rfl, rfl⟩ : ∃ pre x zs, a = pre ++ x :: zs ∧ i = pre.length := by
    refine ⟨a.take i, a[i], a.drop (i + 1), ?_, ?_⟩
    · rw [← List.drop_eq_getElem_cons hi, List.take_append_drop]
    · rw [List.length_take, min_eq_left hi.le]
  obtain ⟨ws, hpass, hperm⟩ := selectPass_append pre x zs
  refine ⟨_, hpass, hperm.append_left pre, fun l hl => ?_, ?_⟩
  · have hne : pre.drop l ≠ [] := by
      rw [ne_eq, List.drop_eq_nil_iff, not_le]
      exact hl
    rw [List.drop_append_of_le_length hl.le, List.drop_append_of_le_length hl.le]
    exact ⟨fun h => h.of_perm hne hperm.symm, fun h => h.of_perm hne hperm⟩
  · rw [List.drop_left, List.drop_left]
    exact leastFirst_exchanges_iff hperm

/-- The segment that pass `i` finds is one whose least element it puts first. -/
def PassPlaces (nums : List ℤ) (i : ℕ) : Prop :=
  ∀ a, selectPasses nums.length i nums = some a → PlacesLeast (a.drop i)

/-- The passes permute the vector, and the element each leaves in its place is the least
of its segment when the pass found one of `PlacesLeast`. -/
theorem selectPasses_spec (nums : List ℤ) : ∀ t, t ≤ nums.length →
    ∃ b, selectPasses nums.length t nums = some b ∧ b.Perm nums ∧
      ∀ l, l < t → (LeastFirst (b.drop l) ↔ PassPlaces nums l) := by
  intro t
  induction t with
  | zero =>
      intro _
      exact ⟨nums, rfl, .refl nums, fun l hl => absurd hl (Nat.not_lt_zero l)⟩
  | succ t ih =>
      intro ht
      obtain ⟨a, hrun, hperm, hplaces⟩ := ih (Nat.le_of_succ_le ht)
      obtain ⟨b, hpass, hperm', hbefore, hat⟩ := selectPass_spec (a := a) (i := t)
        (by rw [hperm.length_eq]; exact ht)
      rw [hperm.length_eq] at hpass
      refine ⟨b, ?_, hperm'.trans hperm, fun l hl => ?_⟩
      · rw [selectPasses, List.range_succ, run_concat]
        rw [selectPasses] at hrun
        rw [hrun]
        exact hpass
      · rcases (Nat.le_of_lt_succ hl).lt_or_eq with hlt | rfl
        · exact (hbefore l hlt).trans (hplaces l hlt)
        · rw [hat, PassPlaces, hrun]
          exact ⟨fun h c hc => Option.some.inj hc ▸ h, fun h => h a rfl⟩

/-- `selectionSort` ends with a permutation of the vector, in which each place but the last
holds the least of what begins there when its pass put that first. -/
theorem selectionSort_spec {nums : List ℤ} (hn : nums.length < 2 ^ 31) :
    ∃ out, selectionSort nums = some out ∧ out.Perm nums ∧
      ∀ i, i + 1 < out.length → (LeastFirst (out.drop i) ↔ PassPlaces nums i) := by
  obtain ⟨out, hrun, hperm, hplaces⟩ := selectPasses_spec nums (nums.length - 1) (Nat.sub_le _ _)
  refine ⟨out, ?_, hperm, fun i hi => hplaces i ?_⟩
  · rw [selectionSort, intOf_length hn, Int.toNat_natCast]
    exact hrun
  · rw [hperm.length_eq] at hi
    omega

/-- What `selectionSort` is for. -/
def Sorts (nums : List ℤ) : Prop :=
  ∃ out, selectionSort nums = some out ∧ out.Pairwise (· ≤ ·) ∧ out.Perm nums

theorem not_sorts_of_not_placesLeast {nums : List ℤ} (hn : nums.length < 2 ^ 31)
    (htwo : 1 < nums.length) (hfirst : ¬ PlacesLeast nums) : ¬ Sorts nums := by
  obtain ⟨out, hrun, hperm, hplaces⟩ := selectionSort_spec hn
  rintro ⟨out', hrun', hsorted, -⟩
  rw [hrun, Option.some.injEq] at hrun'
  subst hrun'
  have hzero : 0 + 1 < out.length := by rwa [hperm.length_eq]
  exact hfirst ((hplaces 0 hzero).mp (pairwise_iff_leastFirst.mp hsorted 0 hzero) nums rfl)

/-- **`selectionSort`** sorts a vector exactly when each pass finds a segment whose least
element it puts first. -/
theorem sorts_iff_passPlaces {nums : List ℤ} (hn : nums.length < 2 ^ 31) :
    Sorts nums ↔ ∀ i, i + 1 < nums.length → PassPlaces nums i := by
  obtain ⟨out, hrun, hperm, hplaces⟩ := selectionSort_spec hn
  have hordered : out.Pairwise (· ≤ ·) ↔ ∀ i, i + 1 < nums.length → PassPlaces nums i := by
    rw [pairwise_iff_leastFirst, ← hperm.length_eq]
    exact forall₂_congr hplaces
  rw [← hordered, Sorts, hrun]
  constructor
  · rintro ⟨out', hout, hpairwise, -⟩
    rwa [Option.some.inj hout]
  · intro hpairwise
    exact ⟨out, rfl, hpairwise, hperm⟩

/-! ## Without an exchange before the last round -/

section
variable {i j m : ℕ} {a ys zs : List ℤ} {x z w : ℤ}

theorem selectStep_eq_self (hx : a[i]? = some x) (hz : a[j]? = some z) (hne : i ≠ j) :
    selectStep i j ⟨i, a⟩ = some ⟨i, a⟩ ↔ x ≤ z := by
  obtain ⟨hi, rfl⟩ := List.getElem?_eq_some_iff.mp hx
  obtain ⟨hj, rfl⟩ := List.getElem?_eq_some_iff.mp hz
  have hround : selectStep i j ⟨i, a⟩ =
      (swap a i (if a[j] < a[i] then j else i)).map fun nums => ⟨if a[j] < a[i] then j else i, nums⟩ := by
    rw [selectStep, hz, hx]
  rw [hround]
  constructor
  · intro hself
    by_contra hlt
    rw [if_pos (not_le.mp hlt), swap_of_lt hi hj] at hself
    exact hne (congrArg Selection.k (Option.some.inj hself)).symm
  · intro hle
    rw [if_neg hle.not_gt, swap_of_lt hi hi, List.set_getElem_self, List.set_getElem_self]
    rfl

theorem run_selectStep_eq_self (hx : a[i]? = some x)
    (hle : ∀ t, t < m → ∃ z, a[i + 1 + t]? = some z ∧ x ≤ z) :
    run (selectStep i) (List.range' (i + 1) m) ⟨i, a⟩ = some ⟨i, a⟩ := by
  obtain ⟨s, hrun, rfl⟩ : ∃ s, run (selectStep i) (List.range' (i + 1) m) ⟨i, a⟩ = some s ∧ s = ⟨i, a⟩ := by
    refine run_range' (fun (_ : ℕ) (s : Selection) => s = ⟨i, a⟩) rfl (i + 1) ?_
    rintro t _ ht rfl
    obtain ⟨z, hz, hxz⟩ := hle t ht
    exact ⟨_, (selectStep_eq_self hx hz (by omega)).mpr hxz, rfl⟩
  exact hrun

theorem getElem?_of_drop (hdrop : a.drop i = x :: zs ++ [w]) :
    a[i]? = some x ∧ (∀ t < zs.length, a[i + 1 + t]? = zs[t]?) ∧ a[i + 1 + zs.length]? = some w := by
  have hat : ∀ l, a[i + l]? = (x :: zs ++ [w])[l]? := by
    intro l
    rw [← List.getElem?_drop, hdrop]
  have hnext : ∀ t, a[i + 1 + t]? = (zs ++ [w])[t]? := by
    intro t
    rw [Nat.add_assoc, hat, Nat.add_comm 1]
    rfl
  refine ⟨hat 0, fun t ht => ?_, ?_⟩
  · rw [hnext, List.getElem?_append_left ht]
  · rw [hnext, List.getElem?_concat_length]

/-- In a segment that begins with its least element, up to the last one, the rounds leave
all as it is. -/
theorem run_of_leastFirst (hdrop : a.drop i = x :: zs ++ [w]) (hleast : LeastFirst (x :: zs))
    (hm : m ≤ zs.length) :
    run (selectStep i) (List.range' (i + 1) m) ⟨i, a⟩ = some ⟨i, a⟩ := by
  obtain ⟨hx, hzs, -⟩ := getElem?_of_drop hdrop
  refine run_selectStep_eq_self hx fun t ht => ?_
  have hlt : t < zs.length := ht.trans_le hm
  refine ⟨zs[t], ?_, hleast _ (List.getElem_mem hlt)⟩
  rw [hzs t hlt, List.getElem?_eq_getElem hlt]

theorem selectPass_of_leastFirst (hdrop : a.drop i = x :: zs ++ [w]) (hleast : LeastFirst (x :: zs)) :
    ∃ b w', selectPass a.length i a = some b ∧ b.length = a.length ∧ b.drop (i + 1) = zs ++ [w'] := by
  obtain ⟨hx, -, hw⟩ := getElem?_of_drop hdrop
  have hlength : a.length - i = zs.length + 2 := by
    rw [← List.length_drop, hdrop]
    simp
  have hrest : a.drop (i + 1) = zs ++ [w] := by
    rw [← List.drop_drop, hdrop]
    rfl
  have hn : a.length - (i + 1) = zs.length + 1 := by omega
  have hpass : selectPass a.length i a =
      (selectStep i (i + 1 + zs.length) ⟨i, a⟩).map Selection.nums := by
    rw [selectPass, hn, List.range'_concat, Nat.one_mul, run_concat,
      run_of_leastFirst hdrop hleast le_rfl]
    rfl
  rw [hpass]
  rcases le_or_gt x w with hle | hlt
  · refine ⟨a, w, ?_, rfl, hrest⟩
    rw [(selectStep_eq_self hx hw (by omega)).mpr hle]
    rfl
  · -- the one exchange of the pass, in its last round
    refine ⟨(a.set i w).set (i + 1 + zs.length) x, x, ?_, ?_, ?_⟩
    · rw [selectStep, hx, hw]
      dsimp only
      rw [if_pos hlt, swap, hx, hw]
      rfl
    · rw [List.length_set, List.length_set]
    · rw [List.drop_set, if_neg (by omega), List.drop_set_of_lt (Nat.lt_succ_self i), hrest,
        Nat.add_sub_cancel_left, List.set_append_right _ _ le_rfl, Nat.sub_self]
      rfl

end

/-- No pass makes an exchange, or finds a smaller element, before its last round. -/
def Undisturbed (nums : List ℤ) : Prop :=
  ∀ i m a, i + 1 + m < nums.length → selectPasses nums.length i nums = some a →
    run (selectStep i) (List.range' (i + 1) m) ⟨i, a⟩ = some ⟨i, a⟩

section
variable {ys : List ℤ} {w : ℤ}

theorem selectPasses_of_leastFirst : ∀ t, t ≤ ys.length → (∀ l, l < t → LeastFirst (ys.drop l)) →
    ∃ b w', selectPasses (ys ++ [w]).length t (ys ++ [w]) = some b ∧
      b.length = (ys ++ [w]).length ∧ b.drop t = ys.drop t ++ [w'] := by
  intro t
  induction t with
  | zero =>
      intro _ _
      exact ⟨ys ++ [w], w, rfl, rfl, rfl⟩
  | succ t ih =>
      intro ht hleast
      obtain ⟨a, w', hrun, hlength, hdrop⟩ :=
        ih (Nat.le_of_succ_le ht) fun l hl => hleast l (Nat.lt_succ_of_lt hl)
      have hnow := hleast t (Nat.lt_succ_self t)
      rw [List.drop_eq_getElem_cons ht] at hdrop hnow
      obtain ⟨b, w'', hpass, hsame, hnext⟩ := selectPass_of_leastFirst hdrop hnow
      refine ⟨b, w'', ?_, hsame.trans hlength, hnext⟩
      rw [selectPasses] at hrun
      rw [selectPasses, List.range_succ, run_concat, hrun, ← hlength]
      exact hpass

theorem pairwise_iff_leastFirst_drop :
    ys.Pairwise (· ≤ ·) ↔ ∀ l, l < ys.length → LeastFirst (ys.drop l) := by
  rw [pairwise_iff_leastFirst]
  refine ⟨fun h l hl => ?_, fun h l hl => h l (Nat.lt_of_succ_lt hl)⟩
  rcases Nat.lt_or_ge (l + 1) ys.length with hlt | hge
  · exact h l hlt
  · -- the last element is alone
    rw [List.drop_eq_getElem_cons hl, List.drop_eq_nil_of_le hge]
    exact List.forall_mem_nil _

/-- **No pass is disturbed** just when all elements but the last are in order. -/
theorem undisturbed_iff : Undisturbed (ys ++ [w]) ↔ ys.Pairwise (· ≤ ·) := by
  have hlength : (ys ++ [w]).length = ys.length + 1 := List.length_append
  rw [pairwise_iff_leastFirst_drop]
  constructor
  · intro h l
    induction l using Nat.strong_induction_on with
    | _ l ih =>
      intro hl
      -- the passes before found their segments in order
      obtain ⟨a, w', hrun, hsame, hdrop⟩ := selectPasses_of_leastFirst (w := w) l hl.le
        fun l' hl' => ih l' hl' (hl'.trans hl)
      rw [List.drop_eq_getElem_cons hl] at hdrop ⊢
      obtain ⟨hx, hzs, -⟩ := getElem?_of_drop hdrop
      intro z hz
      obtain ⟨t, ht⟩ := List.getElem?_of_mem hz
      obtain ⟨hlt, -⟩ := List.getElem?_eq_some_iff.mp ht
      have hround := h l (t + 1) a (by rw [List.length_drop] at hlt; omega) hrun
      have hbefore := h l t a (by rw [List.length_drop] at hlt; omega) hrun
      rw [List.range'_concat, Nat.one_mul, run_concat, hbefore] at hround
      exact (selectStep_eq_self hx ((hzs t hlt).trans ht) (by omega)).mp hround
  · intro h i m a hm hrun
    obtain ⟨a', w', hrun', -, hdrop⟩ := selectPasses_of_leastFirst (w := w) i (by omega)
      fun l hl => h l (by omega)
    obtain rfl := Option.some.inj (hrun.symm.trans hrun')
    have hi : i < ys.length := by omega
    have hleast := h i hi
    rw [List.drop_eq_getElem_cons hi] at hdrop hleast
    refine run_of_leastFirst hdrop hleast ?_
    rw [List.length_drop]
    omega

theorem placesLeast_of_leastFirst {x : ℤ} {zs : List ℤ} (hleast : LeastFirst (x :: zs)) :
    PlacesLeast (x :: (zs ++ [w])) := by
  rcases le_or_gt x w with hle | hlt
  · refine .inl fun z hz => ?_
    rcases List.mem_append.mp hz with hz | hz
    · exact hleast z hz
    · rwa [List.mem_singleton.mp hz]
  · refine .inr ⟨zs, w, [], rfl, hlt, fun z hz => hlt.trans_le (hleast z hz), ?_, ?_⟩
    · exact List.forall_mem_nil _
    · exact .inl Even.zero

end

/-- **`selectionSort`** sorts a vector whose elements, but for the last, are in order:
just then no pass is disturbed.  Of the others it sorts none whose least element the
first pass does not put first. -/
theorem sorts_of_dropLast {nums : List ℤ} (hn : nums.length < 2 ^ 31) :
    (nums.dropLast.Pairwise (· ≤ ·) → Sorts nums) ∧
    (nums.dropLast.Pairwise (· ≤ ·) ↔ Undisturbed nums) ∧
    (Sorts nums → 1 < nums.length → PlacesLeast nums) := by
  refine ⟨fun hordered => ?_, ?_, fun hsorts htwo => ?_⟩
  · refine (sorts_iff_passPlaces hn).mpr fun i hi a hrun => ?_
    have hne : nums ≠ [] := List.ne_nil_of_length_pos (Nat.zero_lt_of_lt hi)
    have hlt : i < nums.dropLast.length := by
      rw [List.length_dropLast]
      omega
    have hleast := pairwise_iff_leastFirst_drop.mp hordered
    obtain ⟨a', w, hrun', -, hdrop⟩ := selectPasses_of_leastFirst (w := nums.getLast hne) i hlt.le
      fun l hl => hleast l (hl.trans hlt)
    rw [List.dropLast_append_getLast hne] at hrun'
    obtain rfl := Option.some.inj (hrun.symm.trans hrun')
    have hnow := hleast i hlt
    rw [List.drop_eq_getElem_cons hlt] at hdrop hnow
    rw [hdrop]
    exact placesLeast_of_leastFirst hnow
  · rcases List.eq_nil_or_concat nums with rfl | ⟨ys, w, rfl⟩
    · refine iff_of_true .nil fun i m a hm _ => ?_
      exact absurd hm (Nat.not_lt_zero _)
    · rw [List.concat_eq_append, List.dropLast_concat]
      exact undisturbed_iff.symm
  · by_contra hnot
    exact not_sorts_of_not_placesLeast hn htwo hnot hsorts

/-- All but the last of four elements are in order. -/
theorem sorts_of_dropLast_four : Sorts [2, 4, 5, 3] ∧ Undisturbed [2, 4, 5, 3] := by
  obtain ⟨hsorts, hiff, -⟩ := @sorts_of_dropLast [2, 4, 5, 3] (by decide)
  exact ⟨hsorts (by decide), hiff.mp (by decide)⟩

/-- The least of three elements comes first in one round, and leaves in the next. -/
theorem not_sorts_three : ¬ Sorts [2, 1, 3] := by
  rintro ⟨out, hout, hsorted, -⟩
  have hrun : selectionSort [2, 1, 3] = some [2, 1, 3] := by decide
  rw [hrun, Option.some.injEq] at hout
  subst hout
  exact absurd hsorted (by decide)

end LearnCpp.ClassicAlgorithms.SelectionSort
