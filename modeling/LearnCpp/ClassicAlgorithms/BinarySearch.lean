/-
# `LearnCpp.ClassicAlgorithms.BinarySearch` — the two binary searches

`topics/appendix/classic_algorithms/search.cpp`.  Both loops take as midpoint
`(i + (j - i)) / 2`, which is `j / 2` whatever `i` is.  A window `[0, j]` is
halved as it should be while the loop moves to the left; the first move to the
right sets `i = j / 2 + 1`, and from then on the midpoint stays where it is and
the loop with it.

    BinarySearch            looks at  nums[(n-1) / 2],  nums[(n-1) / 4],  …
    BinarySearchInsertion   the window plus two is  n+1,  (n+1) / 2,  (n+1) / 4,  …

so that each ends only on the vectors whose answer lies on that path.
-/
import LearnCpp.Lib.Loop
import LearnCpp.Lib.Vector

namespace LearnCpp.ClassicAlgorithms.BinarySearch

open Lib

/-- The window `[i, j]` of a search. -/
structure Window where
  i : ℤ
  j : ℤ
deriving DecidableEq

/-- The window before the first round: `j` is converted from `nums.size() - 1`. -/
def Window.init (nums : List ℤ) : Window := ⟨0, intOf ((nums.length : ℤ) - 1)⟩

/-- `(i + (j - i)) / 2`. -/
def midpoint (w : Window) : Option ℤ :=
  (checked (w.j - w.i)).bind fun d => (checked (w.i + d)).map fun s => s.tdiv 2

/-- One round of `BinarySearch`. -/
def binarySearch (nums : List ℤ) (target : ℤ) (w : Window) : Option (Round Window ℤ) :=
  if w.i ≤ w.j then
    (midpoint w).bind fun m =>
      (nth nums m).bind fun x =>
        if x < target then (checked (m + 1)).map fun i => .next ⟨i, w.j⟩
        else if target < x then (checked (m - w.i)).map fun j => .next ⟨w.i, j⟩
        else some (.leave m)
  else some (.leave (-1))

/-- One round of `BinarySearchInsertion`. -/
def binarySearchInsertion (nums : List ℤ) (target : ℤ) (w : Window) : Option (Round Window ℤ) :=
  if w.i ≤ w.j then
    (midpoint w).bind fun m =>
      (nth nums m).bind fun x =>
        if x < target then (checked (m + 1)).map fun i => .next ⟨i, w.j⟩
        else if target < x then (checked (m - 1)).map fun j => .next ⟨w.i, j⟩
        else (checked (m - 1)).map fun j => .next ⟨w.i, j⟩
  else some (.leave w.i)

variable {nums : List ℤ} {target : ℤ}

/-! ## The first window -/

theorem init_nil : Window.init [] = ⟨0, -1⟩ := rfl

theorem init_eq (hn : nums.length < 2 ^ 31) (hpos : 0 < nums.length) :
    Window.init nums = ⟨0, (nums.length - 1 : ℕ)⟩ := by
  rw [Window.init, intOf_of_inInt ⟨by omega, by omega⟩, Nat.cast_sub hpos, Nat.cast_one]

/-! ## One round, from a window of indices -/

section
variable {i j : ℕ}

theorem midpoint_eq (hj : j < 2 ^ 31) (hi : i ≤ j) : midpoint ⟨i, j⟩ = some ((j / 2 : ℕ) : ℤ) := by
  have hd : InInt ((j : ℤ) - i) := ⟨by omega, by omega⟩
  have hs : InInt (j : ℤ) := ⟨by omega, by omega⟩
  rw [midpoint, checked_of_inInt hd, Option.bind_some, add_sub_cancel, checked_of_inInt hs,
    Option.map_some]
  exact congrArg some (Int.ofNat_tdiv j 2).symm

variable (hn : nums.length < 2 ^ 31) (hj : j < nums.length) (hi : i ≤ j)
include hn hi

theorem binarySearch_window :
    binarySearch nums target ⟨i, j⟩ =
      if nums[j / 2] < target then some (.next ⟨(j / 2 + 1 : ℕ), j⟩)
      else if target < nums[j / 2] then some (.next ⟨i, ((j / 2 : ℕ) : ℤ) - i⟩)
      else some (.leave ((j / 2 : ℕ) : ℤ)) := by
  have hright : InInt (((j / 2 : ℕ) : ℤ) + 1) := ⟨by omega, by omega⟩
  have hleft : InInt (((j / 2 : ℕ) : ℤ) - i) := ⟨by omega, by omega⟩
  rw [binarySearch, if_pos (Int.ofNat_le.mpr hi), midpoint_eq (by omega) hi, Option.bind_some,
    nth_natCast, List.getElem?_eq_getElem (by omega), Option.bind_some, checked_of_inInt hright,
    checked_of_inInt hleft]
  rfl

/-- Whether the element is larger or equal, the window then ends before it. -/
theorem binarySearchInsertion_window :
    binarySearchInsertion nums target ⟨i, j⟩ =
      if nums[j / 2] < target then some (.next ⟨(j / 2 + 1 : ℕ), j⟩)
      else some (.next ⟨i, ((j / 2 : ℕ) : ℤ) - 1⟩) := by
  have hright : InInt (((j / 2 : ℕ) : ℤ) + 1) := ⟨by omega, by omega⟩
  have hleft : InInt (((j / 2 : ℕ) : ℤ) - 1) := ⟨by omega, by omega⟩
  rw [binarySearchInsertion, if_pos (Int.ofNat_le.mpr hi), midpoint_eq (by omega) hi,
    Option.bind_some, nth_natCast, List.getElem?_eq_getElem (by omega), Option.bind_some,
    checked_of_inInt hright, checked_of_inInt hleft, Option.map_some, ite_self]
  rfl

end

/-! ## `BinarySearch` -/

/-- What `BinarySearch` is for: it ends, with an index of the target when there is
one and with `-1` otherwise. -/
def Finds (nums : List ℤ) (target : ℤ) : Prop :=
  ∃ r, Returns (binarySearch nums target) (.init nums) r ∧
    (target ∈ nums → ∃ m : ℕ, r = m ∧ nums[m]? = some target) ∧
    (target ∉ nums → r = -1)

/-- The vector is empty, or has one element that is smaller than the target, or
the target is at one of the indices `(n - 1) / 2`, `(n - 1) / 4`, …. -/
def OnPath (nums : List ℤ) (target : ℤ) : Prop :=
  nums = [] ∨ (∃ x, nums = [x] ∧ x < target) ∨
    ∃ k, nums[(nums.length - 1) / 2 ^ (k + 1)]? = some target

section
variable (hn : nums.length < 2 ^ 31)
include hn

theorem binarySearch_fromZero {j : ℕ} (hj : j < nums.length) :
    binarySearch nums target ⟨0, j⟩ =
      if nums[j / 2] < target then some (.next ⟨(j / 2 + 1 : ℕ), j⟩)
      else if target < nums[j / 2] then some (.next ⟨0, (j / 2 : ℕ)⟩)
      else some (.leave ((j / 2 : ℕ) : ℤ)) := by
  have h : binarySearch nums target ⟨(0 : ℕ), j⟩ = _ := binarySearch_window hn hj (Nat.zero_le j)
  rwa [Nat.cast_zero, sub_zero] at h

omit hn in
theorem binarySearch_empty {w : Window} (h : w.j < w.i) :
    binarySearch nums target w = some (.leave (-1)) := if_neg (not_le.mpr h)

/-- The loop comes to the target when that is on the path of halves. -/
theorem returns_of_half (hsorted : nums.Pairwise (· ≤ ·)) :
    ∀ (k j : ℕ), j < nums.length → nums[j / 2 ^ (k + 1)]? = some target →
      ∃ m : ℕ, Returns (binarySearch nums target) ⟨0, j⟩ m ∧ nums[m]? = some target := by
  intro k
  induction k with
  | zero =>
      intro j hj hk
      rw [pow_one] at hk
      obtain ⟨hlt, hx⟩ := List.getElem?_eq_some_iff.mp hk
      refine ⟨j / 2, (returns_leave ?_).mpr rfl, hk⟩
      rw [binarySearch_fromZero hn hj, if_neg hx.not_lt, if_neg hx.not_gt]
  | succ k ih =>
      intro j hj hk
      -- the element in the middle is not before the one on the path
      have hright : ¬ nums[j / 2] < target := by
        obtain ⟨hlt, hx⟩ := List.getElem?_eq_some_iff.mp hk
        have hcount := (getElem_lt_iff_lt_countP hsorted hlt target).not.mp hx.not_lt
        rw [getElem_lt_iff_lt_countP hsorted (by omega) target]
        have hle : j / 2 ^ (k + 1 + 1) ≤ j / 2 :=
          Nat.div_le_div_left (Nat.le_self_pow (by omega) 2) (by omega)
        omega
      rcases (not_lt.mp hright).lt_or_eq with hleft | hx
      · obtain ⟨m, hm, hget⟩ := ih (j / 2) (by omega)
          (by rwa [Nat.div_div_eq_div_mul, ← pow_succ'])
        refine ⟨m, (returns_next ?_).mpr hm, hget⟩
        rw [binarySearch_fromZero hn hj, if_neg hright, if_pos hleft]
      · refine ⟨j / 2, (returns_leave ?_).mpr rfl, ?_⟩
        · rw [binarySearch_fromZero hn hj, if_neg hright, if_neg hx.not_lt]
        · rw [List.getElem?_eq_getElem (by omega), hx]

end

/-- The windows the loop never leaves: those that begin at zero with the target on
no half of them, and those one beyond their own midpoint. -/
inductive Stuck (nums : List ℤ) (target : ℤ) : Window → Prop
  | halving {j : ℕ} (hj : j < nums.length) (hpath : ∀ k, nums[j / 2 ^ (k + 1)]? ≠ some target)
      (hzero : j = 0 → target < nums[0]) : Stuck nums target ⟨0, j⟩
  | beyond {j : ℕ} (hj : j < nums.length) (hpos : 1 ≤ j) (hx : nums[j / 2] < target) :
      Stuck nums target ⟨(j / 2 + 1 : ℕ), j⟩

theorem Stuck.round (hn : nums.length < 2 ^ 31) {w : Window} (h : Stuck nums target w) :
    ∃ w', binarySearch nums target w = some (.next w') ∧ Stuck nums target w' := by
  cases h with
  | @halving j hj hpath hzero =>
      have hne : nums[j / 2] ≠ target := fun hx => hpath 0 <| by
        rw [zero_add, pow_one, List.getElem?_eq_getElem (by omega), hx]
      rcases lt_or_gt_of_ne hne with hx | hx
      · refine ⟨_, (binarySearch_fromZero hn hj).trans (if_pos hx), .beyond hj ?_ hx⟩
        refine Nat.one_le_iff_ne_zero.mpr fun hj0 => ?_
        subst hj0
        exact (hzero rfl).not_gt hx
      · refine ⟨⟨0, (j / 2 : ℕ)⟩, ?_, .halving (by omega) (fun k => ?_) fun hhalf => ?_⟩
        · rw [binarySearch_fromZero hn hj, if_neg hx.not_gt, if_pos hx]
        · rw [Nat.div_div_eq_div_mul, ← pow_succ']
          exact hpath (k + 1)
        · simpa only [hhalf] using hx
  | @beyond j hj hpos hx =>
      refine ⟨_, ?_, .beyond hj hpos hx⟩
      rw [binarySearch_window hn hj (by omega), if_pos hx]

/-- **`BinarySearch`** finds the target, or finds that there is none, exactly when the
answer is on the path of halves; on every other vector in order it never ends. -/
theorem finds_iff_onPath (hn : nums.length < 2 ^ 31) (hsorted : nums.Pairwise (· ≤ ·)) :
    Finds nums target ↔ OnPath nums target := by
  constructor
  · rintro ⟨r, hreturns, -⟩
    by_contra hpath
    simp only [OnPath, not_or, not_exists, not_and, not_lt] at hpath
    obtain ⟨hne, hone, hhalf⟩ := hpath
    have hpos : 0 < nums.length := List.length_pos_iff.mpr hne
    rw [init_eq hn hpos] at hreturns
    refine not_returns (Stuck nums target) (fun _ hw => hw.round hn)
      (.halving (by omega) hhalf fun hlast => ?_) hreturns
    obtain ⟨x, rfl⟩ := List.length_eq_one_iff.mp (show nums.length = 1 by omega)
    refine lt_of_le_of_ne (hone x rfl) fun hx => hhalf 0 ?_
    simpa using hx.symm
  · rintro (rfl | ⟨x, rfl, hx⟩ | ⟨k, hk⟩)
    · refine ⟨-1, ?_, fun hmem => absurd hmem List.not_mem_nil, fun _ => rfl⟩
      rw [init_nil]
      exact (returns_leave (binarySearch_empty (by decide))).mpr rfl
    · have hinit : Window.init [x] = ⟨0, (0 : ℕ)⟩ := init_eq hn (by simp)
      have hright : binarySearch [x] target ⟨0, (0 : ℕ)⟩ = some (.next ⟨1, 0⟩) :=
        (binarySearch_fromZero hn (by simp)).trans (if_pos hx)
      rw [Finds, hinit]
      refine ⟨-1, (returns_next hright).mpr ?_, fun hmem => ?_, fun _ => rfl⟩
      · exact (returns_leave (binarySearch_empty (by decide))).mpr rfl
      · exact absurd (List.mem_singleton.mp hmem) hx.ne'
    · have hpos : 0 < nums.length := (Nat.zero_le _).trans_lt (List.getElem?_eq_some_iff.mp hk).1
      obtain ⟨m, hm, hget⟩ := returns_of_half hn hsorted k (nums.length - 1) (by omega) hk
      refine ⟨m, ?_, fun _ => ⟨m, rfl, hget⟩, fun hmem => ?_⟩
      · rwa [init_eq hn hpos]
      · exact absurd (List.mem_of_getElem? hget) hmem

theorem finds_iff_onPath_three : Finds [1, 2, 3] 1 ↔ OnPath [1, 2, 3] 1 :=
  finds_iff_onPath (by decide) (by decide)

/-- Looking for the last of three elements, the loop stays in the window `[2, 2]`
with its midpoint at `1`. -/
theorem not_finds_last : ([1, 2, 3] : List ℤ).Pairwise (· ≤ ·) ∧ ¬ Finds [1, 2, 3] 3 := by
  refine ⟨by decide, ?_⟩
  rintro ⟨r, hreturns, -⟩
  have hright : binarySearch [1, 2, 3] 3 (.init [1, 2, 3]) = some (.next ⟨2, 2⟩) := by decide
  have hagain : binarySearch [1, 2, 3] 3 ⟨2, 2⟩ = some (.next ⟨2, 2⟩) := by decide
  refine not_returns (· = ⟨2, 2⟩) ?_ rfl ((returns_next hright).mp hreturns)
  rintro w rfl
  exact ⟨_, hagain, rfl⟩

/-! ## `BinarySearchInsertion` -/

/-- What `BinarySearchInsertion` is for: it ends, with the number of elements that are
smaller than the target. -/
def FindsPlace (nums : List ℤ) (target : ℤ) : Prop :=
  Returns (binarySearchInsertion nums target) (.init nums) (nums.countP (· < target))

/-- No element is smaller than the target, or one is, and the length plus one comes
to two when it is halved. -/
def PlaceOnPath (nums : List ℤ) (target : ℤ) : Prop :=
  nums.countP (· < target) = 0 ∨
    nums.countP (· < target) = 1 ∧ ∃ k, (nums.length + 1) / 2 ^ k = 2

/-- The window `[0, a - 2]`; it is empty at one. -/
def Window.before (a : ℕ) : Window := ⟨0, (a : ℤ) - 2⟩

section
variable {a : ℕ}

theorem init_eq_before (hn : nums.length < 2 ^ 31) :
    Window.init nums = .before (nums.length + 1) := by
  rw [Window.init, intOf_of_inInt ⟨by omega, by omega⟩, Window.before]
  congr 1
  omega

theorem binarySearchInsertion_empty {w : Window} (h : w.j < w.i) :
    binarySearchInsertion nums target w = some (.leave w.i) := if_neg (not_le.mpr h)

theorem binarySearchInsertion_before (hn : nums.length < 2 ^ 31)
    (hsorted : nums.Pairwise (· ≤ ·)) (ha : 2 ≤ a) (han : a ≤ nums.length + 1) :
    binarySearchInsertion nums target (.before a) =
      if a / 2 - 1 < nums.countP (· < target) then some (.next ⟨(a / 2 : ℕ), (a - 2 : ℕ)⟩)
      else some (.next (.before (a / 2))) := by
  have hhalf : (a - 2) / 2 = a / 2 - 1 := by omega
  have hwindow : Window.before a = ⟨(0 : ℕ), (a - 2 : ℕ)⟩ := by
    rw [Window.before, Nat.cast_sub ha]
    rfl
  have hplus : (a - 2) / 2 + 1 = a / 2 := by omega
  have hminus : (((a - 2) / 2 : ℕ) : ℤ) - 1 = ((a / 2 : ℕ) : ℤ) - 2 := by omega
  rw [hwindow, binarySearchInsertion_window hn (by omega) (Nat.zero_le _), ← hhalf, hplus, hminus]
  exact if_congr (getElem_lt_iff_lt_countP hsorted (by omega) target) rfl rfl

variable (hn : nums.length < 2 ^ 31) (hsorted : nums.Pairwise (· ≤ ·))
include hn hsorted

theorem returns_zero (hcount : nums.countP (· < target) = 0) :
    ∀ a, 1 ≤ a → a ≤ nums.length + 1 →
      Returns (binarySearchInsertion nums target) (.before a) 0 := by
  intro a
  induction a using Nat.strong_induction_on with
  | _ a ih =>
      intro hpos hle
      rcases hpos.lt_or_eq with htwo | rfl
      · refine (returns_next ?_).mpr (ih (a / 2) (by omega) (by omega) (by omega))
        rw [binarySearchInsertion_before hn hsorted htwo hle, if_neg (by omega)]
      · exact (returns_leave (binarySearchInsertion_empty (by decide))).mpr rfl

theorem returns_one (hcount : nums.countP (· < target) = 1) :
    ∀ k a, a / 2 ^ k = 2 → a ≤ nums.length + 1 →
      Returns (binarySearchInsertion nums target) (.before a) 1 := by
  intro k
  induction k with
  | zero =>
      intro a htwo hle
      obtain rfl : a = 2 := by simpa using htwo
      have hright : binarySearchInsertion nums target (.before 2) = some (.next ⟨1, 0⟩) :=
        (binarySearchInsertion_before hn hsorted (le_refl 2) hle).trans (if_pos (by omega))
      refine (returns_next hright).mpr ?_
      exact (returns_leave (binarySearchInsertion_empty (by decide))).mpr rfl
  | succ k ih =>
      intro a htwo hle
      rw [pow_succ', ← Nat.div_div_eq_div_mul] at htwo
      have hfour : 2 ≤ a / 2 := htwo.ge.trans (Nat.div_le_self _ _)
      refine (returns_next ?_).mpr (ih (a / 2) htwo (by omega))
      rw [binarySearchInsertion_before hn hsorted (by omega) hle, if_neg (by omega)]

end

/-- The windows this loop never leaves. -/
inductive StuckInsertion (nums : List ℤ) (target : ℤ) : Window → Prop
  | halving {a : ℕ} (ha : 3 ≤ a) (han : a ≤ nums.length + 1)
      (hcount : 1 ≤ nums.countP (· < target))
      (hpath : nums.countP (· < target) = 1 → ∀ k, a / 2 ^ k ≠ 2) :
      StuckInsertion nums target (.before a)
  | beyond {j : ℕ} (hj : j < nums.length) (hpos : 1 ≤ j) (hx : nums[j / 2] < target) :
      StuckInsertion nums target ⟨(j / 2 + 1 : ℕ), j⟩

theorem StuckInsertion.round (hn : nums.length < 2 ^ 31) (hsorted : nums.Pairwise (· ≤ ·))
    {w : Window} (h : StuckInsertion nums target w) :
    ∃ w', binarySearchInsertion nums target w = some (.next w') ∧
      StuckInsertion nums target w' := by
  cases h with
  | @halving a ha han hcount hpath =>
      have hround : binarySearchInsertion nums target (.before a) = _ :=
        binarySearchInsertion_before hn hsorted (by omega) han
      by_cases hright : a / 2 - 1 < nums.countP (· < target)
      · refine ⟨_, hround.trans (if_pos hright), ?_⟩
        have hx : nums[(a - 2) / 2] < target :=
          (getElem_lt_iff_lt_countP hsorted (by omega) target).mpr (by omega)
        have hstuck := StuckInsertion.beyond (by omega) (by omega) hx
        rwa [show (a - 2) / 2 + 1 = a / 2 by omega] at hstuck
      · refine ⟨_, hround.trans (if_neg hright), .halving ?_ (by omega) hcount fun hone k => ?_⟩
        · -- two would be on the path, with one smaller element
          have htwo : a / 2 ≠ 2 := fun htwo => hpath (by omega) 1 (by rwa [pow_one])
          omega
        · rw [Nat.div_div_eq_div_mul, ← pow_succ']
          exact hpath hone (k + 1)
  | @beyond j hj hpos hx =>
      refine ⟨_, ?_, .beyond hj hpos hx⟩
      rw [binarySearchInsertion_window hn hj (by omega), if_pos hx]

/-- **`BinarySearchInsertion`** finds the place of the target exactly when that is on the
path of halves; on every other vector in order it never ends. -/
theorem findsPlace_iff_placeOnPath (hn : nums.length < 2 ^ 31)
    (hsorted : nums.Pairwise (· ≤ ·)) : FindsPlace nums target ↔ PlaceOnPath nums target := by
  have hlen : nums.countP (· < target) ≤ nums.length := List.countP_le_length
  rw [FindsPlace, init_eq_before hn]
  constructor
  · intro hreturns
    by_contra hpath
    simp only [PlaceOnPath, not_or, not_and, not_exists] at hpath
    obtain ⟨hsome, hone⟩ := hpath
    refine not_returns (StuckInsertion nums target) (fun _ hw => hw.round hn hsorted)
      (.halving ?_ le_rfl (by omega) hone) hreturns
    have htwo : nums.length + 1 ≠ 2 := fun htwo => hone (by omega) 0 (by rw [htwo]; rfl)
    omega
  · rintro (hcount | ⟨hcount, k, hk⟩)
    · rw [hcount]
      exact returns_zero hn hsorted hcount _ (by omega) le_rfl
    · rw [hcount]
      exact returns_one hn hsorted hcount k _ hk le_rfl

theorem findsPlace_iff_placeOnPath_two : FindsPlace [1, 2] 1 ↔ PlaceOnPath [1, 2] 1 :=
  findsPlace_iff_placeOnPath (by decide) (by decide)

/-- With two elements below the target the loop stays in the window `[1, 1]`. -/
theorem not_findsPlace_two : ([1, 2] : List ℤ).Pairwise (· ≤ ·) ∧ ¬ FindsPlace [1, 2] 3 := by
  refine ⟨by decide, fun hreturns => ?_⟩
  have hright : binarySearchInsertion [1, 2] 3 (.init [1, 2]) = some (.next ⟨1, 1⟩) := by decide
  have hagain : binarySearchInsertion [1, 2] 3 ⟨1, 1⟩ = some (.next ⟨1, 1⟩) := by decide
  refine not_returns (· = ⟨1, 1⟩) ?_ rfl ((returns_next hright).mp hreturns)
  rintro w rfl
  exact ⟨_, hagain, rfl⟩

end LearnCpp.ClassicAlgorithms.BinarySearch
