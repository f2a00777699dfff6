/-
# `LearnCpp.ClassicAlgorithms.TwoSum` — the two indices of a sum

`topics/appendix/classic_algorithms/search.cpp`, `twoSumHashTable`.  One pass
over the vector keeps, for every value met, the first index it was met at.  The
first element whose difference to the target was met before ends it.

`emplace` does nothing for a key that is there, so the index kept is the first;
and an element enters the table only after its own difference was looked up, so
that an element is never paired with itself.

The length is converted to `int`: from `2³¹` elements on it may come out
negative, and then nothing is looked at.
-/
import Mathlib.Data.Nat.Find
import LearnCpp.Lib.Vector

namespace LearnCpp.ClassicAlgorithms.TwoSum

open Lib

/-- `unordered_map<int, int>`. -/
abbrev Dict := ℤ → Option ℕ

/-- `emplace` keeps the value of a key that is there. -/
def Dict.emplace (dict : Dict) (key : ℤ) (i : ℕ) : Dict := fun v =>
  if v = key then some ((dict key).getD i) else dict v

/-- The last `k` rounds of the loop, from the index `i` on. -/
def twoSumFrom (nums : List ℤ) (target : ℤ) : ℕ → ℕ → Dict → Option (List ℕ)
  | 0, _, _ => some []
  | k + 1, i, dict =>
      match nums[i]? with
      | none => none
      | some x =>
          (checked (target - x)).bind fun diff =>
            match dict diff with
            | some l => some [l, i]
            | none => twoSumFrom nums target k (i + 1) (dict.emplace x i)

/-- `size` is converted from `nums.size()`. -/
def twoSumHashTable (nums : List ℤ) (target : ℤ) : Option (List ℕ) :=
  twoSumFrom nums target (intOf nums.length).toNat 0 fun _ => none

/-- `nums[i]` and `nums[j]` are a pair for the target. -/
def IsPair (nums : List ℤ) (target : ℤ) (i j : ℕ) : Prop :=
  i < j ∧ ∃ x y, nums[i]? = some x ∧ nums[j]? = some y ∧ x + y = target

/-- The pair whose second index is the smallest, and then its first. -/
structure FirstPair (nums : List ℤ) (target : ℤ) (i j : ℕ) : Prop where
  isPair : IsPair nums target i j
  snd_le : ∀ i' j', IsPair nums target i' j' → j ≤ j'
  fst_le : ∀ i', IsPair nums target i' j → i ≤ i'

variable {nums : List ℤ} {target : ℤ} {dict : Dict} {i j : ℕ}

/-! ## What the table holds -/

/-- The table holds the first index of every value before `i`. -/
def Holds (nums : List ℤ) (i : ℕ) (dict : Dict) : Prop :=
  ∀ v l, dict v = some l ↔ l < i ∧ nums[l]? = some v ∧ ∀ l' < l, nums[l']? ≠ some v

theorem holds_zero : Holds nums 0 fun _ => none := by
  intro v l
  simp

theorem Holds.exists (h : Holds nums i dict) {v : ℤ} {l : ℕ} (hl : l < i) (hv : nums[l]? = some v) :
    ∃ l', dict v = some l' := by
  have hsome : ∃ l, nums[l]? = some v := ⟨l, hv⟩
  refine ⟨Nat.find hsome, (h v _).mpr ⟨?_, Nat.find_spec hsome, fun l' hl' => Nat.find_min hsome hl'⟩⟩
  exact (Nat.find_min' hsome hv).trans_lt hl

theorem Holds.emplace (h : Holds nums i dict) {x : ℤ} (hx : nums[i]? = some x) :
    Holds nums (i + 1) (dict.emplace x i) := by
  intro v l
  by_cases hv : v = x
  · subst hv
    rw [Dict.emplace, if_pos rfl, Option.some.injEq]
    cases hdict : dict v with
    | some l₀ =>
        obtain ⟨hl₀, hget, hfirst⟩ := (h v l₀).mp hdict
        rw [Option.getD_some]
        constructor
        · rintro rfl
          exact ⟨Nat.lt_succ_of_lt hl₀, hget, hfirst⟩
        · rintro ⟨-, hget', hfirst'⟩
          refine le_antisymm (not_lt.mp fun hlt => hfirst l hlt hget') ?_
          exact not_lt.mp fun hlt => hfirst' l₀ hlt hget
    | none =>
        have hnew : ∀ l' < i, nums[l']? ≠ some v := fun l' hl' hget => by
          obtain ⟨l₀, hl₀⟩ := h.exists hl' hget
          rw [hdict] at hl₀
          cases hl₀
        rw [Option.getD_none]
        constructor
        · rintro rfl
          exact ⟨Nat.lt_succ_self _, hx, hnew⟩
        · rintro ⟨hl, hget, -⟩
          refine le_antisymm (not_lt.mp fun hlt => hnew l hlt hget) (Nat.lt_succ_iff.mp hl)
  · rw [Dict.emplace, if_neg hv, h v l]
    refine and_congr_left fun ⟨hget, _⟩ => ⟨Nat.lt_succ_of_lt, fun hl => ?_⟩
    refine lt_of_le_of_ne (Nat.lt_succ_iff.mp hl) fun hli => hv ?_
    rw [hli, hx] at hget
    exact (Option.some.inj hget).symm

/-! ## The loop -/

/-- The last rounds, with every pair that ends before `i` ruled out: they find the first pair,
or there is none. -/
theorem twoSumFrom_spec (hdiff : ∀ x ∈ nums, InInt (target - x)) :
    ∀ (k i : ℕ) (dict : Dict), i + k = nums.length → Holds nums i dict →
      (∀ i' j', IsPair nums target i' j' → i ≤ j') →
      (twoSumFrom nums target k i dict = some [] ∧ ∀ i' j', ¬ IsPair nums target i' j') ∨
        ∃ l j, twoSumFrom nums target k i dict = some [l, j] ∧ FirstPair nums target l j := by
  intro k
  induction k with
  | zero =>
      intro i dict hlen _ hnone
      refine .inl ⟨rfl, fun i' j' hpair => ?_⟩
      have hle : i ≤ j' := hnone i' j' hpair
      obtain ⟨-, x, y, -, hy, -⟩ := hpair
      have hj' : j' < nums.length := (List.getElem?_eq_some_iff.mp hy).1
      omega
  | succ k ih =>
      intro i dict hlen hholds hnone
      have hi : i < nums.length := by omega
      have hx : nums[i]? = some nums[i] := List.getElem?_eq_getElem hi
      rw [twoSumFrom, hx]
      simp only [checked_of_inInt (hdiff _ (List.getElem_mem hi)), Option.bind_some]
      cases hdict : dict (target - nums[i]) with
      | some l =>
          obtain ⟨hl, hget, hfirst⟩ := (hholds _ l).mp hdict
          refine .inr ⟨l, i, rfl, ⟨hl, _, _, hget, hx, sub_add_cancel _ _⟩, hnone, fun i' hpair => ?_⟩
          obtain ⟨-, x, y, hx', hy, hsum⟩ := hpair
          rw [hx, Option.some.injEq] at hy
          refine not_lt.mp fun hlt => hfirst i' hlt ?_
          rw [hx', hy, ← hsum, add_sub_cancel_right]
      | none =>
          refine ih (i + 1) (dict.emplace nums[i] i) (by omega) (hholds.emplace hx) fun i' j' hpair => ?_
          refine lt_of_le_of_ne (hnone i' j' hpair) fun hij => ?_
          -- a pair that ends at `i` has its first element in the table
          obtain ⟨hlt, x, y, hx', hy, hsum⟩ := hpair
          rw [← hij, hx, Option.some.injEq] at hy
          obtain ⟨l', hl'⟩ := hholds.exists (hij ▸ hlt) hx'
          rw [eq_sub_of_add_eq hsum, ← hy, hdict] at hl'
          cases hl'

theorem twoSumHashTable_spec (hn : nums.length < 2 ^ 31)
    (hdiff : ∀ x ∈ nums, InInt (target - x)) :
    (twoSumHashTable nums target = some [] ∧ ∀ i' j', ¬ IsPair nums target i' j') ∨
      ∃ i j, twoSumHashTable nums target = some [i, j] ∧ FirstPair nums target i j := by
  rw [twoSumHashTable, intOf_length hn, Int.toNat_natCast]
  exact twoSumFrom_spec hdiff nums.length 0 _ (Nat.zero_add _) holds_zero fun _ _ _ => Nat.zero_le _

/-- **`twoSumHashTable`** returns nothing exactly when there is no pair for the target, and
otherwise the first pair. -/
theorem twoSumHashTable_firstPair (hn : nums.length < 2 ^ 31)
    (hdiff : ∀ x ∈ nums, InInt (target - x)) :
    (twoSumHashTable nums target = some [] ↔ ¬ ∃ i j, IsPair nums target i j) ∧
      ((∃ i j, IsPair nums target i j) →
        ∃ i j, twoSumHashTable nums target = some [i, j] ∧ FirstPair nums target i j) := by
  rcases twoSumHashTable_spec hn hdiff with ⟨hempty, hnone⟩ | ⟨i, j, hrun, hfirst⟩
  · refine ⟨⟨?_, fun _ => hempty⟩, ?_⟩
    · rintro - ⟨i, j, hpair⟩
      exact hnone i j hpair
    · rintro ⟨i, j, hpair⟩
      exact absurd hpair (hnone i j)
  · refine ⟨⟨fun hempty => ?_, fun hnone => absurd ⟨i, j, hfirst.isPair⟩ hnone⟩, fun _ => ⟨i, j, hrun, hfirst⟩⟩
    rw [hrun] at hempty
    simp at hempty

theorem twoSumHashTable_firstPair_equal :
    (twoSumHashTable [3, 4, 3, 3] 6 = some [] ↔ ¬ ∃ i j, IsPair [3, 4, 3, 3] 6 i j) ∧
      ((∃ i j, IsPair [3, 4, 3, 3] 6 i j) →
        ∃ i j, twoSumHashTable [3, 4, 3, 3] 6 = some [i, j] ∧ FirstPair [3, 4, 3, 3] 6 i j) :=
  twoSumHashTable_firstPair (by decide) (by decide)

/-- With `2³¹` elements the loop makes no round. -/
theorem twoSumHashTable_too_long :
    (∀ x ∈ List.replicate (2 ^ 31) (0 : ℤ), InInt (0 - x)) ∧
      twoSumHashTable (List.replicate (2 ^ 31) 0) 0 = some [] ∧
      IsPair (List.replicate (2 ^ 31) 0) 0 0 1 := by
  refine ⟨fun x hx => ?_, ?_, Nat.zero_lt_one, 0, 0, ?_, ?_, rfl⟩
  · rw [List.eq_of_mem_replicate hx]
    decide
  · have hsize : intOf ((2 ^ 31 : ℕ) : ℤ) = -2 ^ 31 := by decide
    rw [twoSumHashTable, List.length_replicate, hsize]
    rfl
  · exact List.getElem?_replicate_of_lt (by decide)
  · exact List.getElem?_replicate_of_lt (by decide)

end LearnCpp.ClassicAlgorithms.TwoSum
