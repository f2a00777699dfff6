/-
# `LearnCpp.ClassicAlgorithms.Sort` — `bubbleSort` and `insertionSort`

`topics/appendix/classic_algorithms/sort.cpp`.  The two loops keep different
parts of the vector in order:

    bubbleSort      a pass carries the larger of two neighbours along and leaves
                    the largest at the end of the segment; a pass without a swap
                    has seen every two neighbours in order
    insertionSort   the elements before `i` are in order, and the larger ones move
                    over the hole that `nums[i]` left

Both end with the one vector in order that permutes the given one.  The
counters are below the length, which the code's own `int` holds.
-/
import LearnCpp.Lib.Run
import LearnCpp.Lib.Vector

namespace LearnCpp.ClassicAlgorithms.Sort

open Lib

/-! ## `bubbleSort` -/

/-- The variables of a pass. -/
structure Bubbling where
  flag : Bool
  nums : List ℤ
deriving DecidableEq

/-- One round of the inner loop. -/
def bubbleStep (j : ℕ) (s : Bubbling) : Option Bubbling :=
  match s.nums[j]?, s.nums[j + 1]? with
  | some x, some y =>
      if y < x then (swap s.nums j (j + 1)).map fun nums => ⟨true, nums⟩
      else some s
  | _, _ => none

/-- A pass over `[0, i]`. -/
def bubblePass (i : ℕ) (nums : List ℤ) : Option Bubbling :=
  run bubbleStep (List.range i) ⟨false, nums⟩

/-- The passes from `i` down, until one makes no swap. -/
def bubbleFrom : ℕ → List ℤ → Option (List ℤ)
  | 0, nums => some nums
  | i + 1, nums =>
      (bubblePass (i + 1) nums).bind fun s => if s.flag then bubbleFrom i s.nums else some s.nums

/-- `i` is converted from `nums.size() - 1`. -/
def bubbleSort (nums : List ℤ) : Option (List ℤ) :=
  bubbleFrom (intOf ((nums.length : ℤ) - 1)).toNat nums

/-- A pass as a function of its segment, `x` being the element carried along. -/
def bubble : ℤ → List ℤ → List ℤ
  | x, [] => [x]
  | x, z :: zs => if z < x then z :: bubble x zs else x :: bubble z zs

theorem exists_bubble : ∀ (x : ℤ) (zs : List ℤ),
    ∃ ws m, bubble x zs = ws ++ [m] ∧ (∀ w ∈ ws, w ≤ m) ∧ x ≤ m ∧ (ws ++ [m]).Perm (x :: zs)
  | x, [] => ⟨[], x, rfl, List.forall_mem_nil _, le_refl x, .refl _⟩
  | x, z :: zs => by
      by_cases hlt : z < x
      · obtain ⟨ws, m, hbubble, hws, hx, hperm⟩ := exists_bubble x zs
        refine ⟨z :: ws, m, ?_, List.forall_mem_cons.mpr ⟨hlt.le.trans hx, hws⟩, hx, ?_⟩
        · rw [bubble, if_pos hlt, hbubble, List.cons_append]
        · exact (hperm.cons z).trans (.swap x z zs)
      · obtain ⟨ws, m, hbubble, hws, hz, hperm⟩ := exists_bubble z zs
        have hx : x ≤ m := (not_lt.mp hlt).trans hz
        refine ⟨x :: ws, m, ?_, List.forall_mem_cons.mpr ⟨hx, hws⟩, hx, hperm.cons x⟩
        rw [bubble, if_neg hlt, hbubble, List.cons_append]

theorem bubbleStep_append (flag : Bool) (pre : List ℤ) (x z : ℤ) (zs : List ℤ) :
    bubbleStep pre.length ⟨flag, pre ++ x :: z :: zs⟩ =
      some (if z < x then ⟨true, pre ++ z :: x :: zs⟩ else ⟨flag, pre ++ x :: z :: zs⟩) := by
  have hx : (pre ++ x :: z :: zs)[pre.length]? = some x := by simp
  have hz : (pre ++ x :: z :: zs)[pre.length + 1]? = some z := by simp
  have hswap : swap (pre ++ x :: z :: zs) pre.length (pre.length + 1) =
      some (pre ++ z :: x :: zs) := by
    simp [swap]
  simp only [bubbleStep, hx, hz, hswap, Option.map_some]
  split <;> rfl

/-- The rounds over a segment: they do to it what `bubble` does, and when no swap was made it
was in order and is as it was. -/
theorem bubble_run (suf : List ℤ) : ∀ (zs pre : List ℤ) (x : ℤ) (flag : Bool),
    ∃ s, run bubbleStep (List.range' pre.length zs.length) ⟨flag, pre ++ x :: (zs ++ suf)⟩ = some s ∧
      s.nums = pre ++ (bubble x zs ++ suf) ∧
      (s.flag = false → flag = false ∧ bubble x zs = x :: zs ∧ (x :: zs).IsChain (· ≤ ·)) := by
  intro zs
  induction zs with
  | nil =>
      intro pre x flag
      exact ⟨_, rfl, rfl, fun hflag => ⟨hflag, rfl, .singleton x⟩⟩
  | cons z zs ih =>
      intro pre x flag
      by_cases hlt : z < x
      · obtain ⟨s, hrun, hnums, hflag⟩ := ih (pre ++ [z]) x true
        refine ⟨s, ?_, ?_, fun hs => absurd (hflag hs).1 Bool.noConfusion⟩
        · rw [List.length_cons, List.range'_succ, run, List.cons_append, bubbleStep_append, if_pos hlt,
            Option.bind_some]
          simpa using hrun
        · rw [hnums, bubble, if_pos hlt]
          simp
      · obtain ⟨s, hrun, hnums, hflag⟩ := ih (pre ++ [x]) z flag
        refine ⟨s, ?_, ?_, fun hs => ?_⟩
        · rw [List.length_cons, List.range'_succ, run, List.cons_append, bubbleStep_append, if_neg hlt,
            Option.bind_some]
          simpa using hrun
        · rw [hnums, bubble, if_neg hlt]
          simp
        · obtain ⟨hfalse, hbubble, hchain⟩ := hflag hs
          refine ⟨hfalse, ?_, .cons_cons (not_lt.mp hlt) hchain⟩
          rw [bubble, if_neg hlt, hbubble]

theorem bubbleFrom_append : ∀ (i : ℕ) (seg suf : List ℤ), seg.length = i + 1 →
    ∃ out, bubbleFrom i (seg ++ suf) = some (out ++ suf) ∧ out.Perm seg ∧ out.Pairwise (· ≤ ·) := by
  intro i
  induction i with
  | zero =>
      intro seg suf hlen
      obtain ⟨x, rfl⟩ := List.length_eq_one_iff.mp hlen
      exact ⟨[x], rfl, .refl _, List.pairwise_singleton _ _⟩
  | succ i ih =>
      intro seg suf hlen
      obtain ⟨x, zs, rfl⟩ := List.exists_cons_of_length_eq_add_one hlen
      obtain ⟨⟨flag, nums⟩, hrun, hnums, hflag⟩ := bubble_run suf zs [] x false
      obtain ⟨ws, m, hbubble, hws, -, hperm⟩ := exists_bubble x zs
      have hzs : zs.length = i + 1 := by simpa using hlen
      have hpass : bubblePass (i + 1) (x :: zs ++ suf) = some ⟨flag, nums⟩ := by
        rw [bubblePass, List.range_eq_range', ← hzs]
        exact hrun
      rw [bubbleFrom, hpass, Option.bind_some]
      cases flag with
      | true =>
          have hwslen : ws.length = i + 1 := by
            have hlen' := hperm.length_eq
            rw [List.length_append, List.length_singleton] at hlen'
            omega
          obtain ⟨out, hout, hperm', hsorted⟩ := ih ws ([m] ++ suf) hwslen
          refine ⟨out ++ [m], ?_, (hperm'.append_right [m]).trans hperm, ?_⟩
          · rw [if_pos rfl, hnums, List.nil_append, hbubble, List.append_assoc, hout,
              List.append_assoc]
          · refine List.pairwise_append.mpr ⟨hsorted, List.pairwise_singleton _ _, fun a ha b hb => ?_⟩
            rw [List.mem_singleton.mp hb]
            exact hws a (hperm'.mem_iff.mp ha)
      | false =>
          obtain ⟨-, hsame, hchain⟩ := hflag rfl
          refine ⟨x :: zs, ?_, .refl _, List.isChain_iff_pairwise.mp hchain⟩
          rw [if_neg Bool.false_ne_true, hnums, List.nil_append, hsame]

theorem bubbleSort_spec {nums : List ℤ} (hn : nums.length < 2 ^ 31) :
    ∃ out, bubbleSort nums = some out ∧ out.Perm nums ∧ out.Pairwise (· ≤ ·) := by
  rcases eq_or_ne nums [] with rfl | hne
  · exact ⟨[], rfl, .refl _, .nil⟩
  · have hpos : 0 < nums.length := List.length_pos_iff.mpr hne
    obtain ⟨out, hout, hperm, hsorted⟩ := bubbleFrom_append (nums.length - 1) nums [] (by omega)
    refine ⟨out, ?_, hperm, hsorted⟩
    rw [List.append_nil, List.append_nil] at hout
    rw [bubbleSort, intOf_of_inInt ⟨by omega, by omega⟩, ← hout]
    congr 1
    omega

/-! ## `insertionSort` -/

/-- The inner loop, for `k = j + 1`: larger elements move one place up.  Where the hole is
at the end, and the vector. -/
def shift (base : ℤ) : ℕ → List ℤ → Option (ℕ × List ℤ)
  | 0, nums => some (0, nums)
  | k + 1, nums =>
      match nums[k]? with
      | none => none
      | some x =>
          if base < x then (assign nums (k + 1) x).bind (shift base k)
          else some (k + 1, nums)

/-- One round of the outer loop. -/
def insertStep (i : ℕ) (nums : List ℤ) : Option (List ℤ) :=
  match nums[i]? with
  | none => none
  | some base => (shift base i nums).bind fun s => assign s.2 s.1 base

def insertionSort (nums : List ℤ) : Option (List ℤ) :=
  run insertStep (List.range' 1 (nums.length - 1)) nums

/-- The hole goes down to where the elements before it are not larger, and what it passed is
larger. -/
theorem shift_append (base : ℤ) : ∀ (pre : List ℤ), pre.Pairwise (· ≤ ·) → ∀ (hole : ℤ) (suf : List ℤ),
    ∃ lo hi hole', shift base pre.length (pre ++ hole :: suf) =
        some (lo.length, lo ++ hole' :: (hi ++ suf)) ∧
      pre = lo ++ hi ∧ (∀ x ∈ lo, x ≤ base) ∧ ∀ x ∈ hi, base < x := by
  intro pre
  induction pre using List.reverseRecOn with
  | nil =>
      intro _ hole suf
      exact ⟨[], [], hole, rfl, rfl, List.forall_mem_nil _, List.forall_mem_nil _⟩
  | append_singleton pre x ih =>
      intro hsorted hole suf
      obtain ⟨hpre, -, hx⟩ := List.pairwise_append.mp hsorted
      have hget : (pre ++ [x] ++ hole :: suf)[pre.length]? = some x := by simp
      rw [List.length_append, List.length_singleton, shift, hget]
      by_cases hlt : base < x
      · have hassign : assign (pre ++ [x] ++ hole :: suf) (pre.length + 1) x =
            some (pre ++ x :: x :: suf) := by
          rw [assign_of_lt (by simp)]
          simp
        obtain ⟨lo, hi, hole', hshift, rfl, hlo, hhi⟩ := ih hpre x (x :: suf)
        refine ⟨lo, hi ++ [x], hole', ?_, (List.append_assoc ..), hlo, fun y hy => ?_⟩
        · simp only [if_pos hlt]
          rw [hassign, Option.bind_some, hshift, List.append_assoc, List.singleton_append]
        · rcases List.mem_append.mp hy with hy | hy
          · exact hhi y hy
          · exact List.mem_singleton.mp hy ▸ hlt
      · refine ⟨pre ++ [x], [], hole, ?_, (List.append_nil _).symm, fun y hy => ?_, List.forall_mem_nil _⟩
        · simp only [if_neg hlt, List.length_append, List.length_singleton, List.nil_append]
        · have hxb : x ≤ base := not_lt.mp hlt
          rcases List.mem_append.mp hy with hy | hy
          · exact (hx y hy x List.mem_cons_self).trans hxb
          · exact List.mem_singleton.mp hy ▸ hxb

theorem insertStep_append {pre : List ℤ} (hsorted : pre.Pairwise (· ≤ ·)) (base : ℤ) (suf : List ℤ) :
    ∃ pre', insertStep pre.length (pre ++ base :: suf) = some (pre' ++ suf) ∧
      pre'.Perm (pre ++ [base]) ∧ pre'.Pairwise (· ≤ ·) := by
  obtain ⟨lo, hi, hole, hshift, rfl, hlo, hhi⟩ := shift_append base pre hsorted base suf
  have hget : (lo ++ hi ++ base :: suf)[(lo ++ hi).length]? = some base := by simp
  refine ⟨lo ++ base :: hi, ?_, ?_, ?_⟩
  · rw [insertStep, hget]
    simp only [hshift, Option.bind_some]
    rw [assign_of_lt (by simp)]
    simp
  · rw [List.append_assoc]
    exact (List.perm_append_singleton base hi).symm.append_left lo
  · obtain ⟨hlosorted, hhisorted, hcross⟩ := List.pairwise_append.mp hsorted
    refine List.pairwise_append.mpr ⟨hlosorted, ?_, fun a ha b hb => ?_⟩
    · exact List.pairwise_cons.mpr ⟨fun y hy => (hhi y hy).le, hhisorted⟩
    · rcases List.mem_cons.mp hb with rfl | hb
      · exact hlo a ha
      · exact hcross a ha b hb

/-- What holds after `t` rounds: the first `t + 1` elements are in order. -/
def FrontSorted (nums : List ℤ) (t : ℕ) (s : List ℤ) : Prop :=
  ∃ pre, s = pre ++ nums.drop (t + 1) ∧ pre.Perm (nums.take (t + 1)) ∧ pre.Pairwise (· ≤ ·)

theorem frontSorted_zero (nums : List ℤ) : FrontSorted nums 0 nums := by
  refine ⟨nums.take 1, (List.take_append_drop 1 nums).symm, .refl _, ?_⟩
  cases nums with
  | nil => exact .nil
  | cons x nums => exact List.pairwise_singleton _ _

theorem FrontSorted.step {nums s : List ℤ} {t : ℕ} (h : FrontSorted nums t s)
    (ht : t < nums.length - 1) : ∃ s', insertStep (1 + t) s = some s' ∧ FrontSorted nums (t + 1) s' := by
  obtain ⟨pre, rfl, hperm, hsorted⟩ := h
  have hlt : t + 1 < nums.length := by omega
  have hlen : pre.length = 1 + t := by
    rw [hperm.length_eq, List.length_take]
    omega
  obtain ⟨pre', hstep, hperm', hsorted'⟩ :=
    insertStep_append hsorted nums[t + 1] (nums.drop (t + 2))
  refine ⟨pre' ++ nums.drop (t + 2), ?_, pre', rfl, hperm'.trans ?_, hsorted'⟩
  · rw [List.drop_eq_getElem_cons hlt, ← hlen]
    exact hstep
  · rw [List.take_succ_eq_append_getElem hlt]
    exact hperm.append_right _

theorem insertionSort_spec (nums : List ℤ) :
    ∃ out, insertionSort nums = some out ∧ out.Perm nums ∧ out.Pairwise (· ≤ ·) := by
  obtain ⟨_, hrun, out, rfl, hperm, hsorted⟩ :=
    run_range' (FrontSorted nums) (frontSorted_zero nums) 1 fun _ _ ht h => h.step ht
  rw [List.drop_eq_nil_of_le (by omega), List.append_nil] at hrun
  rw [List.take_of_length_le (by omega)] at hperm
  exact ⟨out, hrun, hperm, hsorted⟩

/-- **`bubbleSort` and `insertionSort`** end, with every index in range, and leave the one
vector in order that permutes the given one. -/
theorem bubbleSort_eq_insertionSort {nums : List ℤ} (hn : nums.length < 2 ^ 31) :
    ∃ out, bubbleSort nums = some out ∧ insertionSort nums = some out ∧
      out.Pairwise (· ≤ ·) ∧ out.Perm nums := by
  obtain ⟨out, hbubble, hperm, hsorted⟩ := bubbleSort_spec hn
  obtain ⟨out', hinsertion, hperm', hsorted'⟩ := insertionSort_spec nums
  obtain rfl : out = out' := 
    (hperm.trans hperm'.symm).eq_of_pairwise (fun _ _ _ _ => le_antisymm) hsorted hsorted'
  exact ⟨out, hbubble, hinsertion, hsorted, hperm⟩

theorem bubbleSort_eq_insertionSort_four :
    ∃ out, bubbleSort [3, 1, 2, 1] = some out ∧ insertionSort [3, 1, 2, 1] = some out ∧
      out.Pairwise (· ≤ ·) ∧ out.Perm [3, 1, 2, 1] :=
  bubbleSort_eq_insertionSort (by decide)

end LearnCpp.ClassicAlgorithms.Sort
