/-
# `LearnCpp.Concurrency.ParallelDrivers` — two programs that print the same report

`topics/concurrency/parallel_math/main.cpp` and `main2.cpp`: both factor their
arguments side by side, join, then find the common factors of all pairs of
arguments side by side, join, and print these by key.  `main` uses futures, which
it collects in the order of the arguments; `main2` uses threads that write the
maps under a mutex.

The second phase reads the map that the first has built, and `at` would throw on
an argument that is not in it.  None is missing: the first phase has been waited
for, and each map is what the jobs say, in whatever order they were done.  So

    main, main2, any order of steps   ⟹   report args

with the pairs `(a, b)`, `a > b`, in order, each once.
-/
import LearnCpp.Lib.ForkJoin
import LearnCpp.Concurrency.ParallelMath
import Mathlib.Data.Prod.Lex
import Mathlib.Data.List.Sort
import Mathlib.Data.List.Dedup

namespace LearnCpp.Concurrency.ParallelMath

open Lib Lib.ForkJoin

scoped instance linearOrderUInt64 : LinearOrder UInt64 where
  le_refl := UInt64.le_refl
  le_trans := fun _ _ _ => UInt64.le_trans
  le_antisymm := fun _ _ => UInt64.le_antisymm
  le_total := UInt64.le_total
  lt_iff_le_not_ge := fun a b => by
    rw [UInt64.lt_iff_toNat_lt, UInt64.le_iff_toNat_le, UInt64.le_iff_toNat_le]
    omega
  toDecidableLE := fun a b => inferInstance
  toDecidableEq := inferInstance
  toDecidableLT := fun a b => inferInstance

/-- A pair of arguments, in the order of `std::pair`. -/
abbrev Key := UInt64 ×ₗ UInt64

/-- The pairs of arguments, the larger one first. -/
def factorPairs (args : List UInt64) : List Key :=
  args.flatMap fun val1 => (args.filter fun val2 => val1 > val2).map fun val2 => toLex (val1, val2)

/-- A job of the second phase; `none` is the exception that `at` throws. -/
def commonOf (factors : SortedMap UInt64 (List UInt64)) (pair : Key) : Option (List UInt64) := do
  let list1 ← factors.lookup (ofLex pair).1
  let list2 ← factors.lookup (ofLex pair).2
  some (getCommonFactors list1 list2)

/-- The entries printed, in order. -/
def printed (commonFactors : SortedMap Key (List UInt64)) : List (Key × List UInt64) :=
  let keys := (commonFactors.entries.map Prod.fst).mergeSort (· ≤ ·)
  keys.map fun key => (key, (commonFactors.lookup key).getD [])

inductive State where
  /-- From the first worker of `get_factors` to the last that is waited for. -/
  | factoring (p : Phase UInt64 (List UInt64))
  /-- The same for `get_common_factors`. -/
  | pairing (factors : SortedMap UInt64 (List UInt64)) (p : Phase Key (List UInt64))
  | finished (output : List (Key × List UInt64))

inductive Action where
  | factor (a : ForkJoin.Action)
  | makePairs
  | common (a : ForkJoin.Action)
  | print
  deriving DecidableEq

/-- The steps of the main thread and of the workers. -/
def drive (kind : Kind) (args : List UInt64) : Action → State → Option State
  | .factor a, .factoring p =>
      (ForkJoin.next kind args (fun num => some (getFactors num)) a p).map .factoring
  | .makePairs, .factoring p => if Finished args p then some (.pairing p.map {}) else none
  | .common a, .pairing factors p =>
      (ForkJoin.next kind (factorPairs args) (commonOf factors) a p).map (.pairing factors)
  | .print, .pairing _ p =>
      if Finished (factorPairs args) p then some (.finished (printed p.map)) else none
  | _, _ => none

/-- `main.cpp`. -/
def main (args : List UInt64) : Action → State → Option State := drive .async args

/-- `main2.cpp`. -/
def main2 (args : List UInt64) : Action → State → Option State := drive .threads args

def init : State := .factoring {}

/-! ## The report -/

/-- The entry of a pair. -/
def entry (pair : Key) : Key × List UInt64 :=
  (pair, getCommonFactors (getFactors (ofLex pair).1) (getFactors (ofLex pair).2))

/-- All pairs of arguments in order, each once, with their common factors. -/
def report (args : List UInt64) : List (Key × List UInt64) :=
  ((factorPairs args).dedup.mergeSort (· ≤ ·)).map entry

/-- What a report is, entry by entry. -/
structure IsReport (args : List UInt64) (out : List (Key × List UInt64)) : Prop where
  sorted : out.Pairwise fun e e' => e.1 < e'.1
  mem : ∀ a b v, (toLex (a, b), v) ∈ out ↔
    a ∈ args ∧ b ∈ args ∧ b < a ∧ v = getCommonFactors (getFactors a) (getFactors b)

section
variable {args : List UInt64}

theorem mem_factorPairs {pair : Key} :
    pair ∈ factorPairs args ↔
      (ofLex pair).1 ∈ args ∧ (ofLex pair).2 ∈ args ∧ (ofLex pair).2 < (ofLex pair).1 := by
  simp only [factorPairs, List.mem_flatMap, List.mem_map, List.mem_filter, decide_eq_true_eq]
  constructor
  · rintro ⟨val1, h1, val2, ⟨h2, hlt⟩, rfl⟩
    exact ⟨h1, h2, hlt⟩
  · rintro ⟨h1, h2, hlt⟩
    exact ⟨_, h1, _, ⟨h2, hlt⟩, rfl⟩

theorem report_isReport : IsReport args (report args) where
  sorted := by
    have hle := List.pairwise_mergeSort' (· ≤ ·) (factorPairs args).dedup
    have hnodup : ((factorPairs args).dedup.mergeSort (· ≤ ·)).Nodup :=
      (List.mergeSort_perm _ _).nodup_iff.mpr (List.nodup_dedup _)
    refine List.pairwise_map.mpr ?_
    exact (hle.and hnodup).imp fun h => lt_of_le_of_ne h.1 h.2
  mem := fun a b v => by
    rw [report, List.mem_map]
    constructor
    · rintro ⟨pair, hpair, heq⟩
      obtain ⟨rfl, rfl⟩ := Prod.mk.inj heq
      rw [List.mem_mergeSort, List.mem_dedup, mem_factorPairs] at hpair
      exact ⟨hpair.1, hpair.2.1, hpair.2.2, rfl⟩
    · rintro ⟨ha, hb, hlt, rfl⟩
      refine ⟨toLex (a, b), ?_, rfl⟩
      rw [List.mem_mergeSort, List.mem_dedup, mem_factorPairs]
      exact ⟨ha, hb, hlt⟩

theorem IsReport.unique {out out' : List (Key × List UInt64)} (h : IsReport args out)
    (h' : IsReport args out') : out = out' := by
  have hmem : ∀ e, e ∈ out ↔ e ∈ out' := by
    rintro ⟨pair, v⟩
    exact (h.mem (ofLex pair).1 (ofLex pair).2 v).trans (h'.mem (ofLex pair).1 (ofLex pair).2 v).symm
  have hnodup : ∀ {es : List (Key × List UInt64)}, (es.Pairwise fun e e' => e.1 < e'.1) → es.Nodup :=
    fun hes => hes.imp fun hlt heq => hlt.ne (congrArg Prod.fst heq)
  have hperm := (List.perm_ext_iff_of_nodup (hnodup h.sorted) (hnodup h'.sorted)).mpr hmem
  exact hperm.eq_of_pairwise (fun a b _ _ hab hba => absurd (hab.trans hba) (lt_irrefl _))
    h.sorted h'.sorted

theorem printed_eq (m : SortedMap Key (List UInt64)) : printed m = m.entries := by
  have hsorted : (m.entries.map Prod.fst).Pairwise (· ≤ ·) :=
    List.pairwise_map.mpr (m.sorted.imp le_of_lt)
  rw [printed, List.mergeSort_eq_self _ hsorted, List.map_map]
  refine (List.map_congr_left ?_).trans (List.map_id _)
  rintro ⟨pair, v⟩ he
  show (pair, (m.lookup pair).getD []) = (pair, v)
  rw [(m.mem_entries_iff).mp he, Option.getD_some]

end

/-! ## The invariant -/

/-- The first map has the factors of the arguments, and the last one is printed in order. -/
def Inv (kind : Kind) (args : List UInt64) : State → Prop
  | .factoring p => ForkJoin.Inv kind args (fun num => some (getFactors num)) p
  | .pairing factors p =>
      (∀ num, factors.lookup num = if num ∈ args then some (getFactors num) else none) ∧
        ForkJoin.Inv kind (factorPairs args) (commonOf factors) p
  | .finished output => IsReport args output

/-- The steps that have been taken. -/
def State.age (args : List UInt64) : State → ℕ
  | .factoring p => p.age
  | .pairing _ p => 4 * args.length + 1 + p.age
  | .finished _ => 4 * args.length + 1 + (4 * (factorPairs args).length + 1)

section
variable {kind : Kind} {args : List UInt64} {s s' : State}

theorem commonOf_eq {factors : SortedMap UInt64 (List UInt64)}
    (hfactors : ∀ num, factors.lookup num = if num ∈ args then some (getFactors num) else none)
    {pair : Key} (hpair : pair ∈ factorPairs args) :
    commonOf factors pair = some (entry pair).2 := by
  obtain ⟨h1, h2, -⟩ := mem_factorPairs.mp hpair
  rw [commonOf, hfactors, hfactors, if_pos h1, if_pos h2]
  rfl

theorem isReport_printed {factors : SortedMap UInt64 (List UInt64)} {p : Phase Key (List UInt64)}
    (hfactors : ∀ num, factors.lookup num = if num ∈ args then some (getFactors num) else none)
    (h : ForkJoin.Inv kind (factorPairs args) (commonOf factors) p)
    (hfinished : Finished (factorPairs args) p) : IsReport args (printed p.map) where
  sorted := by
    rw [printed_eq]
    exact p.map.sorted
  mem := fun a b v => by
    rw [printed_eq, p.map.mem_entries_iff, h.lookup_of_finished hfinished]
    constructor
    · intro hv
      split at hv
      next hpair =>
        rw [commonOf_eq hfactors hpair] at hv
        obtain ⟨ha, hb, hlt⟩ := mem_factorPairs.mp hpair
        exact ⟨ha, hb, hlt, (Option.some.inj hv).symm⟩
      next => cases hv
    · rintro ⟨ha, hb, hlt, rfl⟩
      have hpair : toLex (a, b) ∈ factorPairs args := mem_factorPairs.mpr ⟨ha, hb, hlt⟩
      rw [if_pos hpair, commonOf_eq hfactors hpair]
      rfl

theorem drive_cases {a : Action} (h : drive kind args a s = some s') :
    (∃ b p p', s = .factoring p ∧ s' = .factoring p' ∧
      ForkJoin.next kind args (fun num => some (getFactors num)) b p = some p') ∨
    (∃ p, s = .factoring p ∧ s' = .pairing p.map {} ∧ Finished args p) ∨
    (∃ b factors p p', s = .pairing factors p ∧ s' = .pairing factors p' ∧
      ForkJoin.next kind (factorPairs args) (commonOf factors) b p = some p') ∨
    ∃ factors p, s = .pairing factors p ∧ s' = .finished (printed p.map) ∧
      Finished (factorPairs args) p := by
  rw [drive.eq_def] at h
  split at h
  next b p =>
    obtain ⟨p', hp', rfl⟩ := Option.map_eq_some_iff.mp h
    exact Or.inl ⟨b, p, p', rfl, rfl, hp'⟩
  next p =>
    split at h
    next hfinished => exact Or.inr (Or.inl ⟨p, rfl, (Option.some.inj h).symm, hfinished⟩)
    next => cases h
  next b factors p =>
    obtain ⟨p', hp', rfl⟩ := Option.map_eq_some_iff.mp h
    exact Or.inr (Or.inr (Or.inl ⟨b, factors, p, p', rfl, rfl, hp'⟩))
  next factors p =>
    split at h
    next hfinished =>
      exact Or.inr (Or.inr (Or.inr ⟨factors, p, rfl, (Option.some.inj h).symm, hfinished⟩))
    next => cases h
  next => cases h

theorem inv_drive (h : Inv kind args s) {a : Action} (hstep : drive kind args a s = some s') :
    Inv kind args s' := by
  obtain ⟨b, p, p', rfl, rfl, hnext⟩ | ⟨p, rfl, rfl, hfinished⟩ |
    ⟨b, factors, p, p', rfl, rfl, hnext⟩ | ⟨factors, p, rfl, rfl, hfinished⟩ := drive_cases hstep
  · exact next_inv h hnext
  · exact ⟨fun num => ForkJoin.Inv.lookup_of_finished h hfinished, init_inv⟩
  · exact ⟨h.1, next_inv h.2 hnext⟩
  · exact isReport_printed h.1 h.2 hfinished

theorem age_drive (h : Inv kind args s) {a : Action} (hstep : drive kind args a s = some s') :
    s.age args < s'.age args := by
  obtain ⟨b, p, p', rfl, rfl, hnext⟩ | ⟨p, rfl, rfl, -⟩ |
    ⟨b, factors, p, p', rfl, rfl, hnext⟩ | ⟨factors, p, rfl, rfl, -⟩ := drive_cases hstep
  · exact age_next hnext
  · have hle : p.age ≤ 4 * args.length := age_le h
    simp only [State.age]
    omega
  · have hlt := age_next hnext
    simp only [State.age]
    omega
  · have hle : p.age ≤ 4 * (factorPairs args).length := age_le h.2
    simp only [State.age]
    omega

theorem age_le_finished (h : Inv kind args s) :
    s.age args ≤ 4 * args.length + 1 + (4 * (factorPairs args).length + 1) := by
  cases s with
  | factoring p =>
      have hle : p.age ≤ 4 * args.length := age_le h
      simp only [State.age]
      omega
  | pairing factors p =>
      have hle : p.age ≤ 4 * (factorPairs args).length := age_le h.2
      simp only [State.age]
      omega
  | finished output => exact le_refl _

theorem exists_drive (h : Inv kind args s) (hs : ∀ output, s ≠ .finished output) :
    ∃ a, (drive kind args a s).isSome := by
  cases s with
  | factoring p =>
      by_cases hfinished : Finished args p
      · exact ⟨.makePairs, by simp [drive, hfinished]⟩
      · obtain ⟨a, ha⟩ := exists_step h (fun _ _ => rfl) hfinished
        exact ⟨.factor a, by simpa [drive] using ha⟩
  | pairing factors p =>
      by_cases hfinished : Finished (factorPairs args) p
      · exact ⟨.print, by simp [drive, hfinished]⟩
      · have hjobs : ∀ pair ∈ factorPairs args, (commonOf factors pair).isSome := by
          intro pair hpair
          rw [commonOf_eq h.1 hpair]
          rfl
        obtain ⟨a, ha⟩ := exists_step h.2 hjobs hfinished
        exact ⟨.common a, by simpa [drive] using ha⟩
  | finished output => exact absurd rfl (hs output)

theorem run_drive {as : List Action} (hrun : run (drive kind args) as init = some s) :
    Inv kind args s ∧ as.length ≤ s.age args := by
  have hinit : Inv kind args init := ForkJoin.init_inv
  refine run_induct (fun pre s => Inv kind args s ∧ pre.length ≤ s.age args)
    ⟨hinit, Nat.zero_le _⟩ ?_ hrun
  rintro pre a s s' ⟨hinv, hlen⟩ hstep
  have hlt := age_drive hinv hstep
  refine ⟨inv_drive hinv hstep, ?_⟩
  rw [List.length_append, List.length_singleton]
  omega

end

/-- **Both programs print the report**, whatever the order of the steps of their
workers: what a run prints is the report, a run that has not printed it can go on,
and no run goes on for ever. -/
theorem prints_report (args : List UInt64) :
    IsReport args (report args) ∧
    ∀ program, program = main args ∨ program = main2 args →
      ∀ as s, run program as init = some s →
        as.length ≤ 4 * args.length + 1 + (4 * (factorPairs args).length + 1) ∧
        (∀ output, s = .finished output → output = report args) ∧
        ((∀ output, s ≠ .finished output) → ∃ a, (program a s).isSome) := by
  have hdrive : ∀ kind as s, run (drive kind args) as init = some s →
      as.length ≤ 4 * args.length + 1 + (4 * (factorPairs args).length + 1) ∧
      (∀ output, s = .finished output → output = report args) ∧
      ((∀ output, s ≠ .finished output) → ∃ a, (drive kind args a s).isSome) := by
    intro kind as s hrun
    obtain ⟨hinv, hlen⟩ := run_drive hrun
    refine ⟨hlen.trans (age_le_finished hinv), ?_, exists_drive hinv⟩
    rintro output rfl
    exact IsReport.unique hinv report_isReport
  refine ⟨report_isReport, ?_⟩
  rintro program (rfl | rfl)
  · exact hdrive .async
  · exact hdrive .threads

end LearnCpp.Concurrency.ParallelMath
