/-
# `LearnCpp.Io.TokenBucket` — a rate limiter that never lends

`topics/io/rate_limiter_token_bucket.cpp`, in exact arithmetic: `K` is any
ordered ring, and a clock time is the number of seconds as an element of `K`.
The mutex makes the calls of all threads one sequence, and the clock is read
under it, so the times of a sequence do not decrease.

A refill caps the bucket at `capacity`, so it loses tokens and never makes any.
What a stretch of calls has taken is therefore paid for by what the bucket held
before it and by the time that passed:

    tokens after  +  calls accepted   ≤   tokens before  +  rate · time passed

The bucket holds at most the burst after the refill of the first call of the
stretch, and that is the bound on every stretch.
-/
import LearnCpp.Lib.Run
import Mathlib.Algebra.Order.Ring.Defs
import Mathlib.Tactic.Linarith
import Mathlib.Tactic.Ring
import Mathlib.Tactic.NormNum
import Mathlib.Data.Rat.Defs
import Mathlib.Algebra.Order.Field.Rat

namespace LearnCpp.Io

open Lib

structure TokenBucket (K : Type) where
  rate : K
  capacity : K
  tokens : K
  lastRefill : K

namespace TokenBucket

variable {K : Type} [CommRing K] [LinearOrder K]

/-- The constructor, at the clock time `now`. -/
def new (ratePerSec burstSize now : K) : TokenBucket K where
  rate := ratePerSec
  capacity := burstSize
  tokens := burstSize
  lastRefill := now

/-- `refill`, at the clock time `t`. -/
def refill (t : K) (b : TokenBucket K) : TokenBucket K :=
  { b with tokens := min b.capacity (b.tokens + (t - b.lastRefill) * b.rate), lastRefill := t }

/-- `try_consume`, at the clock time `t`, with its result. -/
def tryConsume (t : K) (b : TokenBucket K) : Bool × TokenBucket K :=
  if 1 ≤ (b.refill t).tokens then
    (true, { b.refill t with tokens := (b.refill t).tokens - 1 })
  else (false, b.refill t)

/-- The bucket after calls at the times `ts`. -/
def after (b : TokenBucket K) (ts : List K) : TokenBucket K :=
  exec (fun t b => (b.tryConsume t).2) ts b

/-- What the calls at the times `ts` return. -/
def results (b : TokenBucket K) : List K → List Bool
  | [] => []
  | t :: ts => (b.tryConsume t).1 :: results (b.tryConsume t).2 ts

/-- The number of calls among `i..j` that were accepted. -/
def accepted (rs : List Bool) (i j : ℕ) : ℕ := ((rs.drop i).take (j + 1 - i)).count true

section
variable {b : TokenBucket K} {t : K} {ts : List K}

@[simp] theorem after_nil : b.after [] = b := rfl

@[simp] theorem after_cons : b.after (t :: ts) = (b.tryConsume t).2.after ts := rfl

theorem after_append (us : List K) : b.after (ts ++ us) = (b.after ts).after us :=
  List.foldl_append

@[simp] theorem refill_lastRefill : (b.refill t).lastRefill = t := rfl

@[simp] theorem refill_capacity : (b.refill t).capacity = b.capacity := rfl

@[simp] theorem refill_rate : (b.refill t).rate = b.rate := rfl

theorem refill_le_capacity : (b.refill t).tokens ≤ b.capacity := min_le_left _ _

theorem tryConsume_cases :
    (1 ≤ (b.refill t).tokens ∧
      b.tryConsume t = (true, { b.refill t with tokens := (b.refill t).tokens - 1 })) ∨
    ((b.refill t).tokens < 1 ∧ b.tryConsume t = (false, b.refill t)) := by
  rcases le_or_gt 1 (b.refill t).tokens with hle | hlt
  · exact Or.inl ⟨hle, if_pos hle⟩
  · exact Or.inr ⟨hlt, if_neg hlt.not_ge⟩

@[simp] theorem tryConsume_lastRefill : (b.tryConsume t).2.lastRefill = t := by
  obtain ⟨_, h⟩ | ⟨_, h⟩ := tryConsume_cases (b := b) (t := t) <;> rw [h, refill_lastRefill]

@[simp] theorem tryConsume_capacity : (b.tryConsume t).2.capacity = b.capacity := by
  obtain ⟨_, h⟩ | ⟨_, h⟩ := tryConsume_cases (b := b) (t := t) <;> rw [h, refill_capacity]

@[simp] theorem tryConsume_rate : (b.tryConsume t).2.rate = b.rate := by
  obtain ⟨_, h⟩ | ⟨_, h⟩ := tryConsume_cases (b := b) (t := t) <;> rw [h, refill_rate]

@[simp] theorem after_rate : (b.after ts).rate = b.rate := by
  induction ts generalizing b with
  | nil => rfl
  | cons t ts ih => rw [after_cons, ih, tryConsume_rate]

@[simp] theorem after_capacity : (b.after ts).capacity = b.capacity := by
  induction ts generalizing b with
  | nil => rfl
  | cons t ts ih => rw [after_cons, ih, tryConsume_capacity]

theorem after_concat_lastRefill : (b.after (ts ++ [t])).lastRefill = t := by
  rw [after_append, after_cons, after_nil, tryConsume_lastRefill]

theorem results_drop (i : ℕ) :
    (b.results ts).drop i = (b.after (ts.take i)).results (ts.drop i) := by
  induction ts generalizing b i with
  | nil => simp [results]
  | cons t ts ih =>
      cases i with
      | zero => rfl
      | succ i => exact ih i

theorem results_take (n : ℕ) : (b.results ts).take n = b.results (ts.take n) := by
  induction ts generalizing b n with
  | nil => simp [results]
  | cons t ts ih =>
      cases n with
      | zero => rfl
      | succ n => exact congrArg ((b.tryConsume t).1 :: ·) (ih n)

theorem accepted_results (i j : ℕ) :
    accepted (b.results ts) i j =
      ((b.after (ts.take i)).results ((ts.drop i).take (j + 1 - i))).count true := by
  rw [accepted, results_drop, results_take]

omit [LinearOrder K] in
theorem count_cons_cast (r : Bool) (rs : List Bool) :
    (((r :: rs).count true : ℕ) : K) = (if r then 1 else 0) + (rs.count true : ℕ) := by
  cases r with
  | false => simp
  | true => simp [add_comm]

end

/-! ## The invariant -/

/-- The bucket holds between nothing and its capacity. -/
structure Inv (b : TokenBucket K) : Prop where
  rate : 0 ≤ b.rate
  nonneg : 0 ≤ b.tokens
  capped : b.tokens ≤ b.capacity

variable [IsStrictOrderedRing K]

section
variable {b : TokenBucket K} {t : K}

omit [IsStrictOrderedRing K] in
theorem Inv.new {rate burst now : K} (hrate : 0 ≤ rate) (hburst : 0 ≤ burst) :
    Inv (TokenBucket.new rate burst now) where
  rate := hrate
  nonneg := hburst
  capped := le_refl burst

theorem Inv.refill (h : Inv b) (ht : b.lastRefill ≤ t) : Inv (b.refill t) where
  rate := h.rate
  nonneg := by
    have hmade : 0 ≤ (t - b.lastRefill) * b.rate := mul_nonneg (sub_nonneg.mpr ht) h.rate
    exact le_min (h.nonneg.trans h.capped) (add_nonneg h.nonneg hmade)
  capped := refill_le_capacity

theorem Inv.tryConsume (h : Inv b) (ht : b.lastRefill ≤ t) : Inv (b.tryConsume t).2 := by
  have hr := h.refill ht
  obtain ⟨hle, heq⟩ | ⟨_, heq⟩ := tryConsume_cases (b := b) (t := t)
  · rw [heq]
    refine ⟨hr.rate, sub_nonneg.mpr hle, ?_⟩
    show (b.refill t).tokens - 1 ≤ b.capacity
    have := hr.capped
    rw [refill_capacity] at this
    linarith
  · rw [heq]
    exact hr

/-- A call pays for what it takes out of what the bucket held and what the time
since the last refill has made. -/
theorem tryConsume_account :
    (b.tryConsume t).2.tokens + (if (b.tryConsume t).1 then 1 else 0) ≤
      b.tokens + b.rate * (t - b.lastRefill) := by
  have hrefill : (b.refill t).tokens ≤ b.tokens + (t - b.lastRefill) * b.rate := min_le_right _ _
  obtain ⟨_, heq⟩ | ⟨_, heq⟩ := tryConsume_cases (b := b) (t := t)
  · rw [heq]
    show (b.refill t).tokens - 1 + 1 ≤ b.tokens + b.rate * (t - b.lastRefill)
    linarith
  · rw [heq]
    show (b.refill t).tokens + 0 ≤ b.tokens + b.rate * (t - b.lastRefill)
    linarith

theorem tryConsume_account_capacity :
    (b.tryConsume t).2.tokens + (if (b.tryConsume t).1 then 1 else 0) ≤ b.capacity := by
  have hrefill : (b.refill t).tokens ≤ b.capacity := refill_le_capacity
  obtain ⟨_, heq⟩ | ⟨_, heq⟩ := tryConsume_cases (b := b) (t := t)
  · rw [heq]
    show (b.refill t).tokens - 1 + 1 ≤ b.capacity
    linarith
  · rw [heq]
    show (b.refill t).tokens + 0 ≤ b.capacity
    linarith

end

/-! ## Along a run -/

section
variable {b : TokenBucket K} {t : K} {ts : List K}

/-- The clock does not go back, neither before the calls nor between them. -/
def Clock (b : TokenBucket K) (ts : List K) : Prop :=
  (b.lastRefill :: ts).Pairwise (· ≤ ·)

omit [IsStrictOrderedRing K] in
theorem clock_cons : Clock b (t :: ts) ↔ b.lastRefill ≤ t ∧ Clock (b.tryConsume t).2 ts := by
  rw [Clock, Clock, tryConsume_lastRefill]
  constructor
  · intro h
    obtain ⟨hle, hts⟩ := List.pairwise_cons.mp h
    exact ⟨hle t List.mem_cons_self, hts⟩
  · rintro ⟨hle, hts⟩
    refine List.pairwise_cons.mpr ⟨fun u hu => ?_, hts⟩
    rcases List.mem_cons.mp hu with rfl | hu
    · exact hle
    · exact hle.trans (List.rel_of_pairwise_cons hts hu)

theorem Inv.after (h : Inv b) (hclock : Clock b ts) : Inv (b.after ts) := by
  induction ts generalizing b with
  | nil => exact h
  | cons t ts ih =>
      obtain ⟨ht, hts⟩ := clock_cons.mp hclock
      exact ih (h.tryConsume ht) hts

omit [IsStrictOrderedRing K] in
theorem Clock.after (us : List K) (h : Clock b (ts ++ us)) : Clock (b.after ts) us := by
  induction ts generalizing b with
  | nil => exact h
  | cons t ts ih => exact ih (clock_cons.mp h).2

theorem account (b : TokenBucket K) (ts : List K) :
    (b.after ts).tokens + ((b.results ts).count true : ℕ) ≤
      b.tokens + b.rate * ((b.after ts).lastRefill - b.lastRefill) := by
  induction ts generalizing b with
  | nil => simp [results]
  | cons t ts ih =>
      have hcall := tryConsume_account (b := b) (t := t)
      have hrest := ih (b.tryConsume t).2
      rw [tryConsume_rate, tryConsume_lastRefill] at hrest
      rw [after_cons, results, count_cons_cast]
      linarith

/-- A stretch of calls takes no more than the capacity and what comes between its
first and its last call. -/
theorem account_stretch (b : TokenBucket K) (t : K) (ts : List K) :
    (b.after (t :: ts)).tokens + ((b.results (t :: ts)).count true : ℕ) ≤
      b.capacity + b.rate * ((b.after (t :: ts)).lastRefill - t) := by
  have hcall := tryConsume_account_capacity (b := b) (t := t)
  have hrest := account (b.tryConsume t).2 ts
  rw [tryConsume_rate, tryConsume_lastRefill] at hrest
  rw [after_cons, results, count_cons_cast]
  linarith

end

/-! ## Conformance -/

section
variable {b : TokenBucket K} {ts : List K}

theorem accepted_le (h : Inv b) (hclock : Clock b ts) {i j : ℕ} (hij : i ≤ j) (hj : j < ts.length) :
    (accepted (b.results ts) i j : K) ≤ b.capacity + b.rate * (ts[j] - ts[i]) := by
  -- the stretch, by its first call
  have hfirst : (ts.drop i).take (j + 1 - i) = ts[i] :: (ts.drop (i + 1)).take (j - i) := by
    rw [List.drop_eq_getElem_cons (hij.trans_lt hj), show j + 1 - i = j - i + 1 by omega,
      List.take_succ_cons]
  -- and by its last
  have hlast : (ts.drop i).take (j + 1 - i) = (ts.drop i).take (j - i) ++ [ts[j]] := by
    have hget := List.take_append_getElem (l := ts.drop i) (i := j - i)
      (by rw [List.length_drop]; omega)
    rw [show j + 1 - i = j - i + 1 by omega, ← hget, List.getElem_drop]
    simp only [Nat.add_sub_cancel' hij]
  have hclock' : Clock (b.after (ts.take i)) (ts.drop i) := Clock.after _ (by rwa [List.take_append_drop])
  have hstretch : Clock (b.after (ts.take i)) ((ts.drop i).take (j + 1 - i)) :=
    hclock'.sublist ((List.take_sublist _ _).cons_cons _)
  have hbefore : Inv (b.after (ts.take i)) :=
    h.after (hclock.sublist ((List.take_sublist _ _).cons_cons _))
  have hnonneg := (hbefore.after hstretch).nonneg
  have haccount := account_stretch (b.after (ts.take i)) ts[i] ((ts.drop (i + 1)).take (j - i))
  rw [← hfirst, after_capacity, after_rate] at haccount
  have hend : ((b.after (ts.take i)).after ((ts.drop i).take (j + 1 - i))).lastRefill = ts[j] := by
    rw [hlast, after_concat_lastRefill]
  rw [hend] at haccount
  rw [accepted_results]
  linarith

end

/-- **The bucket conforms**: of the calls `i..j` no more are accepted than the
burst and what the rate gives between them, and after every call the bucket
holds between nothing and its capacity. -/
theorem conforms {rate burst start : K} (hrate : 0 ≤ rate) (hburst : 0 ≤ burst) {ts : List K}
    (hclock : (start :: ts).Pairwise (· ≤ ·)) :
    (∀ i j, (hij : i ≤ j) → (hj : j < ts.length) →
      (accepted ((new rate burst start).results ts) i j : K) ≤ burst + rate * (ts[j] - ts[i])) ∧
    ∀ pre, pre <+: ts → 0 ≤ ((new rate burst start).after pre).tokens ∧
      ((new rate burst start).after pre).tokens ≤ ((new rate burst start).after pre).capacity := by
  have hnew : Inv (new rate burst start) := Inv.new hrate hburst
  refine ⟨fun i j hij hj => accepted_le hnew hclock hij hj, fun pre hpre => ?_⟩
  have hclock' : Clock (new rate burst start) pre := hclock.sublist (hpre.sublist.cons_cons _)
  have hinv := hnew.after hclock'
  exact ⟨hinv.nonneg, hinv.capped⟩

/-- Two tokens each second and bursts of one: the call at 1/4 comes too early. -/
theorem conforms_quarter :
    ((accepted ((new (2 : ℚ) 1 0).results [0, 1/4, 1/2]) 0 2 : ℕ) : ℚ) ≤ 1 + 2 * (1/2 - 0) ∧
      (new (2 : ℚ) 1 0).results [0, 1/4, 1/2] = [true, false, true] := by
  have hclock : ((0 : ℚ) :: [0, 1/4, 1/2]).Pairwise (· ≤ ·) := by norm_num
  have h := conforms (by norm_num : (0 : ℚ) ≤ 2) (by norm_num : (0 : ℚ) ≤ 1) hclock
  refine ⟨h.1 0 2 (by norm_num) (by norm_num), ?_⟩
  norm_num [results, tryConsume, refill, new]

/-! ## Without the calls that were rejected

A rejected call refills and takes nothing, and the refill of a later call makes up for it.
A run without such calls falls behind the run with them, and is level again after every call
that both make. -/

/-- The elements of a list that are marked to be kept. -/
def kept {α : Type} (keep : List Bool) (xs : List α) : List α :=
  ((keep.zip xs).filter Prod.fst).map Prod.snd

@[simp] theorem kept_nil {α : Type} (keep : List Bool) : kept keep ([] : List α) = [] := by
  rw [kept, List.zip_nil_right]
  rfl

@[simp] theorem kept_true {α : Type} {keep : List Bool} {x : α} {xs : List α} :
    kept (true :: keep) (x :: xs) = x :: kept keep xs := rfl

@[simp] theorem kept_false {α : Type} {keep : List Bool} {x : α} {xs : List α} :
    kept (false :: keep) (x :: xs) = kept keep xs := rfl

/-- Every call that is not kept returned false. -/
def OnlyRejected (keep rs : List Bool) : Prop := ∀ p ∈ keep.zip rs, p.1 = true ∨ p.2 = false

/-- A bucket that is as the other one when it is refilled at the other's time. -/
structure Behind (late b : TokenBucket K) : Prop where
  rate : 0 ≤ b.rate
  le : late.lastRefill ≤ b.lastRefill
  refill : late.refill b.lastRefill = b

section
variable {b late : TokenBucket K} {t u : K}

theorem refill_refill (hrate : 0 ≤ b.rate) (htu : t ≤ u) : (b.refill t).refill u = b.refill u := by
  have hmade : 0 ≤ (u - t) * b.rate := mul_nonneg (sub_nonneg.mpr htu) hrate
  have hsplit : b.tokens + (t - b.lastRefill) * b.rate + (u - t) * b.rate =
      b.tokens + (u - b.lastRefill) * b.rate := by ring
  have htokens : min b.capacity (min b.capacity (b.tokens + (t - b.lastRefill) * b.rate) +
      (u - t) * b.rate) = min b.capacity (b.tokens + (u - b.lastRefill) * b.rate) := by
    rw [min_add, hsplit, ← min_assoc, min_eq_left (le_add_of_nonneg_right hmade)]
  simp only [TokenBucket.refill, htokens]

theorem tryConsume_behind (hrate : 0 ≤ b.rate) :
    Behind (b.tryConsume t).2 (b.tryConsume t).2 where
  rate := by rwa [tryConsume_rate]
  le := le_refl _
  refill := by
    have hcapped : (b.tryConsume t).2.tokens ≤ (b.tryConsume t).2.capacity := by
      have haccount := tryConsume_account_capacity (b := b) (t := t)
      rw [tryConsume_capacity]
      split at haccount <;> linarith
    rw [TokenBucket.refill, sub_self, zero_mul, add_zero, min_eq_right hcapped]

omit [IsStrictOrderedRing K] in
theorem Behind.late_rate (h : Behind late b) : 0 ≤ late.rate := by
  have hsame : (late.refill b.lastRefill).rate = b.rate := congrArg TokenBucket.rate h.refill
  rw [refill_rate] at hsame
  exact hsame ▸ h.rate

theorem Behind.tryConsume (h : Behind late b) (ht : b.lastRefill ≤ t) :
    late.tryConsume t = b.tryConsume t := by
  have hrefill : late.refill t = b.refill t := by
    rw [← refill_refill h.late_rate ht, h.refill]
  rw [TokenBucket.tryConsume, TokenBucket.tryConsume, hrefill]

/-- A rejected call that is left out lets the bucket fall behind. -/
theorem Behind.skip (h : Behind late b) (ht : b.lastRefill ≤ t) (hrejected : (b.tryConsume t).1 = false) :
    Behind late (b.tryConsume t).2 := by
  have hcall : b.tryConsume t = (false, b.refill t) := by
    obtain ⟨_, heq⟩ | ⟨_, heq⟩ := tryConsume_cases (b := b) (t := t)
    · rw [heq] at hrejected
      cases hrejected
    · exact heq
  rw [hcall]
  refine ⟨h.rate, h.le.trans ht, ?_⟩
  rw [refill_lastRefill, ← refill_refill h.late_rate ht, h.refill]

end

section
variable {b late : TokenBucket K} {ts : List K} {keep : List Bool}

theorem Behind.run (h : Behind late b) (hclock : Clock b ts) (hlength : keep.length = ts.length)
    (honly : OnlyRejected keep (b.results ts)) :
    late.results (kept keep ts) = kept keep (b.results ts) ∧
      (keep.getLast? = some true → late.after (kept keep ts) = b.after ts) := by
  induction ts generalizing b late keep with
  | nil =>
      obtain rfl := List.eq_nil_of_length_eq_zero hlength
      refine ⟨rfl, fun hlast => ?_⟩
      cases hlast
  | cons t ts ih =>
      obtain ⟨k, keep, rfl⟩ := List.exists_cons_of_length_eq_add_one hlength
      obtain ⟨ht, hts⟩ := clock_cons.mp hclock
      obtain ⟨hfirst, hrest⟩ := List.forall_mem_cons.mp honly
      rw [List.length_cons, List.length_cons, Nat.succ_inj] at hlength
      cases k with
      | true =>
          obtain ⟨hresults, hlevel⟩ := ih (tryConsume_behind h.rate) hts hlength hrest
          rw [kept_true, results, results, kept_true, after_cons, after_cons, h.tryConsume ht]
          refine ⟨congrArg _ hresults, fun hlast => ?_⟩
          cases keep with
          | nil =>
              obtain rfl := List.eq_nil_of_length_eq_zero hlength.symm
              rfl
          | cons k' keep => exact hlevel (List.getLast?_cons_cons ▸ hlast)
      | false =>
          have hrejected : (b.tryConsume t).1 = false := hfirst.resolve_left Bool.false_ne_true
          obtain ⟨hresults, hlevel⟩ := ih (h.skip ht hrejected) hts hlength hrest
          rw [kept_false, results, kept_false, after_cons]
          refine ⟨hresults, fun hlast => ?_⟩
          cases keep with
          | nil => cases hlast
          | cons k' keep => exact hlevel (List.getLast?_cons_cons ▸ hlast)

end

/-- **Rejected requests are free**: without any calls that returned false the others return
what they did, and the bucket holds what it did after each that is still made. -/
theorem rejected_free {rate burst start : K} (hrate : 0 ≤ rate) {ts : List K}
    (hclock : (start :: ts).Pairwise (· ≤ ·)) {keep : List Bool} (hlength : keep.length = ts.length)
    (honly : OnlyRejected keep ((new rate burst start).results ts)) :
    (new rate burst start).results (kept keep ts) = kept keep ((new rate burst start).results ts) ∧
      (keep.getLast? = some true →
        ((new rate burst start).after (kept keep ts)).tokens =
          ((new rate burst start).after ts).tokens) := by
  have hnew : Behind (new rate burst start) (new rate burst start) := by
    refine ⟨hrate, le_refl _, ?_⟩
    rw [TokenBucket.refill, sub_self, zero_mul, add_zero]
    exact congrArg (fun tokens => { new rate burst start with tokens := tokens }) (min_self burst)
  obtain ⟨hresults, hlevel⟩ := hnew.run hclock hlength honly
  exact ⟨hresults, fun hlast => congrArg TokenBucket.tokens (hlevel hlast)⟩

/-- The call at 1/4 is rejected, and the one at 1/2 does not miss it. -/
theorem rejected_free_quarter :
    (new (2 : ℚ) 1 0).results (kept [true, false, true] [0, 1/4, 1/2]) =
        kept [true, false, true] ((new (2 : ℚ) 1 0).results [0, 1/4, 1/2]) ∧
      ([true, false, true].getLast? = some true →
        ((new (2 : ℚ) 1 0).after (kept [true, false, true] [0, 1/4, 1/2])).tokens =
          ((new (2 : ℚ) 1 0).after [0, 1/4, 1/2]).tokens) := by
  have hresults : (new (2 : ℚ) 1 0).results [0, 1/4, 1/2] = [true, false, true] := by
    norm_num [results, TokenBucket.tryConsume, TokenBucket.refill, new]
  refine rejected_free (by norm_num) (by norm_num) rfl ?_
  rw [hresults]
  intro p hp
  simp only [List.zip_cons_cons, List.zip_nil_right, List.mem_cons, List.not_mem_nil, or_false] at hp
  rcases hp with rfl | rfl | rfl <;> simp

end TokenBucket

end LearnCpp.Io
