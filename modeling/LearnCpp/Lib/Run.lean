/-
# `LearnCpp.Lib.Run` — runs of a step function, and the run rules

A component is driven by a list of inputs.  `exec` runs a total step function
over it, `run` a partial one: `none` means that some step never returns, or
leaves the memory it owns, and nothing is claimed of the inputs after it.

Everything proved of runs elsewhere goes through two rules.  Both carry an
invariant that may mention the inputs consumed so far, and both only ask for
the step at inputs the run really reaches:

    exec_rule    Inv [] s₀,  one step keeps Inv   ⟹   Inv at every prefix
    run_rule     the same, and the run is defined at every prefix

`foldl_bind_refines` is the third: a loop over records in a partial store,
seen through an abstraction of the store.  `run_range'` is the rule
for a loop that counts.
-/
import Mathlib.Data.List.Basic
import Mathlib.Data.List.Infix
import Mathlib.Tactic.Common

namespace LearnCpp.Lib

section
variable {σ α : Type}

/-- Run a total step function over a list of inputs. -/
def exec (step : α → σ → σ) (as : List α) (s : σ) : σ :=
  as.foldl (fun s a => step a s) s

@[simp] theorem exec_concat (step : α → σ → σ) (as : List α) (a : α) (s : σ) :
    exec step (as ++ [a]) s = step a (exec step as s) := by
  simp [exec]

/-- Run a partial step function over a list of inputs. -/
def run (step : α → σ → Option σ) : List α → σ → Option σ
  | [], s => some s
  | a :: as, s => (step a s).bind (run step as)

theorem run_append (step : α → σ → Option σ) :
    ∀ (as bs : List α) (s : σ), run step (as ++ bs) s = (run step as s).bind (run step bs)
  | [], _, _ => rfl
  | a :: as, bs, s => by
      simp only [List.cons_append, run, Option.bind_assoc]
      congr 1
      funext s'
      exact run_append step as bs s'

@[simp] theorem run_concat (step : α → σ → Option σ) (as : List α) (a : α) (s : σ) :
    run step (as ++ [a]) s = (run step as s).bind (step a) := by
  rw [run_append]
  congr 1
  funext s'
  simp [run]

/-! ## The run rules -/

theorem isPrefix_of_concat {as bs : List α} {a : α} (h : as ++ [a] <+: bs) : as <+: bs :=
  (List.prefix_append as [a]).trans h

theorem forall_isPrefix_concat {as : List α} {p : List α → α → Prop} :
    (∀ pre a, pre ++ [a] <+: as → p pre a) ↔ ∀ i, (h : i < as.length) → p (as.take i) as[i] := by
  constructor
  · intro hall i hi
    refine hall _ _ ?_
    rw [List.take_append_getElem hi]
    exact List.take_prefix ..
  · rintro hall pre a ⟨post, rfl⟩
    simpa using hall pre.length (by simp)

/-- The run rule for total steps: an invariant over the inputs consumed so far
and the state holds at every prefix. -/
theorem exec_rule (Inv : List α → σ → Prop) {step : α → σ → σ} {as : List α} {s₀ : σ}
    (h0 : Inv [] s₀)
    (hstep : ∀ pre a, pre ++ [a] <+: as → Inv pre (exec step pre s₀) →
      Inv (pre ++ [a]) (step a (exec step pre s₀))) :
    ∀ pre, pre <+: as → Inv pre (exec step pre s₀) := by
  intro pre
  induction pre using List.reverseRecOn with
  | nil => intro _; exact h0
  | append_singleton pre a ih =>
      intro hp
      rw [exec_concat]
      exact hstep pre a hp (ih (isPrefix_of_concat hp))

theorem exec_rule_of (Inv : σ → Prop) {step : α → σ → σ} {as : List α} {s₀ : σ} {p : α → Prop}
    (hp : ∀ a ∈ as, p a) (h0 : Inv s₀) (hstep : ∀ a s, p a → Inv s → Inv (step a s)) :
    Inv (exec step as s₀) := by
  refine exec_rule (fun _ => Inv) h0 (fun pre a hpre hs => hstep a _ (hp a ?_) hs) as
    (List.prefix_refl as)
  exact hpre.subset (List.mem_append_right pre (List.mem_singleton_self a))

/-- The run rule for partial steps: the run is defined at every prefix, and the
invariant holds there. -/
theorem run_rule (Inv : List α → σ → Prop) {step : α → σ → Option σ} {as : List α} {s₀ : σ}
    (h0 : Inv [] s₀)
    (hstep : ∀ pre a s, pre ++ [a] <+: as → Inv pre s →
      ∃ s', step a s = some s' ∧ Inv (pre ++ [a]) s') :
    ∀ pre, pre <+: as → ∃ s, run step pre s₀ = some s ∧ Inv pre s := by
  intro pre
  induction pre using List.reverseRecOn with
  | nil => intro _; exact ⟨s₀, rfl, h0⟩
  | append_singleton pre a ih =>
      intro hp
      obtain ⟨s, hrun, hinv⟩ := ih (isPrefix_of_concat hp)
      obtain ⟨s', hs', hinv'⟩ := hstep pre a s hp hinv
      exact ⟨s', by rw [run_concat, hrun]; exact hs', hinv'⟩

/-- The rule for runs that are known to be defined: an invariant over the inputs
consumed so far and the state holds at their end. -/
theorem run_induct (Inv : List α → σ → Prop) {step : α → σ → Option σ} {s₀ : σ} (h0 : Inv [] s₀)
    (hstep : ∀ pre a s s', Inv pre s → step a s = some s' → Inv (pre ++ [a]) s') :
    ∀ {as s}, run step as s₀ = some s → Inv as s := by
  intro as
  induction as using List.reverseRecOn with
  | nil =>
      intro s hrun
      cases hrun
      exact h0
  | append_singleton pre a ih =>
      intro s' hrun
      rw [run_concat] at hrun
      obtain ⟨s, hs, hs'⟩ := Option.bind_eq_some_iff.mp hrun
      exact hstep pre a s s' (ih hs) hs'

end

/-! ## Counting loops -/

section
variable {σ : Type} (Inv : ℕ → σ → Prop) {step : ℕ → σ → Option σ} {s₀ : σ} (h0 : Inv 0 s₀)
include h0

theorem run_range' (a : ℕ) : ∀ {n : ℕ},
    (∀ t s, t < n → Inv t s → ∃ s', step (a + t) s = some s' ∧ Inv (t + 1) s') →
      ∃ s, run step (List.range' a n) s₀ = some s ∧ Inv n s := by
  intro n
  induction n with
  | zero =>
      intro _
      exact ⟨s₀, rfl, h0⟩
  | succ n ih =>
      intro hstep
      obtain ⟨s, hrun, hinv⟩ := ih fun t s ht => hstep t s (Nat.lt_succ_of_lt ht)
      obtain ⟨s', hs', hinv'⟩ := hstep n s (Nat.lt_succ_self n) hinv
      refine ⟨s', ?_, hinv'⟩
      rw [List.range'_concat, Nat.one_mul, run_concat, hrun]
      exact hs'

omit h0 in
theorem run_range_eq (f : ℕ → σ) {n : ℕ} (hstep : ∀ t, t < n → step t (f t) = some (f (t + 1))) :
    run step (List.range n) (f 0) = some (f n) := by
  have hrun : ∃ s, run step (List.range' 0 n) (f 0) = some s ∧ s = f n := by
    refine run_range' (fun t s => s = f t) rfl 0 ?_
    rintro t _ ht rfl
    rw [Nat.zero_add]
    exact ⟨_, hstep t ht, rfl⟩
  obtain ⟨s, hrun, rfl⟩ := hrun
  rw [List.range_eq_range', hrun]

end

/-! ## A loop over records, seen through an abstraction -/

/-- A loop whose body is partial on the store `σ`, seen through `view : σ → μ`:
when each round is defined, keeps the invariant and acts on the view as `g`, the
whole loop is defined and acts on the view as the fold of `g`. -/
theorem foldl_bind_refines {σ ρ μ : Type} (Inv : σ → Prop) (view : σ → μ) (g : ρ → μ → μ)
    {f : ρ → σ → Option σ} :
    ∀ (rs : List ρ),
      (∀ r ∈ rs, ∀ s, Inv s → ∃ s', f r s = some s' ∧ Inv s' ∧ view s' = g r (view s)) →
      ∀ (s : σ), Inv s →
        ∃ s', rs.foldl (fun o r => o.bind (f r)) (some s) = some s' ∧ Inv s' ∧
          view s' = rs.foldl (fun m r => g r m) (view s)
  | [], _, s, hs => ⟨s, rfl, hs, rfl⟩
  | r :: rs, hf, s, hs => by
      obtain ⟨s₁, h₁, hinv₁, hview₁⟩ := hf r List.mem_cons_self s hs
      obtain ⟨s', h', hinv', hview'⟩ :=
        foldl_bind_refines Inv view g rs (fun r' hr' => hf r' (List.mem_cons_of_mem _ hr')) s₁ hinv₁
      refine ⟨s', ?_, hinv', ?_⟩
      · simpa [h₁] using h'
      · simpa [hview₁] using hview'

end LearnCpp.Lib
