/-
# `LearnCpp.Lib.Progress` — systems that can always still finish

Safety says what no schedule reaches.  That nothing gets stuck is a statement
about what schedules can be continued to: from every state reached so far, some
continuation finishes.  It excludes deadlocks, and loops that spin on something
that can no longer happen.

Whether a wake-up can get lost only shows if nobody wakes up by accident.  A
system whose schedules contain such accidents is asked to finish by its own
actions:

    CanFinishBy own next Done s   ⟺   some continuation by actions of `own` is Done

A measure proves it.  In every state of the invariant that is not the end, some
own step keeps the invariant and lowers the measure; other steps may raise it.

Some systems finish only as long as certain steps come out well.  When the first
that does not leads into a trap, a set of states that no step leaves and that
has no end in it, then

    some continuation finishes   ⟺   every step so far came out well

Where every step lowers the measure, nothing is left to the schedule: a run takes
no more steps than the measure allows, and it is enough that only the end is stuck.
-/
import LearnCpp.Lib.Schedule

namespace LearnCpp.Lib

variable {σ α : Type} {own : α → Prop} {next : α → σ → Option σ} {Inv Done Trap : σ → Prop}
  {μ : σ → ℕ}

/-- Some continuation finishes. -/
def CanFinish (next : α → σ → Option σ) (Done : σ → Prop) (s : σ) : Prop :=
  ∃ as, Done (schedule next as s)

/-- Some continuation by its own actions finishes. -/
def CanFinishBy (own : α → Prop) (next : α → σ → Option σ) (Done : σ → Prop) (s : σ) : Prop :=
  ∃ as, (∀ a ∈ as, own a) ∧ Done (schedule next as s)

theorem CanFinishBy.canFinish {s : σ} (h : CanFinishBy own next Done s) : CanFinish next Done s := by
  obtain ⟨as, -, hend⟩ := h
  exact ⟨as, hend⟩

/-- Short of the end, some own step of the invariant comes nearer to it. -/
def Progress (own : α → Prop) (next : α → σ → Option σ) (Inv Done : σ → Prop) (μ : σ → ℕ) : Prop :=
  ∀ s, Inv s → ¬ Done s → ∃ a s', own a ∧ next a s = some s' ∧ Inv s' ∧ μ s' < μ s

theorem Progress.finish (h : Progress own next Inv Done μ) (n : ℕ) :
    ∀ s, μ s ≤ n → Inv s →
      ∃ as, as.length ≤ n ∧ (∀ a ∈ as, own a) ∧ Done (schedule next as s) := by
  induction n with
  | zero =>
      intro s hμ hs
      by_cases hdone : Done s
      · exact ⟨[], Nat.le_refl 0, List.forall_mem_nil _, hdone⟩
      · obtain ⟨a, s', -, -, -, hlt⟩ := h s hs hdone
        exact absurd (hlt.trans_le hμ) (Nat.not_lt_zero _)
  | succ n ih =>
      intro s hμ hs
      by_cases hdone : Done s
      · exact ⟨[], Nat.zero_le _, List.forall_mem_nil _, hdone⟩
      · obtain ⟨a, s', hown, hnext, hs', hlt⟩ := h s hs hdone
        obtain ⟨as, hlen, hall, hend⟩ := ih s' (Nat.le_of_lt_succ (hlt.trans_le hμ)) hs'
        refine ⟨a :: as, Nat.succ_le_succ hlen, List.forall_mem_cons.mpr ⟨hown, hall⟩, ?_⟩
        rwa [schedule_cons_of_some hnext]

theorem Progress.canFinishBy (h : Progress own next Inv Done μ) {s : σ} (hs : Inv s) :
    CanFinishBy own next Done s := by
  obtain ⟨as, -, hown, hend⟩ := h.finish (μ s) s (Nat.le_refl _) hs
  exact ⟨as, hown, hend⟩

theorem not_canFinish (hclosed : ∀ a s s', Trap s → next a s = some s' → Trap s')
    (hend : ∀ s, Trap s → ¬ Done s) {s : σ} (hs : Trap s) : ¬ CanFinish next Done s := by
  rintro ⟨as, hdone⟩
  exact hend _ (schedule_rule Trap hs hclosed as) hdone

section
variable {ok : α → σ → Prop} {s₀ : σ} {as : List α} (h0 : Inv s₀)
  (hkeep : ∀ a s s', Inv s → next a s = some s' → ok a s → Inv s')
  (hprogress : Progress own next Inv Done μ)
  (htrap : ∀ a s s', Inv s → next a s = some s' → ¬ ok a s → Trap s')
  (hclosed : ∀ a s s', Trap s → next a s = some s' → Trap s')
  (hend : ∀ s, Trap s → ¬ Done s)
include h0 hkeep hprogress htrap hclosed hend

variable (Trap) in
theorem eachStep_of_canFinish (hfinish : CanFinish next Done (schedule next as s₀)) :
    EachStep next s₀ as ok := by
  have hsafe : ∀ s, Inv s → ¬ Trap s := fun s hs htrapped =>
    not_canFinish hclosed hend htrapped (hprogress.canFinishBy hs).canFinish
  have hfree : ¬ Trap (schedule next as s₀) := fun htrapped =>
    not_canFinish hclosed hend htrapped hfinish
  refine (always_iff Inv h0 hsafe hkeep fun a s s' hs hnext hbad => not_not.mpr ?_).mp
    ((always_iff_last fun a s s' hs hnext => ?_).mpr hfree)
  · exact htrap a s s' hs hnext hbad
  · exact not_not.mpr (hclosed a s s' (not_not.mp hs) hnext)

variable (Trap) in
/-- **What can still finish.**  A system that makes progress as long as its steps come out well,
and is trapped by the first that does not, can finish by its own actions just when all of them did. -/
theorem canFinishBy_iff :
    CanFinishBy own next Done (schedule next as s₀) ↔ EachStep next s₀ as ok := by
  constructor
  · intro hfinish
    exact eachStep_of_canFinish Trap h0 hkeep hprogress htrap hclosed hend hfinish.canFinish
  · intro hok
    exact hprogress.canFinishBy (always_of_eachStep Inv h0 hkeep hok as List.prefix_rfl)

variable (Trap) in
/-- The same where any action may help. -/
theorem canFinish_iff : CanFinish next Done (schedule next as s₀) ↔ EachStep next s₀ as ok := by
  constructor
  · intro hfinish
    exact eachStep_of_canFinish Trap h0 hkeep hprogress htrap hclosed hend hfinish
  · intro hok
    have hinv := always_of_eachStep Inv h0 hkeep hok as List.prefix_rfl
    exact (hprogress.canFinishBy hinv).canFinish

end

/-! ## Systems that finish whatever the schedule -/

/-- How many actions of a schedule can be taken. -/
def taken (next : α → σ → Option σ) : List α → σ → ℕ
  | [], _ => 0
  | a :: as, s =>
      match next a s with
      | none => taken next as s
      | some s' => taken next as s' + 1

/-- Where every step comes nearer to the end, each is paid for. -/
theorem taken_le (hnearer : ∀ a s s', Inv s → next a s = some s' → Inv s' ∧ μ s' < μ s) :
    ∀ (as : List α) {s : σ}, Inv s → taken next as s + μ (schedule next as s) ≤ μ s := by
  intro as
  induction as with
  | nil =>
      intro s _
      exact Nat.le_of_eq (Nat.zero_add _)
  | cons a as ih =>
      intro s hs
      cases hnext : next a s with
      | none =>
          have htail := ih hs
          have hskip : schedule next (a :: as) s = schedule next as s :=
            congrArg (schedule next as) (attempt_of_none hnext)
          rwa [taken, hnext, hskip]
      | some s' =>
          obtain ⟨hs', hlt⟩ := hnearer a s s' hs hnext
          have htail := ih hs'
          rw [taken, hnext, schedule_cons_of_some hnext]
          simp only
          omega

end LearnCpp.Lib
