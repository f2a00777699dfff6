/-
# `LearnCpp.Lib.Schedule` — interleavings of threads, and what holds along them

Threads that run next to each other are one system: its state has the shared
memory and the place of each thread in its program, and an action is one step of
one thread.  `next` says what an action does, or `none` where the thread is not
at such a step.  Every interleaving is a list of actions, a schedule; actions
that cannot be taken are skipped, so every list is one.

Properties of all reachable states go through `schedule_rule`: an invariant that
each step keeps.  A system may be right only as long as its steps are taken at
the right time (`ok`).  When a step at the wrong time breaks the property at
once, `always_iff` says so exactly:

    the property holds all along a schedule   ⟺   every step of it is ok

What a state records of the past is tied to the schedule by its `trace`: what
the actions say that were taken, each in the state in which it was.  A record to
which every step adds what its action says is the trace (`record_eq_trace`), and
one that is brought up to date with it in another way replays it (`replay_of_inv`).
-/
import LearnCpp.Lib.Run

namespace LearnCpp.Lib

variable {σ α : Type}

/-- Take an action, if it can be taken. -/
def attempt (next : α → σ → Option σ) (a : α) (s : σ) : σ := (next a s).getD s

/-- The state after a schedule. -/
def schedule (next : α → σ → Option σ) (as : List α) (s : σ) : σ := exec (attempt next) as s

/-- A property of all states along a schedule. -/
def Always (next : α → σ → Option σ) (s₀ : σ) (as : List α) (P : σ → Prop) : Prop :=
  ∀ pre, pre <+: as → P (schedule next pre s₀)

/-- Every action of a schedule that can be taken is taken in a state that suits it. -/
def EachStep (next : α → σ → Option σ) (s₀ : σ) (as : List α) (ok : α → σ → Prop) : Prop :=
  ∀ pre a, pre ++ [a] <+: as → (next a (schedule next pre s₀)).isSome → ok a (schedule next pre s₀)

/-- What the actions of a schedule say that are taken, one after the other. -/
def trace {β : Type} (next : α → σ → Option σ) (say : α → σ → List β) : List α → σ → List β
  | [], _ => []
  | a :: as, s =>
      match next a s with
      | none => trace next say as s
      | some s' => say a s ++ trace next say as s'

section
variable {next : α → σ → Option σ} {s₀ : σ} {as : List α}

@[simp] theorem schedule_nil : schedule next [] s₀ = s₀ := rfl

@[simp] theorem schedule_concat (a : α) :
    schedule next (as ++ [a]) s₀ = attempt next a (schedule next as s₀) :=
  exec_concat ..

theorem schedule_append (bs : List α) :
    schedule next (as ++ bs) s₀ = schedule next bs (schedule next as s₀) :=
  List.foldl_append

theorem attempt_of_some {a : α} {s s' : σ} (h : next a s = some s') : attempt next a s = s' := by
  rw [attempt, h, Option.getD_some]

theorem attempt_of_none {a : α} {s : σ} (h : next a s = none) : attempt next a s = s := by
  rw [attempt, h, Option.getD_none]

theorem schedule_cons_of_some {a : α} {s s' : σ} (h : next a s = some s') :
    schedule next (a :: as) s = schedule next as s' :=
  congrArg (schedule next as) (attempt_of_some h)

theorem schedule_map {τ : Type} {next' : α → τ → Option τ} (f : σ → τ)
    (hstep : ∀ a s, (next a s).map f = next' a (f s)) :
    ∀ (as : List α) (s : σ), f (schedule next as s) = schedule next' as (f s) := by
  intro as
  induction as with
  | nil => exact fun _ => rfl
  | cons a as ih =>
      intro s
      have hattempt : f (attempt next a s) = attempt next' a (f s) := by
        rw [attempt, attempt, ← hstep]
        cases next a s <;> rfl
      refine (ih (attempt next a s)).trans ?_
      rw [hattempt]
      rfl

theorem attempt_keeps {Inv : σ → Prop} {a : α} {s : σ} (hs : Inv s)
    (hstep : ∀ s', next a s = some s' → Inv s') : Inv (attempt next a s) := by
  cases hnext : next a s with
  | none => rwa [attempt_of_none hnext]
  | some s' =>
      rw [attempt_of_some hnext]
      exact hstep s' hnext

/-- The rule for invariants: what every step keeps holds in every reachable state. -/
theorem schedule_rule (Inv : σ → Prop) (h0 : Inv s₀)
    (hstep : ∀ a s s', Inv s → next a s = some s' → Inv s') (as : List α) :
    Inv (schedule next as s₀) :=
  exec_rule (fun _ => Inv) h0 (fun _ a _ hs => attempt_keeps hs fun s' => hstep a _ s' hs)
    as (List.prefix_refl as)

theorem schedule_rule_of (Inv : σ → Prop) {p : α → Prop} (hp : ∀ a ∈ as, p a) (h0 : Inv s₀)
    (hstep : ∀ a s s', p a → Inv s → next a s = some s' → Inv s') : Inv (schedule next as s₀) :=
  exec_rule_of Inv hp h0 fun a s ha hs => attempt_keeps hs fun s' => hstep a s s' ha hs

/-- The rule for records: an invariant, and a record that each step brings up to date with
what it says. -/
theorem replay_of_inv (Inv : σ → Prop) {β τ : Type} (record : σ → τ) (say : α → σ → List β)
    (upd : τ → β → τ)
    (hstep : ∀ a s s', Inv s → next a s = some s' →
      Inv s' ∧ record s' = (say a s).foldl upd (record s)) :
    ∀ (as : List α) {s : σ}, Inv s →
      record (schedule next as s) = (trace next say as s).foldl upd (record s) := by
  intro as
  induction as with
  | nil => exact fun _ => rfl
  | cons a as ih =>
      intro s hs
      cases hnext : next a s with
      | none =>
          have hskip : schedule next (a :: as) s = schedule next as s :=
            congrArg (schedule next as) (attempt_of_none hnext)
          rw [trace, hnext, hskip]
          exact ih hs
      | some s' =>
          obtain ⟨hs', hsay⟩ := hstep a s s' hs hnext
          rw [trace, hnext, schedule_cons_of_some hnext, ih hs', hsay, List.foldl_append]

/-- The same for a record to which each step adds what it says. -/
theorem record_of_inv (Inv : σ → Prop) {β : Type} (record : σ → List β) (say : α → σ → List β)
    (hstep : ∀ a s s', Inv s → next a s = some s' → Inv s' ∧ record s' = record s ++ say a s)
    (as : List α) {s : σ} (hs : Inv s) :
    record (schedule next as s) = record s ++ trace next say as s := by
  have hadd : ∀ xs ys : List β, ys.foldl (fun xs y => xs ++ [y]) xs = xs ++ ys := by
    intro xs ys
    rw [List.foldl_append_eq_append, ← List.flatMap_def, List.flatMap_singleton']
  rw [← hadd]
  refine replay_of_inv Inv record say _ (fun a s s' hs hnext => ?_) as hs
  rw [hadd]
  exact hstep a s s' hs hnext

theorem record_eq_trace {β : Type} (record : σ → List β) (say : α → σ → List β) (s₀ : σ)
    (h0 : record s₀ = [])
    (hstep : ∀ a s s', next a s = some s' → record s' = record s ++ say a s) (as : List α) :
    record (schedule next as s₀) = trace next say as s₀ := by
  have hrecord := record_of_inv (fun _ => True) record say
    (fun a s s' _ hnext => ⟨trivial, hstep a s s' hnext⟩) as (s := s₀) trivial
  rwa [h0, List.nil_append] at hrecord

/-- The rule for invariants that only steps at the right time keep. -/
theorem always_of_eachStep (Inv : σ → Prop) {ok : α → σ → Prop} (h0 : Inv s₀)
    (hstep : ∀ a s s', Inv s → next a s = some s' → ok a s → Inv s')
    (hok : EachStep next s₀ as ok) : Always next s₀ as Inv := by
  refine exec_rule (fun _ => Inv) h0 fun pre a hp hs => attempt_keeps hs fun s' hnext => ?_
  exact hstep a _ s' hs hnext (hok pre a hp (Option.isSome_of_mem hnext))

/-- **When a step at the wrong time breaks the property at once**, the property
holds all along a schedule just when there is no such step. -/
theorem always_iff (Inv : σ → Prop) {P : σ → Prop} {ok : α → σ → Prop} (h0 : Inv s₀)
    (hsafe : ∀ s, Inv s → P s)
    (hkeep : ∀ a s s', Inv s → next a s = some s' → ok a s → Inv s')
    (hbreak : ∀ a s s', Inv s → next a s = some s' → ¬ ok a s → ¬ P s') :
    Always next s₀ as P ↔ EachStep next s₀ as ok := by
  constructor
  · intro hP
    -- up to the first step at the wrong time, the invariant holds
    have hinv : ∀ pre, pre <+: as → Inv (schedule next pre s₀) ∧
        EachStep next s₀ pre ok := by
      intro pre
      induction pre using List.reverseRecOn with
      | nil =>
          intro _
          refine ⟨h0, fun pre a hp => absurd hp.length_le ?_⟩
          simp
      | append_singleton pre a ih =>
          intro hp
          obtain ⟨hs, heach⟩ := ih (isPrefix_of_concat hp)
          have hok : (next a (schedule next pre s₀)).isSome → ok a (schedule next pre s₀) := by
            intro hsome
            obtain ⟨s', hnext⟩ := Option.isSome_iff_exists.mp hsome
            by_contra hnot
            refine hbreak a _ s' hs hnext hnot ?_
            rw [← attempt_of_some hnext, ← schedule_concat]
            exact hP _ hp
          refine ⟨?_, fun pre' a' hp' => ?_⟩
          · rw [schedule_concat]
            exact attempt_keeps hs fun s' hnext =>
              hkeep a _ s' hs hnext (hok (Option.isSome_of_mem hnext))
          · rcases List.prefix_concat_iff.mp hp' with heq | hlt
            · obtain ⟨rfl, hlast⟩ := List.append_inj' heq rfl
              obtain rfl := List.head_eq_of_cons_eq hlast
              exact hok
            · exact heach pre' a' hlt
    exact (hinv as (List.prefix_refl as)).2
  · intro hok pre hp
    exact hsafe _ (always_of_eachStep Inv h0 hkeep hok pre hp)

/-- What comes to hold along a schedule comes with some step of it. -/
theorem exists_step_of_not {P : σ → Prop} (h0 : ¬ P s₀) :
    ∀ {as : List α}, P (schedule next as s₀) →
      ∃ pre a post s', as = pre ++ a :: post ∧ ¬ P (schedule next pre s₀) ∧
        next a (schedule next pre s₀) = some s' ∧ P s' := by
  intro as
  induction as using List.reverseRecOn with
  | nil => exact fun hP => absurd hP h0
  | append_singleton as a ih =>
      intro hP
      by_cases hbefore : P (schedule next as s₀)
      · obtain ⟨pre, a', post, s', rfl, hstep⟩ := ih hbefore
        exact ⟨pre, a', post ++ [a], s', by simp, hstep⟩
      · rw [schedule_concat] at hP
        cases hnext : next a (schedule next as s₀) with
        | none => exact absurd (attempt_of_none hnext ▸ hP) hbefore
        | some s' => exact ⟨as, a, [], s', rfl, hbefore, hnext, attempt_of_some hnext ▸ hP⟩

theorem always_iff_last {P : σ → Prop} (hlost : ∀ a s s', ¬ P s → next a s = some s' → ¬ P s') :
    Always next s₀ as P ↔ P (schedule next as s₀) := by
  refine ⟨fun h => h as (List.prefix_refl as), ?_⟩
  rintro hlast pre ⟨post, rfl⟩
  by_contra hnot
  rw [schedule_append] at hlast
  exact schedule_rule (fun s => ¬ P s) hnot hlost post hlast

instance {ok : α → σ → Prop} [∀ a s, Decidable (ok a s)] : Decidable (EachStep next s₀ as ok) :=
  decidable_of_iff _ (forall_isPrefix_concat (p := fun pre a =>
    (next a (schedule next pre s₀)).isSome → ok a (schedule next pre s₀))).symm

end

end LearnCpp.Lib
