/-
# `LearnCpp.Lib.ForkJoin` — jobs done side by side, and the map of their results

A main thread hands a list of jobs to workers, one worker for each job, waits for
all of them in the order in which it started them, and has a map from jobs to
results.  The result of a job may come to the map in two ways:

    async      the worker leaves it in a future; the main thread takes it there
               when it is that worker's turn, and writes the map
    threads    the worker takes the mutex of the map and writes it, whenever it
               comes to it; the main thread joins the workers

Workers compute, and threads write, in any order.  A job that is listed twice is
done twice, with one result.  What is in the map is said by the jobs that are
done, so the order does not matter, and when all have been waited for

    lookup k   =   f k   for the jobs k,  and nothing for others

No order of steps gets stuck, and none goes on for more than four steps a job.
-/
import LearnCpp.Lib.Run
import LearnCpp.Lib.SortedMap
import Mathlib.Algebra.GroupWithZero.Nat

namespace LearnCpp.Lib.ForkJoin

/-- How results come to the map. -/
inductive Kind where
  | async
  | threads
  deriving DecidableEq

/-- Where a worker is. -/
inductive Worker (ρ : Type) where
  | running
  /-- The result is in the future of the worker, or in its own hands. -/
  | computed (v : ρ)
  /-- The result is in the map. -/
  | done

structure Phase (κ ρ : Type) [LinearOrder κ] where
  workers : List (Worker ρ) := []
  map : SortedMap κ ρ := .empty
  awaited : ℕ := 0

inductive Action where
  | spawn
  /-- Worker `i` computes its result. -/
  | work (i : ℕ)
  /-- Worker `i` writes the map, with its mutex held. -/
  | update (i : ℕ)
  /-- The main thread gets the future of the next worker, or joins its thread. -/
  | await
  deriving DecidableEq

variable {κ ρ : Type} [LinearOrder κ]

/-- The result of worker `i` is written to the map. -/
def store (jobs : List κ) (i : ℕ) (p : Phase κ ρ) : Option (Phase κ ρ) :=
  match p.workers[i]?, jobs[i]? with
  | some (.computed v), some k =>
      some { p with workers := p.workers.set i .done, map := p.map.upsert k fun _ => v }
  | _, _ => none

/-- The steps of a phase.  A job that has no result ends the program, and a worker
that comes to it takes no step. -/
def next (kind : Kind) (jobs : List κ) (f : κ → Option ρ) : Action → Phase κ ρ → Option (Phase κ ρ)
  | .spawn, p =>
      if p.workers.length < jobs.length then some { p with workers := p.workers ++ [.running] }
      else none
  | .work i, p =>
      match p.workers[i]?, jobs[i]? with
      | some .running, some k =>
          (f k).map fun v => { p with workers := p.workers.set i (.computed v) }
      | _, _ => none
  | .update i, p => if kind = .threads then store jobs i p else none
  | .await, p =>
      if p.workers.length < jobs.length then none
      else
        match kind with
        | .async => (store jobs p.awaited p).map fun p => { p with awaited := p.awaited + 1 }
        | .threads =>
            match p.workers[p.awaited]? with
            | some .done => some { p with awaited := p.awaited + 1 }
            | _ => none

/-- All workers have been waited for. -/
def Finished (jobs : List κ) (p : Phase κ ρ) : Prop := p.awaited = jobs.length

instance (jobs : List κ) (p : Phase κ ρ) : Decidable (Finished jobs p) :=
  inferInstanceAs (Decidable (_ = _))

/-! ## The invariant -/

structure Inv (kind : Kind) (jobs : List κ) (f : κ → Option ρ) (p : Phase κ ρ) : Prop where
  spawned : p.workers.length ≤ jobs.length
  awaited : ∀ i : ℕ, i < p.awaited → p.workers[i]? = some .done
  computed : ∀ (i : ℕ) v, p.workers[i]? = some (.computed v) → ∃ k, jobs[i]? = some k ∧ f k = some v
  stored : ∀ k v, p.map.lookup k = some v ↔
    f k = some v ∧ ∃ i : ℕ, p.workers[i]? = some .done ∧ jobs[i]? = some k
  collected : kind = .async → ∀ i : ℕ, p.workers[i]? = some .done → i < p.awaited

section
variable {kind : Kind} {jobs : List κ} {f : κ → Option ρ} {p p' : Phase κ ρ} {i : ℕ}

theorem init_inv : Inv kind jobs f ({} : Phase κ ρ) where
  spawned := Nat.zero_le _
  awaited := fun i hi => absurd hi (Nat.not_lt_zero i)
  computed := fun _ _ hi => by cases hi
  stored := fun k v => by
    constructor
    · intro hk
      cases hk
    · rintro ⟨_, i, hi, _⟩
      cases hi
  collected := fun _ _ hi => by cases hi

theorem store_eq_some (h : store jobs i p = some p') :
    ∃ v k, p.workers[i]? = some (Worker.computed v) ∧ jobs[i]? = some k ∧
      p' = { p with workers := p.workers.set i .done, map := p.map.upsert k fun _ => v } := by
  rw [store] at h
  split at h
  next v k hworker hjob => exact ⟨v, k, hworker, hjob, (Option.some.inj h).symm⟩
  next => cases h

theorem next_cases {a : Action} (h : next kind jobs f a p = some p') :
    (p.workers.length < jobs.length ∧ p' = { p with workers := p.workers ++ [.running] }) ∨
    (∃ i k v, p.workers[i]? = some Worker.running ∧ jobs[i]? = some k ∧ f k = some v ∧
      p' = { p with workers := p.workers.set i (.computed v) }) ∨
    (∃ i, kind = .threads ∧ store jobs i p = some p') ∨
    (kind = .async ∧ ∃ q, store jobs p.awaited p = some q ∧
      p' = { q with awaited := q.awaited + 1 }) ∨
    (kind = .threads ∧ p.workers[p.awaited]? = some .done ∧
      p' = { p with awaited := p.awaited + 1 }) := by
  cases a with
  | spawn =>
      rw [next] at h
      split at h
      next hlt => exact Or.inl ⟨hlt, (Option.some.inj h).symm⟩
      next => cases h
  | work i =>
      rw [next] at h
      split at h
      next k hrunning hjob =>
        obtain ⟨v, hv, rfl⟩ := Option.map_eq_some_iff.mp h
        exact Or.inr (Or.inl ⟨i, k, v, hrunning, hjob, hv, rfl⟩)
      next => cases h
  | update i =>
      rw [next] at h
      split at h
      next hkind => exact Or.inr (Or.inr (Or.inl ⟨i, hkind, h⟩))
      next => cases h
  | await =>
      refine Or.inr (Or.inr (Or.inr ?_))
      cases kind with
      | async =>
          simp only [next] at h
          split at h
          next => cases h
          next =>
            obtain ⟨q, hstore, rfl⟩ := Option.map_eq_some_iff.mp h
            exact Or.inl ⟨rfl, q, hstore, rfl⟩
      | threads =>
          simp only [next] at h
          split at h
          next => cases h
          next =>
            split at h
            next hdone => exact Or.inr ⟨rfl, hdone, (Option.some.inj h).symm⟩
            next => cases h

theorem worker_set {w : Worker ρ} (hi : i < p.workers.length) (j : ℕ) :
    (p.workers.set i w)[j]? = if i = j then some w else p.workers[j]? := by
  rcases eq_or_ne i j with rfl | hij
  · rw [if_pos rfl, List.getElem?_set_self hi]
  · rw [if_neg hij, List.getElem?_set_ne hij]

theorem lt_of_worker {w : Worker ρ} (h : p.workers[i]? = some w) : i < p.workers.length :=
  (List.getElem?_eq_some_iff.mp h).1

theorem Inv.spawn (h : Inv kind jobs f p) (hlt : p.workers.length < jobs.length) :
    Inv kind jobs f { p with workers := p.workers ++ [.running] } := by
  -- the other workers are where they were, and the new one has no result
  have hworker : ∀ {j : ℕ} {w : Worker ρ}, (p.workers ++ [Worker.running])[j]? = some w →
      p.workers[j]? = some w ∨ w = .running := by
    intro j w hj
    rcases Nat.lt_or_ge j p.workers.length with hlt | hge
    · exact Or.inl (by rwa [List.getElem?_append_left hlt] at hj)
    · rw [List.getElem?_append_right hge] at hj
      exact Or.inr (List.mem_singleton.mp (List.mem_of_getElem? hj))
  have hold : ∀ {j : ℕ} {w : Worker ρ}, p.workers[j]? = some w → (p.workers ++ [Worker.running])[j]? = some w := by
    intro j w hj
    rwa [List.getElem?_append_left (lt_of_worker hj)]
  refine ⟨?_, fun i hi => hold (h.awaited i hi), ?_, ?_, ?_⟩
  · rw [List.length_append, List.length_singleton]
    exact hlt
  · intro i v hi
    rcases hworker hi with hi | hv
    · exact h.computed i v hi
    · cases hv
  · intro k v
    rw [h.stored k v]
    refine and_congr_right fun _ => exists_congr fun i => and_congr_left fun _ => ?_
    constructor
    · exact hold
    · intro hi
      rcases hworker hi with hi | hv
      · exact hi
      · cases hv
  · intro hkind i hi
    rcases hworker hi with hi | hv
    · exact h.collected hkind i hi
    · cases hv

theorem Inv.work (h : Inv kind jobs f p) (hrunning : p.workers[i]? = some .running) {k : κ} {v : ρ}
    (hjob : jobs[i]? = some k) (hv : f k = some v) :
    Inv kind jobs f { p with workers := p.workers.set i (.computed v) } := by
  have hset := worker_set (w := .computed v) (lt_of_worker hrunning)
  -- no worker is done that was not before
  have hdone : ∀ j : ℕ, (p.workers.set i (Worker.computed v))[j]? = some Worker.done ↔
      p.workers[j]? = some .done := by
    intro j
    rw [hset]
    split
    next hij =>
      subst hij
      rw [hrunning]
      constructor
      · intro heq
        cases heq
      · intro heq
        cases heq
    next => rfl
  refine ⟨by rw [List.length_set]; exact h.spawned, fun j hj => (hdone j).mpr (h.awaited j hj), ?_, ?_,
    fun hkind j hj => h.collected hkind j ((hdone j).mp hj)⟩
  · intro j v' hj
    rw [hset] at hj
    split at hj
    next hij =>
      cases hj
      exact ⟨k, hij ▸ hjob, hv⟩
    next => exact h.computed j v' hj
  · intro k' v'
    rw [h.stored k' v']
    exact and_congr_right fun _ => exists_congr fun j => and_congr_left fun _ => (hdone j).symm

/-- A worker that has written the map is done, and what the map holds is still what
the workers that are done have computed. -/
theorem Inv.store (h : Inv kind jobs f p)
    (hstore : store jobs i p = some p') {n : ℕ} (hn : p.awaited ≤ n)
    (hawaited : ∀ j, j < n → j < p.awaited ∨ j = i) (hlate : kind = .async → i < n) :
    Inv kind jobs f { p' with awaited := n } := by
  obtain ⟨v, k, hworker, hjob, rfl⟩ := store_eq_some hstore
  obtain ⟨k', hjob', hv⟩ := h.computed i v hworker
  obtain rfl := Option.some.inj (hjob'.symm.trans hjob)
  have hset := worker_set (w := .done) (lt_of_worker hworker)
  have hdone : ∀ j : ℕ, (p.workers.set i Worker.done)[j]? = some Worker.done ↔
      j = i ∨ p.workers[j]? = some .done := by
    intro j
    rw [hset]
    split
    next hij => exact iff_of_true rfl (Or.inl hij.symm)
    next hij => exact ⟨Or.inr, fun hj => hj.resolve_left (Ne.symm hij)⟩
  refine ⟨by rw [List.length_set]; exact h.spawned, ?_, ?_, ?_, ?_⟩
  · intro j hj
    rcases hawaited j hj with hlt | rfl
    · exact (hdone j).mpr (Or.inr (h.awaited j hlt))
    · exact (hdone j).mpr (Or.inl rfl)
  · intro j v' hj
    rw [hset] at hj
    split at hj
    next => cases hj
    next => exact h.computed j v' hj
  · intro k'' v'
    show (p.map.upsert k' fun _ => v).lookup k'' = some v' ↔ _
    rw [SortedMap.lookup_upsert]
    constructor
    · intro hlookup
      split at hlookup
      next heq =>
        subst heq
        cases hlookup
        exact ⟨hv, i, (hdone i).mpr (Or.inl rfl), hjob⟩
      next =>
        obtain ⟨hv', j, hj, hjobj⟩ := (h.stored k'' v').mp hlookup
        exact ⟨hv', j, (hdone j).mpr (Or.inr hj), hjobj⟩
    · rintro ⟨hv', j, hj, hjobj⟩
      split
      next heq =>
        subst heq
        exact hv.symm.trans hv'
      next hne =>
        rcases (hdone j).mp hj with rfl | hj
        · exact absurd (Option.some.inj (hjobj.symm.trans hjob)) hne
        · exact (h.stored k'' v').mpr ⟨hv', j, hj, hjobj⟩
  · intro hk j hj
    rcases (hdone j).mp hj with rfl | hj
    · exact hlate hk
    · exact (h.collected hk j hj).trans_le hn

theorem store_awaited (h : store jobs i p = some p') : p'.awaited = p.awaited := by
  obtain ⟨v, k, -, -, rfl⟩ := store_eq_some h
  rfl

theorem next_inv (h : Inv kind jobs f p) {a : Action} (hstep : next kind jobs f a p = some p') :
    Inv kind jobs f p' := by
  obtain ⟨hlt, rfl⟩ | ⟨i, k, v, hrunning, hjob, hv, rfl⟩ | ⟨i, hkind, hstore⟩ |
    ⟨-, q, hstore, rfl⟩ | ⟨hkind, hdone, rfl⟩ := next_cases hstep
  · exact h.spawn hlt
  · exact h.work hrunning hjob hv
  · have hlate : kind = .async → i < p.awaited := by
      intro hasync
      rw [hkind] at hasync
      cases hasync
    have hinv := h.store hstore (le_refl _) (fun j hj => Or.inl hj) hlate
    rwa [← store_awaited hstore] at hinv
  · rw [store_awaited hstore]
    exact h.store hstore (Nat.le_succ _) (fun j hj => Nat.lt_succ_iff_lt_or_eq.mp hj)
      fun _ => Nat.lt_succ_self _
  · refine ⟨h.spawned, ?_, h.computed, h.stored, fun hk j hj => ?_⟩
    · intro j hj
      rcases Nat.lt_succ_iff_lt_or_eq.mp hj with hlt | rfl
      · exact h.awaited j hlt
      · exact hdone
    · exact (h.collected hk j hj).trans (Nat.lt_succ_self _)

/-! ## When all have been waited for -/

theorem Inv.lookup_of_finished (h : Inv kind jobs f p) (hfinished : Finished jobs p) {k : κ} :
    p.map.lookup k = if k ∈ jobs then f k else none := by
  refine Option.ext fun v => ?_
  rw [h.stored k v]
  constructor
  · rintro ⟨hv, i, -, hjob⟩
    rw [if_pos (List.mem_of_getElem? hjob)]
    exact hv
  · intro hv
    split at hv
    next hk =>
      obtain ⟨i, hi, hjob⟩ := List.getElem_of_mem hk
      have hlt : i < p.awaited := by
        rw [hfinished]
        exact hi
      exact ⟨hv, i, h.awaited i hlt, List.getElem?_eq_some_iff.mpr ⟨hi, hjob⟩⟩
    next => cases hv

theorem Inv.awaited_le (h : Inv kind jobs f p) : p.awaited ≤ p.workers.length := by
  by_contra hgt
  have hlast := lt_of_worker (h.awaited (p.awaited - 1) (by omega))
  omega

theorem exists_step (h : Inv kind jobs f p) (hf : ∀ k ∈ jobs, (f k).isSome)
    (hfinished : ¬ Finished jobs p) : ∃ a, (next kind jobs f a p).isSome := by
  rcases Nat.lt_or_ge p.workers.length jobs.length with hlt | hge
  · exact ⟨.spawn, by simp [next, hlt]⟩
  · have hsize : p.workers.length = jobs.length := le_antisymm h.spawned hge
    have hlt : p.awaited < jobs.length := lt_of_le_of_ne (hsize ▸ h.awaited_le) hfinished
    -- the worker that is waited for
    obtain ⟨k, hjob⟩ : ∃ k, jobs[p.awaited]? = some k := ⟨_, List.getElem?_eq_getElem hlt⟩
    obtain ⟨w, hworker⟩ : ∃ w, p.workers[p.awaited]? = some w :=
      ⟨_, List.getElem?_eq_getElem (hsize ▸ hlt)⟩
    cases w with
    | running =>
        obtain ⟨v, hv⟩ := Option.isSome_iff_exists.mp (hf k (List.mem_of_getElem? hjob))
        exact ⟨.work p.awaited, by simp [next, hworker, hjob, hv]⟩
    | computed v =>
        cases kind with
        | async => exact ⟨.await, by simp [next, store, hworker, hjob, hsize]⟩
        | threads => exact ⟨.update p.awaited, by simp [next, store, hworker, hjob]⟩
    | done =>
        cases kind with
        | async => exact absurd (h.collected rfl _ hworker) (lt_irrefl _)
        | threads => exact ⟨.await, by simp [next, hworker, hsize]⟩

end

/-! ## How long it takes -/

/-- The steps that a worker has taken. -/
def Worker.age : Worker ρ → ℕ
  | .running => 1
  | .computed _ => 2
  | .done => 3

/-- The steps that have been taken. -/
def Phase.age (p : Phase κ ρ) : ℕ := (p.workers.map Worker.age).sum + p.awaited

section
variable {kind : Kind} {jobs : List κ} {f : κ → Option ρ} {p p' : Phase κ ρ} {i : ℕ}

theorem age_set {w : Worker ρ} (w' : Worker ρ) : ∀ {ws : List (Worker ρ)} {i : ℕ}, ws[i]? = some w →
    ((ws.set i w').map Worker.age).sum + w.age = (ws.map Worker.age).sum + w'.age
  | [], i, h => by cases h
  | x :: ws, 0, h => by
      obtain rfl := Option.some.inj h
      simp only [List.set_cons_zero, List.map_cons, List.sum_cons]
      omega
  | x :: ws, i + 1, h => by
      have ih := age_set w' (show ws[i]? = some w from h)
      simp only [List.set_cons_succ, List.map_cons, List.sum_cons]
      omega

theorem age_store (h : store jobs i p = some p') : p'.age = p.age + 1 := by
  obtain ⟨v, k, hworker, -, rfl⟩ := store_eq_some h
  have hset := age_set .done hworker
  simp only [Phase.age, Worker.age] at hset ⊢
  omega

theorem age_next {a : Action} (hstep : next kind jobs f a p = some p') : p.age < p'.age := by
  obtain ⟨-, rfl⟩ | ⟨i, k, v, hrunning, -, -, rfl⟩ | ⟨i, -, hstore⟩ | ⟨-, q, hstore, rfl⟩ |
    ⟨-, -, rfl⟩ := next_cases hstep
  · simp only [Phase.age, List.map_append, List.sum_append, List.map_singleton, List.sum_singleton,
      Worker.age]
    omega
  · have hset := age_set (.computed v) hrunning
    simp only [Phase.age, Worker.age] at hset ⊢
    omega
  · have hage := age_store hstore
    omega
  · have hage := age_store hstore
    simp only [Phase.age] at hage ⊢
    omega
  · simp only [Phase.age]
    omega

theorem age_le (h : Inv kind jobs f p) : p.age ≤ 4 * jobs.length := by
  have hworkers : ∀ ws : List (Worker ρ), (ws.map Worker.age).sum ≤ 3 * ws.length := by
    intro ws
    induction ws with
    | nil => exact Nat.le_refl 0
    | cons w ws ih =>
        have hw : w.age ≤ 3 := by cases w <;> simp [Worker.age]
        simp only [List.map_cons, List.sum_cons, List.length_cons]
        omega
  have hawaited := h.awaited_le
  have hsum := hworkers p.workers
  have hspawned := h.spawned
  rw [Phase.age]
  omega

end

end LearnCpp.Lib.ForkJoin
