/-
# `LearnCpp.Lib.Loop` — `while` loops, run to their end or not at all

A loop is its body: from a state the body is undefined (`none`: it leaves its
memory, or overflows), goes on to another state, or leaves with a result.
`loop` runs a body for a number of rounds and can be evaluated; `Returns` says
that some number of rounds is enough, so a loop that never ends returns
nothing, as does one that gets stuck.

    returns_next     one round, in both directions
    Returns.rule     invariant + variant              ⟹  it returns, with Q
    not_returns      a trap the body never leaves     ⟹  it returns nothing
    Returns.post     invariant                        ⟹  what it returns has Q

The first and the last two rules together decide exactly when a loop returns.
-/
import Mathlib.Data.Nat.Init
import Mathlib.Tactic.Common

namespace LearnCpp.Lib

/-- What a round of a loop comes to. -/
inductive Round (σ ρ : Type) where
  | next (s : σ)
  | leave (r : ρ)
deriving DecidableEq

section
variable {σ ρ : Type}

/-- At most `fuel` rounds of the body. -/
def loop (body : σ → Option (Round σ ρ)) : ℕ → σ → Option ρ
  | 0, _ => none
  | fuel + 1, s =>
      match body s with
      | none => none
      | some (.next s') => loop body fuel s'
      | some (.leave r) => some r

/-- The loop, begun in `s`, ends with `r`. -/
def Returns (body : σ → Option (Round σ ρ)) (s : σ) (r : ρ) : Prop :=
  ∃ fuel, loop body fuel s = some r

variable {body : σ → Option (Round σ ρ)} {s s' : σ} {r r' : ρ}

/-! ## One round -/

theorem loop_next (h : body s = some (.next s')) (fuel : ℕ) :
    loop body (fuel + 1) s = loop body fuel s' := by
  simp only [loop, h]

theorem loop_leave (h : body s = some (.leave r)) (fuel : ℕ) :
    loop body (fuel + 1) s = some r := by
  simp only [loop, h]

theorem loop_stuck (h : body s = none) : ∀ fuel, loop body fuel s = none
  | 0 => rfl
  | _ + 1 => by simp only [loop, h]

theorem returns_next (h : body s = some (.next s')) : Returns body s r ↔ Returns body s' r := by
  constructor
  · rintro ⟨fuel, hr⟩
    cases fuel with
    | zero => cases hr
    | succ fuel => exact ⟨fuel, by rwa [loop_next h] at hr⟩
  · rintro ⟨fuel, hr⟩
    exact ⟨fuel + 1, by rwa [loop_next h]⟩

theorem returns_leave (h : body s = some (.leave r')) : Returns body s r ↔ r = r' := by
  constructor
  · rintro ⟨fuel, hr⟩
    cases fuel with
    | zero => cases hr
    | succ fuel =>
        rw [loop_leave h] at hr
        exact (Option.some.inj hr).symm
  · rintro rfl
    exact ⟨1, loop_leave h 0⟩

theorem not_returns_stuck (h : body s = none) : ¬ Returns body s r := by
  rintro ⟨fuel, hr⟩
  rw [loop_stuck h] at hr
  cases hr

/-! ## The loop rules -/

theorem Returns.post (Inv : σ → Prop) {Q : ρ → Prop}
    (hnext : ∀ s s', Inv s → body s = some (.next s') → Inv s')
    (hleave : ∀ s r, Inv s → body s = some (.leave r) → Q r)
    (hr : Returns body s r) (hs : Inv s) : Q r := by
  obtain ⟨fuel, hr⟩ := hr
  induction fuel generalizing s with
  | zero => cases hr
  | succ fuel ih =>
      cases hb : body s with
      | none => rw [loop_stuck hb] at hr; cases hr
      | some round =>
          cases round with
          | next s' =>
              rw [loop_next hb] at hr
              exact ih (hnext s s' hs hb) hr
          | leave r' =>
              rw [loop_leave hb] at hr
              cases hr
              exact hleave s r hs hb

theorem Returns.unique (h : Returns body s r) (h' : Returns body s r') : r = r' := by
  obtain ⟨fuel, hr⟩ := h
  induction fuel generalizing s with
  | zero => cases hr
  | succ fuel ih =>
      cases hb : body s with
      | none => exact absurd h' (not_returns_stuck hb)
      | some round =>
          cases round with
          | next s' =>
              rw [loop_next hb] at hr
              exact ih ((returns_next hb).mp h') hr
          | leave r'' =>
              rw [loop_leave hb] at hr
              cases hr
              exact ((returns_leave hb).mp h').symm

/-- A loop whose rounds keep an invariant and lower a variant returns, and its
result has what the invariant gives on leaving. -/
theorem Returns.rule (Inv : σ → Prop) (variant : σ → ℕ) {Q : ρ → Prop}
    (hround : ∀ s, Inv s →
      (∃ s', body s = some (.next s') ∧ Inv s' ∧ variant s' < variant s) ∨
        (∃ r, body s = some (.leave r) ∧ Q r))
    (hs : Inv s) : ∃ r, Returns body s r ∧ Q r := by
  induction hv : variant s using Nat.strong_induction_on generalizing s with
  | _ v ih =>
      obtain ⟨s', hb, hs', hlt⟩ | ⟨r, hb, hq⟩ := hround s hs
      · obtain ⟨r, hr, hq⟩ := ih (variant s') (hv ▸ hlt) hs' rfl
        exact ⟨r, (returns_next hb).mpr hr, hq⟩
      · exact ⟨r, (returns_leave hb).mpr rfl, hq⟩

/-- A loop inside a trap, a set of states from which every round goes on and
stays, returns nothing. -/
theorem not_returns (Trap : σ → Prop)
    (htrap : ∀ s, Trap s → ∃ s', body s = some (.next s') ∧ Trap s') (hs : Trap s) :
    ¬ Returns body s r := by
  intro hr
  refine Returns.post (Q := fun _ => False) Trap ?_ ?_ hr hs
  · intro s s' hs hb
    obtain ⟨s'', hb', hs''⟩ := htrap s hs
    rw [hb] at hb'
    cases hb'
    exact hs''
  · intro s r hs hb
    obtain ⟨s', hb', -⟩ := htrap s hs
    rw [hb] at hb'
    cases hb'

end

end LearnCpp.Lib
