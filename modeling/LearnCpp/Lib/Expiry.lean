/-
# `LearnCpp.Lib.Expiry` — maps whose entries have deadlines

A map `κ → Option ε` with a `deadline` for each entry, and the operation
`expire now` that drops every entry whose deadline has come.  Scanning all
entries is one way to compute it.  Two others keep *records* beside the map and
look only at some entries:

* a priority queue of `(deadline, key)` records.  Records may be duplicated, or
  stale: about an entry that has gone, or whose deadline has moved since.  A
  popped record evicts its key only if the key's entry still has the record's
  deadline.
* a timer wheel: `mod` buckets of keys, a key being filed under its deadline
  modulo `mod`.  At tick `t` the bucket of `t` is searched for entries that are
  due, and then cleared.

Both compute `expire` as soon as every entry *has* a record (`Covers`,
`WheelCovers`); nothing is asked of the records that are about no entry.  For
the wheel the deadlines must in addition lie less than one turn ahead, or a
bucket would be cleared that still holds the record of a later deadline.
-/
import Mathlib.Data.List.Basic
import Mathlib.Data.Option.Basic
import Mathlib.Logic.Function.Basic
import Mathlib.Tactic.Common
import LearnCpp.Lib.MinQueue

namespace LearnCpp.Lib

section
variable {κ ε ρ : Type} (deadline : ε → ℕ)

theorem update_eq_some [DecidableEq κ] {m : κ → Option ε} {k k' : κ} {e e' : ε} :
    Function.update m k (some e) k' = some e' ↔ (k' = k ∧ e' = e) ∨ (k' ≠ k ∧ m k' = some e') := by
  rcases eq_or_ne k' k with rfl | hne
  · simp [eq_comm]
  · simp [hne]

/-- Drop every entry whose deadline has come. -/
def expire (now : ℕ) (m : κ → Option ε) : κ → Option ε :=
  fun k => (m k).filter fun e => decide (now < deadline e)

/-- Drop the entry of `k` if it satisfies `p`. -/
def evict [DecidableEq κ] (p : ε → Bool) (k : κ) (m : κ → Option ε) : κ → Option ε :=
  fun k' => if k' = k then (m k').filter (fun e => !p e) else m k'

@[simp] theorem expire_eq_some {now : ℕ} {m : κ → Option ε} {k : κ} {e : ε} :
    expire deadline now m k = some e ↔ m k = some e ∧ now < deadline e := by
  simp [expire, Option.filter_eq_some_iff]

theorem evict_eq_some [DecidableEq κ] {p : ε → Bool} {k k' : κ} {m : κ → Option ε} {e : ε} :
    evict p k m k' = some e ↔ m k' = some e ∧ (k' = k → p e = false) := by
  by_cases h : k' = k <;> simp [evict, h, Option.filter_eq_some_iff]

theorem evict_eq_self [DecidableEq κ] {p : ε → Bool} {k : κ} {m : κ → Option ε}
    (h : ∀ e, m k = some e → p e = false) : evict p k m = m := by
  funext k'
  apply Option.ext
  intro e
  rw [evict_eq_some]
  exact ⟨And.left, fun he => ⟨he, fun hk => h e (hk ▸ he)⟩⟩

theorem evict_eq_update [DecidableEq κ] {p : ε → Bool} {k : κ} {m : κ → Option ε}
    (h : ∀ e, m k = some e → p e = true) : evict p k m = Function.update m k none := by
  funext k'
  apply Option.ext
  intro e
  rw [evict_eq_some]
  by_cases hk : k' = k
  · subst hk
    rw [Function.update_self]
    refine ⟨fun ⟨he, hp⟩ => ?_, fun he => nomatch he⟩
    rw [h e he] at hp
    exact Bool.noConfusion (hp rfl)
  · rw [Function.update_of_ne hk]
    exact ⟨And.left, fun he => ⟨he, fun hk' => absurd hk' hk⟩⟩

theorem foldl_evict_eq_some [DecidableEq κ] (p : ρ → ε → Bool) (key : ρ → κ) (k : κ) (e : ε) :
    ∀ (rs : List ρ) (m : κ → Option ε),
      rs.foldl (fun m r => evict (p r) (key r) m) m k = some e ↔
        m k = some e ∧ ∀ r ∈ rs, key r = k → p r e = false
  | [], m => by simp
  | r :: rs, m => by
      rw [List.foldl_cons, foldl_evict_eq_some p key k e rs, evict_eq_some, List.forall_mem_cons,
        and_assoc, eq_comm (a := k)]

theorem expire_expire {t t' : ℕ} (h : t ≤ t') (m : κ → Option ε) :
    expire deadline t' (expire deadline t m) = expire deadline t' m := by
  funext k
  apply Option.ext
  intro e
  simp only [expire_eq_some]
  constructor
  · rintro ⟨⟨hm, -⟩, ht'⟩; exact ⟨hm, ht'⟩
  · rintro ⟨hm, ht'⟩; exact ⟨⟨hm, by omega⟩, ht'⟩

theorem expire_of_lt {now : ℕ} {m : κ → Option ε} (h : ∀ k e, m k = some e → now < deadline e) :
    expire deadline now m = m := by
  funext k
  apply Option.ext
  intro e
  rw [expire_eq_some deadline]
  exact ⟨And.left, fun he => ⟨he, h k e he⟩⟩

/-- What is left at a time after writing to a key depends on the rest only as far
as it is left then. -/
theorem expire_update_congr [DecidableEq κ] {t : ℕ} {m m' : κ → Option ε}
    (h : expire deadline t m = expire deadline t m') (k : κ) (o : Option ε) :
    expire deadline t (Function.update m k o) = expire deadline t (Function.update m' k o) := by
  funext k'
  have hk := congrFun h k'
  simp only [expire] at hk ⊢
  rcases eq_or_ne k' k with rfl | hne
  · rw [Function.update_self, Function.update_self]
  · rw [Function.update_of_ne hne, Function.update_of_ne hne, hk]

/-- Expiry commutes with forgetting part of the entries, if deadlines survive it. -/
theorem map_expire {ε' : Type} {deadline' : ε' → ℕ} {g : ε → ε'} {m : κ → Option ε}
    (h : ∀ k e, m k = some e → deadline e = deadline' (g e)) (now : ℕ) (k : κ) :
    (expire deadline now m k).map g = expire deadline' now (fun k => (m k).map g) k := by
  simp only [expire]
  cases hm : m k with
  | none => rfl
  | some e =>
      have := h k e hm
      by_cases hlt : now < deadline e <;> simp [Option.filter, hlt, this ▸ hlt]

/-! ## Records in a queue -/

/-- Every entry has a record that names it and its deadline. -/
def Covers (due : ρ → ℕ) (key : ρ → κ) (recs : List ρ) (m : κ → Option ε) : Prop :=
  ∀ k e, m k = some e → ∃ r ∈ recs, due r = deadline e ∧ key r = k

theorem Covers.update [DecidableEq κ] {due : ρ → ℕ} {key : ρ → κ} {recs recs' : List ρ}
    {m : κ → Option ε} {k : κ} {e : ε} (h : Covers deadline due key recs m)
    (hsub : recs ⊆ recs') (hrec : ∃ r ∈ recs', due r = deadline e ∧ key r = k) :
    Covers deadline due key recs' (Function.update m k (some e)) := by
  intro k' e' he'
  rcases update_eq_some.mp he' with ⟨rfl, rfl⟩ | ⟨-, hold⟩
  · exact hrec
  · obtain ⟨r, hr, hdue, hkey⟩ := h k' e' hold
    exact ⟨r, hsub hr, hdue, hkey⟩

/-- **Lazy expiry.**  Evicting on the records that are due, each under the test
that its entry still has the record's deadline, is `expire`; and the records
that are left cover what is left. -/
theorem foldl_evict_eq_expire [DecidableEq κ] {due : ρ → ℕ} {key : ρ → κ} {popped rest recs : List ρ}
    {m : κ → Option ε} (now : ℕ) (hcov : Covers deadline due key recs m)
    (hperm : recs.Perm (popped ++ rest)) (hpopped : ∀ r ∈ popped, due r ≤ now)
    (hrest : ∀ r ∈ rest, now < due r) :
    popped.foldl (fun m r => evict (fun e => decide (deadline e = due r)) (key r) m) m
        = expire deadline now m ∧
      Covers deadline due key rest (expire deadline now m) := by
  constructor
  · funext k
    apply Option.ext
    intro e
    rw [foldl_evict_eq_some, expire_eq_some]
    refine and_congr_right fun he => ?_
    simp only [decide_eq_false_iff_not]
    obtain ⟨r, hr, hdue, hkey⟩ := hcov k e he
    constructor
    · intro hkeep
      rcases List.mem_append.mp (hperm.mem_iff.mp hr) with hp | hl
      · exact absurd hdue.symm (hkeep r hp hkey)
      · have := hrest r hl; omega
    · intro hlt r' hr' _ heq
      have := hpopped r' hr'
      omega
  · intro k e he
    obtain ⟨hm, hlt⟩ := (expire_eq_some deadline).mp he
    obtain ⟨r, hr, hdue, hkey⟩ := hcov k e hm
    rcases List.mem_append.mp (hperm.mem_iff.mp hr) with hp | hl
    · have := hpopped r hp; omega
    · exact ⟨r, hl, hdue, hkey⟩

/-- **Draining a queue of records is a full scan.**  The popped records do not
depend on the store, so the fold below can be run on a concrete store too. -/
theorem drain_eq_expire [DecidableEq κ] {due : ρ → ℕ} {key : ρ → κ} (pq : MinQueue ρ due)
    {isDue : ρ → Bool} {now : ℕ} (hisDue : ∀ r, isDue r = true ↔ due r ≤ now) {q : pq.Q}
    {m : κ → Option ε} (hcov : Covers deadline due key (pq.contents q) m) :
    ∃ (popped : List ρ) (q' : pq.Q),
      (∀ {σ : Type} (body : ρ → σ → σ) (s : σ),
        pq.drain isDue body q s = (q', popped.foldl (fun s r => body r s) s)) ∧
      popped.foldl (fun m r => evict (fun e => decide (deadline e = due r)) (key r) m) m
        = expire deadline now m ∧
      Covers deadline due key (pq.contents q') (expire deadline now m) ∧
      (∀ r ∈ popped, r ∈ pq.contents q) := by
  obtain ⟨popped, q', hd, hrun⟩ := pq.drain_spec isDue
    (fun a b hab hb => by rw [hisDue] at hb ⊢; omega) q
  obtain ⟨hexp, hcov'⟩ := foldl_evict_eq_expire deadline now hcov hd.perm
    (fun r hr => (hisDue r).mp (hd.popped_due r hr))
    (fun r hr => by
      have := hd.rest_not_due r hr
      rw [← Bool.not_eq_true, hisDue] at this
      omega)
  exact ⟨popped, q', hrun, hexp, hcov',
    fun r hr => hd.perm.mem_iff.mpr (List.mem_append_left _ hr)⟩

/-! ## Records in a wheel -/

/-- Every entry's key is filed under its deadline. -/
def WheelCovers (mod : ℕ) (bucket : ℕ → List κ) (m : κ → Option ε) : Prop :=
  ∀ k e, m k = some e → k ∈ bucket (deadline e % mod)

/-- Deadlines lie in the turn of the wheel that starts at tick `t`. -/
def WithinTurn (mod t : ℕ) (m : κ → Option ε) : Prop :=
  ∀ k e, m k = some e → t ≤ deadline e ∧ deadline e < t + mod

/-- A deadline of this turn that is filed under `t` is `t` itself. -/
theorem WithinTurn.eq_of_mod {mod t : ℕ} {m : κ → Option ε} (h : WithinTurn deadline mod t m)
    {k : κ} {e : ε} (he : m k = some e) (hmod : deadline e % mod = t % mod) : deadline e = t := by
  obtain ⟨hlow, hhigh⟩ := h k e he
  have hdvd : mod ∣ deadline e - t :=
    Nat.dvd_of_mod_eq_zero (Nat.sub_mod_eq_zero_of_mod_eq hmod)
  have := Nat.eq_zero_of_dvd_of_lt hdvd (by omega)
  omega

/-- **One tick of a wheel.**  Searching the bucket of `t` for due entries is
`expire t`; and with that bucket cleared the wheel covers what is left, which
lies in the turn that starts at `t + 1`. -/
theorem tick_eq_expire [DecidableEq κ] {mod t : ℕ} {bucket : ℕ → List κ} (bucket' : ℕ → List κ)
    {m : κ → Option ε} (hcov : WheelCovers deadline mod bucket m) (hturn : WithinTurn deadline mod t m)
    (hclear : ∀ b, b ≠ t % mod → bucket' b = bucket b) :
    (bucket (t % mod)).foldl (fun m k => evict (fun e => decide (deadline e ≤ t)) k m) m
        = expire deadline t m ∧
      WheelCovers deadline mod bucket' (expire deadline t m) ∧
      WithinTurn deadline mod (t + 1) (expire deadline t m) := by
  refine ⟨?_, ?_, ?_⟩
  · funext k
    apply Option.ext
    intro e
    rw [foldl_evict_eq_some _ (fun k => k), expire_eq_some]
    refine and_congr_right fun he => ?_
    simp only [decide_eq_false_iff_not, Nat.not_le]
    constructor
    · intro hkeep
      by_contra hle
      have hdl : deadline e = t := by have := (hturn k e he).1; omega
      have hk : k ∈ bucket (t % mod) := hdl ▸ hcov k e he
      exact hle (hkeep k hk rfl)
    · intro hlt _ _ _; exact hlt
  · intro k e he
    obtain ⟨hm, hlt⟩ := (expire_eq_some deadline).mp he
    have hne : deadline e % mod ≠ t % mod := by
      intro hmod
      have := hturn.eq_of_mod deadline hm hmod
      omega
    rw [hclear _ hne]
    exact hcov k e hm
  · intro k e he
    obtain ⟨hm, hlt⟩ := (expire_eq_some deadline).mp he
    have := hturn k e hm
    omega

end

end LearnCpp.Lib
