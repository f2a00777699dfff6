/-
# `LearnCpp.Lib.Factors` — trial division and common prime factors

Trial division holds a number whose prime factors are all at least the divisor
it has come to.  Such a number is rough.  The divisor, when it divides a rough
number, is its least prime factor; when it does not, the number is rough for the
next divisor; and a rough number below the divisor is one.

The prime factors that two numbers have in common, each as often as it is in
both, are those of the greatest common divisor:

    (gcd a b).primeFactorsList   =   a.primeFactorsList ∩ b.primeFactorsList
-/
import Mathlib.Data.Nat.Factorization.Basic
import Mathlib.Data.List.Lattice

namespace LearnCpp.Lib

/-- All prime factors of `n` are at least `i`. -/
def Rough (i n : ℕ) : Prop := ∀ p, p.Prime → p ∣ n → i ≤ p

section
variable {i n : ℕ}

theorem rough_two (n : ℕ) : Rough 2 n := fun _ hp _ => hp.two_le

theorem Rough.of_dvd {m : ℕ} (h : Rough i n) (hm : m ∣ n) : Rough i m :=
  fun p hp hpm => h p hp (hpm.trans hm)

theorem Rough.succ (h : Rough i n) (hdvd : ¬ i ∣ n) : Rough (i + 1) n := by
  intro p hp hpn
  rcases (h p hp hpn).lt_or_eq with hlt | rfl
  · exact hlt
  · exact absurd hpn hdvd

theorem Rough.primeFactorsList_eq_nil (h : Rough i n) (hlt : n < i) : n.primeFactorsList = [] := by
  rcases Nat.eq_zero_or_pos n with rfl | hpos
  · exact Nat.primeFactorsList_zero
  · refine List.eq_nil_iff_forall_not_mem.mpr fun p hp => ?_
    have hi : i ≤ p := h p (Nat.prime_of_mem_primeFactorsList hp) (Nat.dvd_of_mem_primeFactorsList hp)
    have hn : p ≤ n := Nat.le_of_dvd hpos (Nat.dvd_of_mem_primeFactorsList hp)
    omega

/-- A divisor of a rough number is its least prime factor. -/
theorem Rough.primeFactorsList_eq_cons (h : Rough i n) (hi : 2 ≤ i) (hn : n ≠ 0) (hdvd : i ∣ n) :
    n.primeFactorsList = i :: (n / i).primeFactorsList := by
  have htwo : 2 ≤ n := hi.trans (Nat.le_of_dvd (Nat.pos_of_ne_zero hn) hdvd)
  have hmin : n.minFac = i := by
    refine le_antisymm (Nat.minFac_le_of_dvd hi hdvd) ?_
    exact h _ (Nat.minFac_prime (by omega)) (Nat.minFac_dvd n)
  obtain ⟨m, rfl⟩ := Nat.exists_eq_add_of_le' htwo
  rw [Nat.primeFactorsList_add_two, hmin]

end

/-! ## Lists in order, by how often an element is in them -/

section
variable {α : Type} [DecidableEq α]

theorem eq_bagInter_of_count [PartialOrder α] {l l₁ l₂ : List α} (hl : l.Pairwise (· ≤ ·))
    (hl₁ : l₁.Pairwise (· ≤ ·)) (hcount : ∀ a, l.count a = min (l₁.count a) (l₂.count a)) :
    l = l₁.bagInter l₂ := by
  have hperm : l.Perm (l₁.bagInter l₂) :=
    List.perm_iff_count.mpr fun a => (hcount a).trans List.count_bagInter.symm
  exact hperm.eq_of_pairwise' hl (hl₁.sublist List.bagInter_sublist_left)

theorem map_bagInter {β : Type} [DecidableEq β] {f : α → β} (hf : f.Injective) (l₁ l₂ : List α) :
    (l₁.bagInter l₂).map f = (l₁.map f).bagInter (l₂.map f) := by
  induction l₁ generalizing l₂ with
  | nil => rw [List.nil_bagInter, List.map_nil, List.nil_bagInter]
  | cons a l₁ ih =>
      rw [List.map_cons]
      by_cases ha : a ∈ l₂
      · rw [List.cons_bagInter_of_mem _ ha, List.map_cons, ih, List.map_erase hf,
          List.cons_bagInter_of_mem _ (List.mem_map_of_mem ha)]
      · rw [List.cons_bagInter_of_not_mem _ ha, ih,
          List.cons_bagInter_of_not_mem _ (by rwa [List.mem_map_of_injective hf])]

end

/-- **Common prime factors** are the prime factors of the greatest common divisor. -/
theorem primeFactorsList_gcd {a b : ℕ} (ha : a ≠ 0) (hb : b ≠ 0) :
    (a.gcd b).primeFactorsList = a.primeFactorsList.bagInter b.primeFactorsList := by
  refine eq_bagInter_of_count (Nat.primeFactorsList_sorted _).pairwise
    (Nat.primeFactorsList_sorted _).pairwise fun p => ?_
  rw [Nat.primeFactorsList_count_eq, Nat.primeFactorsList_count_eq, Nat.primeFactorsList_count_eq,
    Nat.factorization_gcd ha hb]
  rfl

end LearnCpp.Lib
