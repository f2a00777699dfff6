/-
# `LearnCpp.Microarchitecture.HotLoop` — a sum in four lanes

`topics/microarchitecture/hot_loop_optimization.cpp`.  `sum_naive` adds on 64 bits.
`sum_simd` adds four elements at a time in lanes of 32 bits, reads the lanes as
`int`, adds these as `int`, and converts to 64 bits before it adds the tail:

    lane k      Σ v[4q + k]     modulo 2³²
    tmp[k]      the lane as a number from -2³¹ on
    s           tmp[0] + tmp[1] + tmp[2] + tmp[3],  undefined when it overflows

So the sum of the fours has to fit `int` for the two to agree: every lane may
lose a multiple of `2³²`, and the sign of the result is carried to 64 bits.
-/
import Mathlib.Algebra.Order.Ring.Nat
import Mathlib.Algebra.Order.BigOperators.Group.List
import LearnCpp.Lib.Vector

namespace LearnCpp.Microarchitecture.HotLoop

open Lib

def sumNaive (v : List UInt32) : UInt64 := v.foldl (fun s x => s + x.toUInt64) 0

/-- A vector register of four lanes. -/
structure Lanes (α : Type) where
  l0 : α
  l1 : α
  l2 : α
  l3 : α
deriving DecidableEq

namespace Lanes
variable {α β : Type}

def map (f : α → β) (a : Lanes α) : Lanes β := ⟨f a.l0, f a.l1, f a.l2, f a.l3⟩

def total (a : Lanes ℕ) : ℕ := a.l0 + a.l1 + a.l2 + a.l3

end Lanes

/-- `_mm_add_epi32`. -/
def addEpi32 (a b : Lanes UInt32) : Lanes UInt32 :=
  ⟨a.l0 + b.l0, a.l1 + b.l1, a.l2 + b.l2, a.l3 + b.l3⟩

/-- The loop over fours: the lanes, and the elements that are left. -/
def sumFours : Lanes UInt32 → List UInt32 → Lanes UInt32 × List UInt32
  | sum4, a :: b :: c :: d :: rest => sumFours (addEpi32 sum4 ⟨a, b, c, d⟩) rest
  | sum4, rest => (sum4, rest)

/-- The signed reading of a lane. -/
def signed (x : UInt32) : ℤ := intOf x.toNat

/-- `tmp[0] + tmp[1] + tmp[2] + tmp[3]`, in `int`. -/
def combine (tmp : Lanes ℤ) : Option ℤ :=
  (checked (tmp.l0 + tmp.l1)).bind fun s => (checked (s + tmp.l2)).bind fun s => checked (s + tmp.l3)

def sumSimd (v : List UInt32) : Option UInt64 :=
  let fours := sumFours ⟨0, 0, 0, 0⟩ v
  (combine (fours.1.map signed)).map fun s =>
    fours.2.foldl (fun s x => s + x.toUInt64) (UInt64.ofInt s)

/-! ## The lanes as sums of the elements -/

/-- The sum of every fourth element, lane by lane, as far as there are fours. -/
def laneSums : List UInt32 → Lanes ℕ
  | a :: b :: c :: d :: rest =>
      let s := laneSums rest
      ⟨a.toNat + s.l0, b.toNat + s.l1, c.toNat + s.l2, d.toNat + s.l3⟩
  | _ => ⟨0, 0, 0, 0⟩

/-- The sum of the elements in the fours. -/
def foursSum (v : List UInt32) : ℕ := ((v.take (4 * (v.length / 4))).map UInt32.toNat).sum

theorem total_laneSums (v : List UInt32) : (laneSums v).total = foursSum v := by
  induction v using laneSums.induct with
  | case1 a b c d rest ih =>
      have hlen : 4 * ((a :: b :: c :: d :: rest).length / 4) = 4 * (rest.length / 4) + 4 := by
        simp only [List.length_cons]
        omega
      rw [foursSum, hlen]
      simp only [List.take_succ_cons, List.map_cons, List.sum_cons]
      rw [← foursSum, ← ih]
      simp only [laneSums, Lanes.total]
      omega
  | case2 v hv =>
      have hlen : 4 * (v.length / 4) = 0 := by
        match v, hv with
        | [], _ | [_], _ | [_, _], _ | [_, _, _], _ => simp
        | a :: b :: c :: d :: rest, hv => exact absurd rfl (hv a b c d rest)
      rw [foursSum, hlen, laneSums]
      · rfl
      · exact hv

theorem sumFours_fst (sum4 : Lanes UInt32) (v : List UInt32) :
    (sumFours sum4 v).1 = addEpi32 sum4 ((laneSums v).map UInt32.ofNat) := by
  induction sum4, v using sumFours.induct with
  | case1 sum4 a b c d rest ih =>
      rw [sumFours, ih]
      simp only [addEpi32, laneSums, Lanes.map, UInt32.ofNat_add, UInt32.ofNat_toNat,
        UInt32.add_assoc]
  | case2 sum4 v hv =>
      rw [sumFours, laneSums]
      · simp [addEpi32, Lanes.map]
      · exact hv
      · exact hv

/-- On 64 bits, the naive loop is past the fours when it has added their sum. -/
theorem foldl_eq_foldl_sumFours (sum4 : Lanes UInt32) (v : List UInt32) (s : UInt64) :
    v.foldl (fun s x => s + x.toUInt64) s =
      (sumFours sum4 v).2.foldl (fun s x => s + x.toUInt64)
        (s + UInt64.ofNat (laneSums v).total) := by
  induction sum4, v using sumFours.induct generalizing s with
  | case1 sum4 a b c d rest ih =>
      simp only [List.foldl_cons]
      rw [ih, sumFours]
      congr 1
      simp only [laneSums, Lanes.total, UInt64.ofNat_add, UInt64.ofNat_uInt32ToNat]
      ac_rfl
  | case2 sum4 v hv =>
      rw [sumFours, laneSums]
      · simp [Lanes.total]
      · exact hv
      · exact hv

theorem foldl_add_eq_iff (rest : List UInt32) (s s' : UInt64) :
    rest.foldl (fun s x => s + x.toUInt64) s = rest.foldl (fun s x => s + x.toUInt64) s' ↔
      s = s' := by
  induction rest generalizing s s' with
  | nil => rfl
  | cons x rest ih => exact (ih _ _).trans (UInt64.add_left_inj _)

/-! ## When the sum of the lanes is that of the elements -/

/-- The lanes read as `int`. -/
def readings (v : List UInt32) : Lanes ℤ := (laneSums v).map fun n : ℕ => intOf n

/-- The sums of the first two, three and four lane readings fit `int`, and the sum of the
fours, on 64 bits, is that of an `int`. -/
structure Fits (v : List UInt32) : Prop where
  two : InInt ((readings v).l0 + (readings v).l1)
  three : InInt ((readings v).l0 + (readings v).l1 + (readings v).l2)
  four : InInt ((readings v).l0 + (readings v).l1 + (readings v).l2 + (readings v).l3)
  sum : foursSum v % 2 ^ 64 < 2 ^ 31 ∨ 2 ^ 64 - 2 ^ 31 ≤ foursSum v % 2 ^ 64

theorem signed_ofNat (n : ℕ) : signed (UInt32.ofNat n) = intOf n := by
  rw [signed, UInt32.toNat_ofNat', intOf, intOf, Int.natCast_mod]
  exact Int.emod_bmod n (2 ^ 32)

theorem map_signed_sumFours (v : List UInt32) :
    (sumFours ⟨0, 0, 0, 0⟩ v).1.map signed = readings v := by
  rw [sumFours_fst]
  simp only [addEpi32, Lanes.map, readings, UInt32.zero_add, signed_ofNat]

theorem exists_intOf (z : ℤ) : ∃ c : ℤ, intOf z = z + 2 ^ 32 * c := by
  obtain ⟨c, hc⟩ := Int.dvd_bmod_sub_self (x := z) (m := 2 ^ 32)
  exact ⟨c, by rw [intOf]; omega⟩

theorem ofInt_eq_ofNat_iff {z : ℤ} {n : ℕ} :
    UInt64.ofInt z = UInt64.ofNat n ↔ z % 2 ^ 64 = (n : ℤ) % 2 ^ 64 := by
  rw [← UInt64.toNat_inj, UInt64.ofInt, UInt64.toNat_ofNat', UInt64.toNat_ofNat']
  omega

/-- The sum of the readings, when it fits `int`, is the sum of the fours on 64 bits exactly
when that is the 64-bit value of an `int`. -/
theorem ofInt_readings_iff {v : List UInt32} {s : ℤ}
    (hs : s = (readings v).l0 + (readings v).l1 + (readings v).l2 + (readings v).l3)
    (hint : InInt s) :
    UInt64.ofInt s = UInt64.ofNat (laneSums v).total ↔
      foursSum v % 2 ^ 64 < 2 ^ 31 ∨ 2 ^ 64 - 2 ^ 31 ≤ foursSum v % 2 ^ 64 := by
  have htotal : (laneSums v).total = foursSum v := total_laneSums v
  obtain ⟨c₀, h₀⟩ := exists_intOf (laneSums v).l0
  obtain ⟨c₁, h₁⟩ := exists_intOf (laneSums v).l1
  obtain ⟨c₂, h₂⟩ := exists_intOf (laneSums v).l2
  obtain ⟨c₃, h₃⟩ := exists_intOf (laneSums v).l3
  have hsum : s = foursSum v + 2 ^ 32 * (c₀ + c₁ + c₂ + c₃) := by
    rw [hs, ← htotal]
    simp only [readings, Lanes.map, Lanes.total, h₀, h₁, h₂, h₃, Nat.cast_add]
    omega
  rw [ofInt_eq_ofNat_iff, htotal]
  obtain ⟨hlo, hhi⟩ := hint
  omega

theorem combine_of_inInt {tmp : Lanes ℤ} (h₂ : InInt (tmp.l0 + tmp.l1))
    (h₃ : InInt (tmp.l0 + tmp.l1 + tmp.l2)) (h₄ : InInt (tmp.l0 + tmp.l1 + tmp.l2 + tmp.l3)) :
    combine tmp = some (tmp.l0 + tmp.l1 + tmp.l2 + tmp.l3) := by
  simp only [combine, checked_of_inInt h₂, checked_of_inInt h₃, checked_of_inInt h₄, Option.bind_some]

theorem combine_eq_some {tmp : Lanes ℤ} {s : ℤ} (h : combine tmp = some s) :
    InInt (tmp.l0 + tmp.l1) ∧ InInt (tmp.l0 + tmp.l1 + tmp.l2) ∧
      InInt (tmp.l0 + tmp.l1 + tmp.l2 + tmp.l3) := by
  simp only [combine, checked, Option.bind_eq_some_iff, Option.ite_none_right_eq_some,
    Option.some.injEq] at h
  obtain ⟨_, ⟨h₂, rfl⟩, _, ⟨h₃, rfl⟩, h₄, -⟩ := h
  exact ⟨h₂, h₃, h₄⟩

/-- **`sum_simd`** returns what `sum_naive` does exactly when the sum of the fours fits. -/
theorem sumSimd_eq_sumNaive_iff (v : List UInt32) : sumSimd v = some (sumNaive v) ↔ Fits v := by
  have htail (s : ℤ) : (sumFours ⟨0, 0, 0, 0⟩ v).2.foldl (fun s x => s + x.toUInt64) (UInt64.ofInt s) =
      sumNaive v ↔ UInt64.ofInt s = UInt64.ofNat (laneSums v).total := by
    rw [sumNaive, foldl_eq_foldl_sumFours ⟨0, 0, 0, 0⟩ v 0, foldl_add_eq_iff, UInt64.zero_add]
  rw [sumSimd, map_signed_sumFours, Option.map_eq_some_iff]
  constructor
  · rintro ⟨s, hs, heq⟩
    obtain ⟨h₂, h₃, h₄⟩ := combine_eq_some hs
    rw [combine_of_inInt h₂ h₃ h₄, Option.some.injEq] at hs
    exact ⟨h₂, h₃, h₄, (ofInt_readings_iff hs.symm (hs ▸ h₄)).mp ((htail s).mp heq)⟩
  · intro h
    exact ⟨_, combine_of_inInt h.two h.three h.four, (htail _).mpr ((ofInt_readings_iff rfl h.four).mpr h.sum)⟩

/-! ## Vectors of fewer than `2³²` elements -/

theorem foursSum_le (v : List UInt32) : foursSum v ≤ v.length * (2 ^ 32 - 1) := by
  have hle : ∀ n ∈ (v.take (4 * (v.length / 4))).map UInt32.toNat, n ≤ 2 ^ 32 - 1 := by
    intro n hn
    obtain ⟨x, -, rfl⟩ := List.mem_map.mp hn
    exact Nat.le_sub_one_of_lt x.toNat_lt
  refine (List.sum_le_card_nsmul _ _ hle).trans ?_
  rw [nsmul_eq_mul, List.length_map, List.length_take]
  exact Nat.mul_le_mul_right _ (min_le_right _ _)

theorem fits_iff {v : List UInt32} (hv : v.length < 2 ^ 32) : Fits v ↔ foursSum v < 2 ^ 31 := by
  have hlt : foursSum v < 2 ^ 64 - 2 ^ 31 := by
    have hle := foursSum_le v
    omega
  constructor
  · intro h
    have hsum := h.sum
    omega
  · intro h
    have htotal : (laneSums v).total < 2 ^ 31 := by rwa [total_laneSums]
    rw [Lanes.total] at htotal
    have hreadings : readings v = (laneSums v).map fun n : ℕ => (n : ℤ) := by
      simp only [readings, Lanes.map, intOf_length (show (laneSums v).l0 < 2 ^ 31 by omega),
        intOf_length (show (laneSums v).l1 < 2 ^ 31 by omega),
        intOf_length (show (laneSums v).l2 < 2 ^ 31 by omega),
        intOf_length (show (laneSums v).l3 < 2 ^ 31 by omega)]
    refine ⟨?_, ?_, ?_, by omega⟩
    all_goals
      simp only [hreadings, Lanes.map, InInt]
      omega

/-- The first lane alone is read as a negative number. -/
theorem sumSimd_ne_sumNaive_high : sumSimd [0x80000000, 0, 0, 0] ≠ some (sumNaive [0x80000000, 0, 0, 0]) := by
  decide

end LearnCpp.Microarchitecture.HotLoop
