/-
# `LearnCpp.Snippets.ParseInt` — decimal literals, and what is taken for one

`parse_int` of `snippets/archive/modern_cpp23_kitchen_sink.cpp` goes through a
string and stops at the first character that is not a digit.  What it has read
until then is the number that the leading digits denote, as long as that is an
`int`; nothing looks whether it still is, or whether there were any digits.
-/
import LearnCpp.Lib.Vector
import Mathlib.Data.List.TakeWhile

namespace LearnCpp.Snippets.ParseInt

open Lib

/-- The text of the error. -/
def notADigit (c : Char) (s : String) : String :=
  "'" ++ c.toString ++ "' is not a digit in '" ++ s ++ "'"

/-- The loop of `parse_int` from some character on; `none` where signed arithmetic
overflows. -/
def parseFrom (s : String) : List Char → ℤ → Option (Except String ℤ)
  | [], result => some (.ok result)
  | c :: cs, result =>
      if c < '0' ∨ '9' < c then some (.error (notADigit c s))
      else do
        let tens ← checked (result * 10)
        let result ← checked (tens + ((c.toNat : ℤ) - ('0'.toNat : ℤ)))
        parseFrom s cs result

def parseInt (s : String) : Option (Except String ℤ) := parseFrom s s.toList 0

/-- What digits denote. -/
def value (cs : List Char) : ℕ := Nat.ofDigitChars 10 cs 0

/-- The decimal literals of `int`. -/
structure Literal (s : String) : Prop where
  nonempty : s ≠ ""
  digits : ∀ c ∈ s.toList, c.isDigit
  fits : InInt (value s.toList)

/-- What `parse_int` is for, at one string. -/
structure Exact (s : String) : Prop where
  accepts : Literal s → parseInt s = some (.ok (value s.toList))
  rejects : ¬ Literal s → ∃ error, parseInt s = some (.error error)

theorem not_digit_iff (c : Char) : (c < '0' ∨ '9' < c) ↔ c.isDigit = false := by
  have hlow : c < '0' ↔ c.toNat < '0'.toNat := UInt32.lt_iff_toNat_lt
  have hhigh : '9' < c ↔ '9'.toNat < c.toNat := UInt32.lt_iff_toNat_lt
  rw [← Bool.not_eq_true, Char.isDigit_iff_toNat, hlow, hhigh]
  omega

theorem le_ofDigitChars (cs : List Char) (n : ℕ) : n ≤ Nat.ofDigitChars 10 cs n := by
  rw [Nat.ofDigitChars_eq_ofDigitChars_zero]
  exact Nat.le_add_right_of_le (Nat.le_mul_of_pos_left n (Nat.pow_pos (by decide)))

theorem inInt_of_le {m n : ℕ} (hle : m ≤ n) (hn : InInt n) : InInt m := by
  obtain ⟨-, hlt⟩ := hn
  exact ⟨by omega, by omega⟩

theorem parseFrom_digit (s : String) {c : Char} (cs : List Char) (n : ℕ) (hc : c.isDigit) :
    parseFrom s (c :: cs) n = if InInt (10 * n + (c.toNat - '0'.toNat) : ℕ)
      then parseFrom s cs (10 * n + (c.toNat - '0'.toNat) : ℕ) else none := by
  have hdigit : ¬ (c < '0' ∨ '9' < c) := by
    rw [not_digit_iff, hc]
    exact Bool.true_eq_false.mp
  have hlow : '0'.toNat ≤ c.toNat := (Char.isDigit_iff_toNat.mp hc).1
  have hsum : (n : ℤ) * 10 + ((c.toNat : ℤ) - ('0'.toNat : ℤ)) =
      (10 * n + (c.toNat - '0'.toNat) : ℕ) := by
    omega
  rw [parseFrom, if_neg hdigit]
  split
  next hfits =>
    have htens : InInt ((n : ℤ) * 10) := by
      rw [← Nat.cast_ofNat, ← Nat.cast_mul, Nat.mul_comm]
      exact inInt_of_le (Nat.le_add_right _ _) hfits
    rw [checked_of_inInt htens, Option.bind_eq_bind, Option.bind_some, hsum, checked_of_inInt hfits]
    rfl
  next hover =>
    cases htens : checked ((n : ℤ) * 10) with
    | none => rfl
    | some tens =>
        rw [checked] at htens
        split at htens
        next =>
          obtain rfl := Option.some.inj htens
          rw [Option.bind_eq_bind, Option.bind_some, hsum, checked, if_neg hover]
          rfl
        next => cases htens

theorem parseFrom_eq (s : String) : ∀ (cs : List Char) (n : ℕ), InInt n →
    parseFrom s cs n =
      if InInt (Nat.ofDigitChars 10 (cs.takeWhile Char.isDigit) n : ℕ) then
        match cs.dropWhile Char.isDigit with
        | [] => some (.ok (Nat.ofDigitChars 10 (cs.takeWhile Char.isDigit) n : ℕ))
        | c :: _ => some (.error (notADigit c s))
      else none := by
  intro cs
  induction cs with
  | nil =>
      intro n hn
      rw [List.takeWhile_nil, Nat.ofDigitChars_nil, if_pos hn]
      rfl
  | cons c cs ih =>
      intro n hn
      cases hc : c.isDigit with
      | false =>
          rw [List.takeWhile_cons_of_neg (Bool.eq_false_iff.mp hc),
            List.dropWhile_cons_of_neg (Bool.eq_false_iff.mp hc), Nat.ofDigitChars_nil, if_pos hn,
            parseFrom, if_pos ((not_digit_iff c).mpr hc)]
      | true =>
          rw [List.takeWhile_cons_of_pos hc, List.dropWhile_cons_of_pos hc, Nat.ofDigitChars_cons,
            parseFrom_digit s cs n hc]
          split
          next hfits => exact ih _ hfits
          next hover =>
            rw [if_neg fun hlast => hover (inInt_of_le (le_ofDigitChars _ _) hlast)]

theorem parseInt_eq (s : String) :
    parseInt s =
      if InInt (value (s.toList.takeWhile Char.isDigit)) then
        match s.toList.dropWhile Char.isDigit with
        | [] => some (.ok (value (s.toList.takeWhile Char.isDigit)))
        | c :: _ => some (.error (notADigit c s))
      else none :=
  parseFrom_eq s s.toList 0 ⟨by decide, by decide⟩

theorem parseInt_of_literal {s : String} (h : Literal s) : parseInt s = some (.ok (value s.toList)) := by
  have hrest : s.toList.dropWhile Char.isDigit = [] := List.dropWhile_eq_nil_iff.mpr h.digits
  rw [parseInt_eq, List.takeWhile_eq_self_iff.mpr h.digits, if_pos h.fits, hrest]

/-- `parse_int(to_string(n)) == n` -/
theorem parseInt_toString {n : ℕ} (hn : InInt n) : parseInt (toString n) = some (.ok n) := by
  have hlist : (toString n).toList = Nat.toDigits 10 n := by
    rw [Nat.toString_eq_repr, Nat.repr_eq_ofList_toDigits, String.toList_ofList]
  have hvalue : value (toString n).toList = n := by
    rw [hlist]
    exact Nat.ofDigitChars_ten_toDigits
  have hliteral : Literal (toString n) := by
    refine ⟨fun hempty => ?_, fun c hc => ?_, hvalue.symm ▸ hn⟩
    · rw [hempty] at hlist
      exact Nat.toDigits_ne_nil hlist.symm
    · rw [hlist] at hc
      exact Nat.isDigit_of_mem_toDigits (by decide) (by decide) hc
  rw [parseInt_of_literal hliteral, hvalue]

/-- **`parse_int` accepts the literals and nothing else** just when there is something to
read and the leading digits denote an `int`. -/
theorem exact_iff (s : String) :
    Exact s ↔ s ≠ "" ∧ InInt (value (s.toList.takeWhile Char.isDigit)) := by
  constructor
  · intro h
    refine ⟨fun hempty => ?_, ?_⟩
    · subst hempty
      obtain ⟨error, herror⟩ := h.rejects fun hliteral => hliteral.nonempty rfl
      cases herror
    · by_contra hover
      have hnone : parseInt s = none := by rw [parseInt_eq, if_neg hover]
      by_cases hliteral : Literal s
      · cases hnone.symm.trans (h.accepts hliteral)
      · obtain ⟨error, herror⟩ := h.rejects hliteral
        cases hnone.symm.trans herror
  · rintro ⟨hnonempty, hfits⟩
    refine ⟨parseInt_of_literal, fun hnot => ?_⟩
    rw [parseInt_eq, if_pos hfits]
    split
    next hrest =>
      have hdigits := List.dropWhile_eq_nil_iff.mp hrest
      rw [List.takeWhile_eq_self_iff.mpr hdigits] at hfits
      exact absurd ⟨hnonempty, hdigits, hfits⟩ hnot
    next c cs hrest => exact ⟨_, rfl⟩

/-- The empty string is taken for zero. -/
theorem not_exact_empty : ¬ Exact "" := by
  intro h
  obtain ⟨error, herror⟩ := h.rejects fun hliteral => hliteral.nonempty rfl
  cases herror

end LearnCpp.Snippets.ParseInt
