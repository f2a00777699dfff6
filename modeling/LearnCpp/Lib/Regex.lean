/-
# `LearnCpp.Lib.Regex` — regular expressions that are matched by backtracking

A backtracking matcher tries the ways in which an expression matches the front of
a text in an order: a repetition first takes as much as it can.  `run` is the list
of all ways in this order, each with what it leaves of the text and what its groups
have captured, and a search takes the first way at the first position at which
there is one.

Where a text is known, the first way is found part by part (`First`):

    First r xs rest gs   →   First s rest rest' gs'   →   First (seq r s) xs rest' (gs ++ gs')

and that there is no way at a position mostly follows from how the expression
begins (`StartsWith`).
-/
import Mathlib.Data.List.Basic
import Mathlib.Tactic.Common

namespace LearnCpp.Lib

/-- The expressions, over classes of characters. -/
inductive Regex where
  | lit (cs : List Char)
  /-- `p{least,}` -/
  | many (p : Char → Bool) (least : ℕ)
  | group (r : Regex)
  | seq (r s : Regex)
  /-- `$` -/
  | eol

namespace Regex

/-- What each group has captured. -/
abbrev Groups := List (List Char)

/-- What a greedy repetition leaves, the least first. -/
def greedy (p : Char → Bool) : ℕ → List Char → List (List Char)
  | 0, [] => [[]]
  | _ + 1, [] => []
  | 0, x :: xs => if p x then greedy p 0 xs ++ [x :: xs] else [x :: xs]
  | n + 1, x :: xs => if p x then greedy p n xs else []

/-- All ways to match the front of a text, in the order in which they are tried. -/
def run : Regex → List Char → List (List Char × Groups)
  | lit cs, xs => if cs <+: xs then [(xs.drop cs.length, [])] else []
  | many p least, xs => (greedy p least xs).map fun rest => (rest, [])
  | group r, xs =>
      (run r xs).map fun way => (way.1, xs.take (xs.length - way.1.length) :: way.2)
  | seq r s, xs =>
      (run r xs).flatMap fun way => (run s way.1).map fun way' => (way'.1, way.2 ++ way'.2)
  | eol, xs => if xs = [] ∨ xs = ['\n'] then [(xs, [])] else []

/-- The first way at the first position. -/
def search (r : Regex) : List Char → Option (List Char × Groups)
  | [] => (r.run []).head?
  | x :: xs => (r.run (x :: xs)).head?.or (search r xs)

/-! ## The first way -/

/-- The first way to match. -/
def First (r : Regex) (xs rest : List Char) (gs : Groups) : Prop :=
  (r.run xs).head? = some (rest, gs)

variable {r s : Regex} {p : Char → Bool} {least : ℕ} {xs ds rest rest' : List Char}
  {gs gs' : Groups}

theorem first_lit (cs rest : List Char) : First (lit cs) (cs ++ rest) rest [] := by
  rw [First, run, if_pos (List.prefix_append ..), List.drop_left]
  rfl

theorem greedy_append (hds : ∀ d ∈ ds, p d = true) (hstop : ∀ d ∈ rest.head?, p d = false) :
    ∀ {least : ℕ}, least ≤ ds.length → (greedy p least (ds ++ rest)).head? = some rest := by
  induction ds with
  | nil =>
      intro least hle
      obtain rfl := Nat.le_zero.mp hle
      cases rest with
      | nil => rfl
      | cons x xs =>
          have hx : p x = false := hstop x rfl
          simp [greedy, hx]
  | cons d ds ih =>
      have hd : p d = true := hds d List.mem_cons_self
      have ih := @ih fun d' hd' => hds d' (List.mem_cons_of_mem d hd')
      intro least hle
      cases least with
      | zero =>
          rw [List.cons_append, greedy, if_pos hd, List.head?_append, ih (Nat.zero_le _)]
          rfl
      | succ least =>
          rw [List.cons_append, greedy, if_pos hd]
          exact ih (Nat.le_of_succ_le_succ hle)

theorem first_many (hds : ∀ d ∈ ds, p d = true) (hle : least ≤ ds.length)
    (hstop : ∀ d ∈ rest.head?, p d = false) : First (many p least) (ds ++ rest) rest [] := by
  rw [First, run, List.head?_map, greedy_append hds hstop hle]
  rfl

theorem first_many_all (hds : ∀ d ∈ ds, p d = true) (hle : least ≤ ds.length) :
    First (many p least) ds [] [] := by
  have hfirst : First (many p least) (ds ++ []) [] [] := first_many hds hle (by simp)
  rwa [List.append_nil] at hfirst

theorem First.group (h : First r (ds ++ rest) rest gs) :
    First (group r) (ds ++ rest) rest (ds :: gs) := by
  rw [First] at h
  rw [First, run, List.head?_map, h]
  simp

theorem First.seq (hr : First r xs rest gs) (hs : First s rest rest' gs') :
    First (seq r s) xs rest' (gs ++ gs') := by
  obtain ⟨more, hmore⟩ := List.head?_eq_some_iff.mp hr
  rw [First] at hs
  rw [First, run, hmore, List.flatMap_cons, List.head?_append, List.head?_map, hs]
  rfl

theorem first_eol : First eol [] [] [] := rfl

/-! ## Where there is no way -/

/-- The expression begins with a literal. -/
inductive StartsWith (cs : List Char) : Regex → Prop
  | lit : StartsWith cs (lit cs)
  | seq {r s : Regex} : StartsWith cs r → StartsWith cs (seq r s)

theorem StartsWith.run_eq_nil {cs : List Char} (h : StartsWith cs r) (hxs : ¬ cs <+: xs) :
    r.run xs = [] := by
  induction h with
  | lit => exact if_neg hxs
  | seq _ ih => rw [run, ih, List.flatMap_nil]

theorem search_append (pre : List Char)
    (hpre : ∀ k, k < pre.length → r.run (pre.drop k ++ xs) = []) :
    search r (pre ++ xs) = search r xs := by
  induction pre with
  | nil => rfl
  | cons c pre ih =>
      have hfirst : r.run (c :: (pre ++ xs)) = [] := hpre 0 (Nat.zero_lt_succ _)
      rw [List.cons_append, search, hfirst]
      exact ih fun k hk => hpre (k + 1) (Nat.succ_lt_succ hk)

theorem First.search (h : First r xs rest gs) : search r xs = some (rest, gs) := by
  cases xs with
  | nil => exact h
  | cons x xs =>
      rw [First] at h
      rw [Regex.search, h]
      rfl

/-- An expression that begins with a literal is not found where its first character is not. -/
theorem StartsWith.search_append {c : Char} {cs pre : List Char} (h : StartsWith (c :: cs) r)
    (hpre : c ∉ pre) : search r (pre ++ xs) = search r xs := by
  refine Regex.search_append pre fun k hk => h.run_eq_nil fun hprefix => hpre ?_
  obtain ⟨more, hmore⟩ := hprefix
  have hhead : (pre.drop k ++ xs).head? = some c := by rw [← hmore]; rfl
  rw [List.head?_append, List.head?_drop, List.getElem?_eq_getElem hk] at hhead
  exact (Option.some.inj hhead) ▸ List.getElem_mem hk

theorem StartsWith.search_eq_none {c : Char} {cs : List Char} (h : StartsWith (c :: cs) r)
    (hxs : c ∉ xs) : search r xs = none := by
  have hend : search r (xs ++ []) = search r [] := h.search_append hxs
  rw [List.append_nil] at hend
  rw [hend, search, h.run_eq_nil (by simp)]
  rfl

end Regex

end LearnCpp.Lib
