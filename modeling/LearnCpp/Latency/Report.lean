/-
# `LearnCpp.Latency.Report` — what a server prints, and what is read from it

`extras/latency/stress_tiers.py` starts a server, stops it and takes the numbers of
its table from the server's output:

    VARIANT=epoll_pool_lockfree
    [STATS] count=12 avg_ns=830 max_ns=2100
    FINAL_STATS count=20 avg_ns=790 max_ns=2100

The name is read from the first line of its form, the numbers from the first place at
which `FINAL_RE` matches, wherever that is.
-/
import LearnCpp.Latency.Stats
import LearnCpp.Lib.Regex
import Mathlib.Algebra.Order.BigOperators.Group.List
import Mathlib.Algebra.Order.Ring.Int

namespace LearnCpp.Latency.Report

open Lib Stats

/-! ## The server -/

inductive Variant where
  | v1
  | v2
  | v3
  | v4
  | v5
  deriving DecidableEq, Repr

def Variant.name : Variant → String
  | v1 => "epoll_pool_lockfree"
  | v2 => "epoll_nopool_lockfree"
  | v3 => "epoll_pool_mutex"
  | v4 => "blocking_tcp_pool_lockfree"
  | v5 => "poll_pool_lockfree"

/-- An integer, as `std::cout` prints it. -/
def decimal : ℤ → List Char
  | .ofNat n => Nat.toDigits 10 n
  | .negSucc n => '-' :: Nat.toDigits 10 (n + 1)

def lineText (tag : String) (line : Line) : List Char :=
  tag.toList ++ " count=".toList ++ decimal line.count.toNat ++ " avg_ns=".toList ++
    decimal line.avgNs.toInt ++ " max_ns=".toList ++ decimal line.maxNs.toInt ++ ['\n']

/-- All that a server prints. -/
def stdout (variant : Variant) (s : State) : List Char :=
  "VARIANT=".toList ++ variant.name.toList ++ ['\n'] ++ s.lines.flatMap (lineText "[STATS]") ++
    s.final.elim [] (lineText "FINAL_STATS")

/-! ## The script -/

/-- The characters of `\s`. -/
def isSpace (c : Char) : Bool :=
  c ∈ ['\t', '\n', '\x0b', '\x0c', '\r', '\x1c', '\x1d', '\x1e', '\x1f', ' ', '\x85', '\xa0',
    '\u1680', '\u2000', '\u2001', '\u2002', '\u2003', '\u2004', '\u2005', '\u2006', '\u2007',
    '\u2008', '\u2009', '\u200a', '\u2028', '\u2029', '\u202f', '\u205f', '\u3000']

/-- Where `splitlines` splits; `"\r\n"` is one break. -/
def isLineBreak (c : Char) : Bool :=
  c ∈ ['\n', '\r', '\x0b', '\x0c', '\x1c', '\x1d', '\x1e', '\x85', '\u2028', '\u2029']

def splitlines : List Char → List (List Char)
  | [] => []
  | '\r' :: '\n' :: cs => [] :: splitlines cs
  | c :: cs =>
      if isLineBreak c then [] :: splitlines cs
      else
        match splitlines cs with
        | [] => [[c]]
        | line :: lines => (c :: line) :: lines

def strip (cs : List Char) : List Char :=
  ((cs.dropWhile isSpace).reverse.dropWhile isSpace).reverse

/-- `FINAL_STATS\s+count=(\d+)\s+avg_ns=(\d+)\s+max_ns=(\d+)`; `\d` also takes the digits of
other scripts, but `std::cout` prints none. -/
def finalRe : Regex :=
  .seq (.lit "FINAL_STATS".toList) <| .seq (.many isSpace 1) <|
  .seq (.lit "count=".toList) <| .seq (.group (.many Char.isDigit 1)) <| .seq (.many isSpace 1) <|
  .seq (.lit "avg_ns=".toList) <| .seq (.group (.many Char.isDigit 1)) <| .seq (.many isSpace 1) <|
  .seq (.lit "max_ns=".toList) (.group (.many Char.isDigit 1))

/-- `^VARIANT=(.*)\s*$` -/
def variantRe : Regex :=
  .seq (.lit "VARIANT=".toList) <| .seq (.group (.many (· ≠ '\n') 0)) <|
  .seq (.many isSpace 0) .eol

/-- `int`, on digits. -/
def int (cs : List Char) : ℕ := Nat.ofDigitChars 10 cs 0

/-- The name on a line, if it is of the form of `VARIANT_RE`. -/
def variantName (line : List Char) : Option (List Char) :=
  match (variantRe.run line).head? with
  | some (_, [name]) => some (strip name)
  | _ => none

def parseServerOutput (output : List Char) :
    Option (List Char) × Option ℕ × Option ℕ × Option ℕ :=
  let name := (splitlines output).findSome? variantName
  match finalRe.search output with
  | some (_, [cnt, avgNs, maxNs]) =>
      (name, some (int cnt), some (int avgNs), some (int maxNs))
  | _ => (name, none, none, none)

/-! ## Reading what was printed -/

theorem int_toDigits (n : ℕ) : int (Nat.toDigits 10 n) = n := Nat.ofDigitChars_ten_toDigits

theorem isDigit_toDigits (n : ℕ) : ∀ c ∈ Nat.toDigits 10 n, c.isDigit = true := fun _ hc =>
  Nat.isDigit_of_mem_toDigits (Nat.succ_pos 9) (Nat.le_refl 10) hc

theorem name_plain (v : Variant) : ∀ c ∈ v.name.toList,
    isSpace c = false ∧ isLineBreak c = false ∧ c ≠ '\n' ∧ c ≠ 'F' := by
  have hall : v.name.toList.all fun c => !isSpace c && !isLineBreak c && c ≠ '\n' && c ≠ 'F' := by
    cases v <;> rfl
  simpa [and_assoc] using hall

theorem splitlines_append {line : List Char} (hline : ∀ c ∈ line, isLineBreak c = false)
    (cs : List Char) : splitlines (line ++ '\n' :: cs) = line :: splitlines cs := by
  induction line with
  | nil => simp [splitlines, isLineBreak]
  | cons c line ih =>
      have hc : isLineBreak c = false := hline c List.mem_cons_self
      have ih := ih fun c' hc' => hline c' (List.mem_cons_of_mem c hc')
      have hne : c ≠ '\r' := by
        rintro rfl
        exact absurd hc (by decide)
      rw [List.cons_append, splitlines, ih, hc]
      · rfl
      · simp [hne]

theorem strip_eq_self {cs : List Char} (hcs : ∀ c ∈ cs, isSpace c = false) : strip cs = cs := by
  have hdrop : ∀ {xs : List Char}, (∀ c ∈ xs, isSpace c = false) → xs.dropWhile isSpace = xs := by
    intro xs hxs
    cases xs with
    | nil => rfl
    | cons x xs => rw [List.dropWhile_cons_of_neg (by simp [hxs x List.mem_cons_self])]
  rw [strip, hdrop hcs, hdrop fun c hc => hcs c (List.mem_reverse.mp hc), List.reverse_reverse]

theorem variantName_name (v : Variant) :
    variantName ("VARIANT=".toList ++ v.name.toList) = some v.name.toList := by
  have hany : Regex.First (.many (· ≠ '\n') 0) (v.name.toList ++ []) [] [] := by
    rw [List.append_nil]
    exact Regex.first_many_all (fun c hc => by simp [(name_plain v c hc).2.2.1]) (Nat.zero_le _)
  have hend : Regex.First (.many isSpace 0) [] [] [] := Regex.first_many_all nofun (Nat.le_refl 0)
  have hfirst : Regex.First variantRe ("VARIANT=".toList ++ (v.name.toList ++ [])) []
      [v.name.toList] :=
    (Regex.first_lit _ _).seq <| hany.group.seq <| hend.seq Regex.first_eol
  rw [List.append_nil] at hfirst
  rw [variantName, hfirst]
  exact congrArg some (strip_eq_self fun c hc => (name_plain v c hc).1)

theorem first_finalRe (n a m : ℕ) (rest : List Char) (hrest : ∀ c ∈ rest.head?, c.isDigit = false) :
    Regex.First finalRe
      ("FINAL_STATS".toList ++ ([' '] ++ ("count=".toList ++ (Nat.toDigits 10 n ++ ([' '] ++
        ("avg_ns=".toList ++ (Nat.toDigits 10 a ++ ([' '] ++ ("max_ns=".toList ++
          (Nat.toDigits 10 m ++ rest)))))))))) rest
      [Nat.toDigits 10 n, Nat.toDigits 10 a, Nat.toDigits 10 m] := by
  have hspace : ∀ c cs, isSpace c = false → Regex.First (.many isSpace 1) ([' '] ++ c :: cs) (c :: cs) [] :=
    fun c cs hc => Regex.first_many (List.forall_mem_singleton.mpr rfl) (Nat.le_refl 1)
      (by rintro d ⟨⟩; exact hc)
  have hdigits : ∀ k cs, (∀ c ∈ cs.head?, c.isDigit = false) →
      Regex.First (.group (.many Char.isDigit 1)) (Nat.toDigits 10 k ++ cs) cs [Nat.toDigits 10 k] :=
    fun k cs hcs => (Regex.first_many (isDigit_toDigits k) Nat.length_toDigits_pos hcs).group
  exact (Regex.first_lit _ _).seq <| (hspace _ _ rfl).seq <|
    (Regex.first_lit _ _).seq <| (hdigits n _ (by rintro c ⟨⟩; rfl)).seq <| (hspace _ _ rfl).seq <|
    (Regex.first_lit _ _).seq <| (hdigits a _ (by rintro c ⟨⟩; rfl)).seq <| (hspace _ _ rfl).seq <|
    (Regex.first_lit _ _).seq (hdigits m rest hrest)

theorem decimal_natCast (n : ℕ) : decimal n = Nat.toDigits 10 n := rfl

theorem decimal_of_nonneg {z : ℤ} (hz : 0 ≤ z) : decimal z = Nat.toDigits 10 z.toNat := by
  obtain ⟨n, rfl⟩ := Int.eq_ofNat_of_zero_le hz
  rfl

theorem not_mem_decimal {c : Char} (hc : c.isDigit = false) (hminus : c ≠ '-') (z : ℤ) :
    c ∉ decimal z := by
  have hdigits : ∀ n, c ∉ Nat.toDigits 10 n := fun n hmem =>
    Bool.false_ne_true (hc.symm.trans (isDigit_toDigits n c hmem))
  cases z with
  | ofNat n => exact hdigits n
  | negSucc n => exact List.not_mem_cons_of_ne_of_not_mem hminus (hdigits _)

/-- Up to the last line there is no place for `FINAL_RE` to match. -/
theorem not_mem_lineText (line : Line) : 'F' ∉ lineText "[STATS]" line := by
  have hdecimal : ∀ z, 'F' ∉ decimal z := not_mem_decimal (by decide) (by decide)
  simp only [lineText, List.mem_append, not_or]
  exact ⟨⟨⟨⟨⟨⟨⟨by decide, by decide⟩, hdecimal _⟩, by decide⟩, hdecimal _⟩, by decide⟩, hdecimal _⟩,
    by decide⟩

theorem lineText_eq (tag : String) (line : Line) : lineText tag line =
    tag.toList ++ ([' '] ++ ("count=".toList ++ (decimal line.count.toNat ++ ([' '] ++
      ("avg_ns=".toList ++ (decimal line.avgNs.toInt ++ ([' '] ++ ("max_ns=".toList ++
        (decimal line.maxNs.toInt ++ ['\n']))))))))) := by
  have hassoc : ∀ a b c d e f g h : List Char, a ++ ([' '] ++ b) ++ c ++ ([' '] ++ d) ++ e ++
      ([' '] ++ f) ++ g ++ h = a ++ ([' '] ++ (b ++ (c ++ ([' '] ++ (d ++ (e ++ ([' '] ++
        (f ++ (g ++ h))))))))) := by
    intro a b c d e f g h
    simp only [List.append_assoc]
  have hcount : " count=".toList = [' '] ++ "count=".toList := by decide
  have havg : " avg_ns=".toList = [' '] ++ "avg_ns=".toList := by decide
  have hmax : " max_ns=".toList = [' '] ++ "max_ns=".toList := by decide
  rw [lineText, hcount, havg, hmax, hassoc]

/-- All that comes before the last line. -/
def heading (variant : Variant) (s : State) : List Char :=
  "VARIANT=".toList ++ variant.name.toList ++ ['\n'] ++ s.lines.flatMap (lineText "[STATS]")

theorem not_mem_heading (v : Variant) (s : State) : 'F' ∉ heading v s := by
  intro hmem
  rcases List.mem_append.mp hmem with hmem | hmem
  · rcases List.mem_append.mp hmem with hmem | hmem
    · rcases List.mem_append.mp hmem with hmem | hmem
      · exact absurd hmem (by decide)
      · exact (name_plain v 'F' hmem).2.2.2 rfl
    · exact absurd hmem (by decide)
  · obtain ⟨line, -, hmem⟩ := List.mem_flatMap.mp hmem
    exact not_mem_lineText line hmem

/-- What the script reads is the name and, if there is a last line, its numbers. -/
theorem parse_stdout (v : Variant) (s : State)
    (hfinal : ∀ line ∈ s.final, 0 ≤ line.avgNs.toInt ∧ 0 ≤ line.maxNs.toInt) :
    parseServerOutput (stdout v s) =
      (some v.name.toList, s.final.map (·.count.toNat), s.final.map (·.avgNs.toInt.toNat),
        s.final.map (·.maxNs.toInt.toNat)) := by
  have hname : (splitlines (stdout v s)).findSome? variantName = some v.name.toList := by
    have hjoin : ∀ a b c : List Char, a ++ ['\n'] ++ b ++ c = a ++ '\n' :: (b ++ c) := by simp
    have hkey : ∀ c ∈ "VARIANT=".toList, isLineBreak c = false := by
      have hall : "VARIANT=".toList.all (!isLineBreak ·) := rfl
      simpa using hall
    have hline : ∀ c ∈ "VARIANT=".toList ++ v.name.toList, isLineBreak c = false := by
      intro c hc
      rcases List.mem_append.mp hc with hc | hc
      · exact hkey c hc
      · exact (name_plain v c hc).2.1
    have htext : stdout v s = ("VARIANT=".toList ++ v.name.toList) ++
        '\n' :: (s.lines.flatMap (lineText "[STATS]") ++ s.final.elim [] (lineText "FINAL_STATS")) := by
      exact hjoin _ _ _
    rw [htext, splitlines_append hline, List.findSome?_cons, variantName_name]
  have hstart : Regex.StartsWith "FINAL_STATS".toList finalRe := .seq .lit
  have hsearch : finalRe.search (stdout v s) = finalRe.search (s.final.elim [] (lineText "FINAL_STATS")) :=
    hstart.search_append (not_mem_heading v s)
  cases hlast : s.final with
  | none =>
      have hnone : finalRe.search [] = none := hstart.search_eq_none List.not_mem_nil
      rw [hlast] at hsearch
      simp only [parseServerOutput, hname, hsearch.trans hnone, Option.map_none]
  | some line =>
      obtain ⟨havg, hmax⟩ := hfinal line hlast
      have htext := lineText_eq "FINAL_STATS" line
      rw [decimal_natCast, decimal_of_nonneg havg, decimal_of_nonneg hmax] at htext
      have hfirst := (first_finalRe line.count.toNat line.avgNs.toInt.toNat line.maxNs.toInt.toNat ['\n']
        (by rintro c ⟨⟩; rfl)).search
      rw [← htext] at hfirst
      rw [hlast] at hsearch
      simp only [parseServerOutput, hname, hsearch.trans hfirst, int_toDigits, Option.map_some]

/-! ## As long as nothing overflows -/

/-- The latencies as numbers. -/
def numbers (latencies : List Int64) : List ℤ := latencies.map Int64.toInt

section
variable {latencies : List Int64}

theorem sum_nonneg (hpos : ∀ latency ∈ latencies, 0 ≤ latency.toInt) : 0 ≤ (numbers latencies).sum := by
  refine List.sum_nonneg fun z hz => ?_
  obtain ⟨latency, hmem, rfl⟩ := List.mem_map.mp hz
  exact hpos latency hmem

theorem toInt_sum (hpos : ∀ latency ∈ latencies, 0 ≤ latency.toInt)
    (hfits : (numbers latencies).sum < 2 ^ 63) : latencies.sum.toInt = (numbers latencies).sum := by
  induction latencies with
  | nil => rfl
  | cons latency latencies ih =>
      have hhead : 0 ≤ latency.toInt := hpos latency List.mem_cons_self
      have htail : ∀ l ∈ latencies, 0 ≤ l.toInt := fun l hl => hpos l (List.mem_cons_of_mem _ hl)
      have hnonneg := sum_nonneg htail
      have hsum : (numbers (latency :: latencies)).sum = latency.toInt + (numbers latencies).sum := rfl
      rw [hsum] at hfits ⊢
      rw [List.sum_cons, Int64.toInt_add, ih htail (by omega)]
      exact Int.bmod_eq_of_le (by omega) (by omega)

theorem le_foldl_max (zs : List ℤ) : ∀ z, z ≤ zs.foldl max z := by
  induction zs with
  | nil => exact fun z => le_refl z
  | cons x zs ih => exact fun z => (le_max_left z x).trans (ih (max z x))

theorem toInt_greatest (latencies : List Int64) :
    (greatest latencies).toInt = (numbers latencies).foldl max 0 := by
  induction latencies using List.reverseRecOn with
  | nil => rfl
  | append_singleton latencies latency ih =>
      rw [greatest_concat, numbers, List.map_append, List.foldl_append]
      show (if greatest latencies < latency then latency else greatest latencies).toInt =
        max ((numbers latencies).foldl max 0) latency.toInt
      rw [← ih]
      split
      · next hlt => exact (max_eq_right (Int64.lt_iff_toInt_lt.mp hlt).le).symm
      · next hge => exact (max_eq_left (Int.not_lt.mp (mt Int64.lt_iff_toInt_lt.mpr hge))).symm

end

/-- The four values of the script for a server that has handled messages of these latencies. -/
def expected (variant : Variant) (latencies : List Int64) :
    Option (List Char) × Option ℕ × Option ℕ × Option ℕ :=
  if latencies = [] then (some variant.name.toList, none, none, none)
  else
    (some variant.name.toList, some latencies.length,
      some ((numbers latencies).sum / latencies.length).toNat,
      some ((numbers latencies).foldl max 0).toNat)

theorem lastLine_eq {latencies : List Int64} (hpos : ∀ latency ∈ latencies, 0 ≤ latency.toInt)
    (hcount : latencies.length < 2 ^ 63) (hfits : (numbers latencies).sum < 2 ^ 63)
    (hne : latencies ≠ []) : ∃ line, lastLine latencies = some line ∧
      line.count.toNat = latencies.length ∧
      line.avgNs.toInt = (numbers latencies).sum / latencies.length ∧
      line.maxNs.toInt = (numbers latencies).foldl max 0 := by
  have hlength : 0 < latencies.length := List.length_pos_iff.mpr hne
  have htoNat : (UInt64.ofNat latencies.length).toNat = latencies.length :=
    UInt64.toNat_ofNat_of_lt' (hcount.trans (by decide))
  have hpositive : 0 < UInt64.ofNat latencies.length := by
    rw [UInt64.lt_iff_toNat_lt, htoNat]
    exact hlength
  have hdivisor : (UInt64.ofNat latencies.length).toInt64.toInt = latencies.length := by
    rw [UInt64.toInt64_ofNat', Int64.toInt_ofNat_of_lt hcount]
  refine ⟨_, if_pos hpositive, htoNat, ?_, toInt_greatest latencies⟩
  have hsum := toInt_sum hpos hfits
  have hnonneg := sum_nonneg hpos
  have hmin : latencies.sum ≠ Int64.minValue := by
    intro heq
    rw [heq] at hsum
    have hneg : Int64.minValue.toInt < 0 := by decide
    omega
  show (latencies.sum / (UInt64.ofNat latencies.length).toInt64).toInt = _
  rw [Int64.toInt_div_of_ne_left _ _ hmin, hsum, hdivisor, Int.tdiv_eq_ediv_of_nonneg hnonneg]

/-- **The table has the numbers of the run.**  In every interleaving of the accounting, the reporter
and `main`, once `main` has returned, the script reads the variant's name, the number of messages,
their mean and their maximum from what was printed, whatever lines came before; and that there are
none if there was no message. -/
theorem parse_of_run (v : Variant) (as : List Action)
    (hreturned : (schedule next as init).main = .returned)
    (hpos : ∀ latency ∈ (schedule next as init).latencies, 0 ≤ latency.toInt)
    (hcount : (schedule next as init).latencies.length < 2 ^ 63)
    (hfits : (numbers (schedule next as init).latencies).sum < 2 ^ 63) :
    parseServerOutput (stdout v (schedule next as init)) =
      expected v (schedule next as init).latencies := by
  generalize hs : schedule next as init = s at *
  have hfinal : s.final = lastLine s.latencies := hs ▸ (reachable_inv as).final (hs ▸ hreturned)
  by_cases hempty : s.latencies = []
  · have hnone : s.final = none := by
      rw [hfinal, hempty]
      rfl
    rw [parse_stdout v s (by simp [hnone]), expected, if_pos hempty, hnone]
    rfl
  · obtain ⟨line, hline, hcnt, havg, hmax⟩ := lastLine_eq hpos hcount hfits hempty
    rw [hline] at hfinal
    have hsigns : 0 ≤ line.avgNs.toInt ∧ 0 ≤ line.maxNs.toInt := by
      rw [havg, hmax]
      exact ⟨Int.ediv_nonneg (sum_nonneg hpos) (Int.natCast_nonneg _), le_foldl_max _ 0⟩
    rw [parse_stdout v s (by simp [hfinal, hsigns]), expected, if_neg hempty, hfinal]
    simp only [Option.map_some, hcnt, havg, hmax]

/-- Two messages; the reporter loads in the middle of the second. -/
theorem parse_of_run_two :
    let as : List Action :=
      [.consumer, .message 300, .consumer, .consumer, .consumer, .consumer, .consumer, .reporter,
        .message 100, .consumer, .reporter, .consumer, .reporter, .consumer, .casFails, .reporter,
        .main, .consumer, .consumer, .reporter, .main, .main, .main, .main, .main]
    parseServerOutput (stdout .v3 (schedule next as init)) =
      (some "epoll_pool_mutex".toList, some 2, some 200, some 300) := by
  intro as
  have hlatencies : (schedule next as init).latencies = [300, 100] := by decide
  have hpos : ∀ latency ∈ (schedule next as init).latencies, 0 ≤ latency.toInt := by
    rw [hlatencies]
    exact List.forall_mem_cons.mpr ⟨by decide, List.forall_mem_singleton.mpr (by decide)⟩
  have hparse := parse_of_run .v3 as (by decide) hpos (by decide) (by decide)
  rw [hlatencies] at hparse
  exact hparse

end LearnCpp.Latency.Report
