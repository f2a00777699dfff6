/-
# `LearnCpp.Latency.Stats` — counting latencies while somebody looks

The accounting is the same in all variants of `extras/latency`.  `consumer_thread`
adds the latency of a message to `g_total_ns`, one to `g_count`, and then raises
`g_max_ns` by compare-and-swap; `stats_thread` loads the three, one after the
other, for the lines it prints; `main` clears `g_running`, joins both and
prints the last line.  Each access to an atomic is a step.

The three loads of a line may fall into the accounting of a message, so that the
numbers on it belong to different numbers of messages:

    count   of k      total   of j      max   of l           k ≤ j ≤ l + 1

In the last line `k`, `j` and `l` are the number of all messages.
-/
import LearnCpp.Lib.Schedule
import Mathlib.Algebra.BigOperators.Group.List.Basic

namespace LearnCpp.Latency.Stats

open Lib

/-- What is printed on a line. -/
structure Line where
  count : UInt64
  avgNs : Int64
  maxNs : Int64
  deriving DecidableEq, Repr

/-- `consumer_thread`; the `latency` of the message in hand. -/
inductive Consumer where
  | test
  | pop
  | addTotal (latency : Int64)
  | addCount (latency : Int64)
  | loadMax (latency : Int64)
  /-- at the head of the loop, with `prev` -/
  | raise (latency prev : Int64)
  | returned
  deriving DecidableEq, Repr

/-- `stats_thread`; what it has loaded for the line. -/
inductive Reporter where
  | test
  | loadCount
  | loadTotal (cnt : UInt64)
  | loadMax (cnt : UInt64) (avgNs : Int64)
  | returned
  deriving DecidableEq, Repr

/-- `main`, from `std::cin.get()` on. -/
inductive Main where
  | read
  | joinConsumer
  | joinReporter
  | loadCount
  | loadTotal (cnt : UInt64)
  | loadMax (cnt : UInt64) (avgNs : Int64)
  | returned
  deriving DecidableEq, Repr

/-- `lines` and `final` are what has been printed; `latencies` records those of the messages. -/
structure State where
  running : Bool := true
  totalNs : Int64 := 0
  count : UInt64 := 0
  maxNs : Int64 := 0
  consumer : Consumer := .test
  reporter : Reporter := .test
  main : Main := .read
  lines : List Line := []
  final : Option Line := none
  latencies : List Int64 := []
  deriving DecidableEq, Repr

inductive Action where
  /-- at `pop`: the queue is empty -/
  | consumer
  /-- `pop` hands out a message, for which `now_ns() - msg->recv_ns` is `latency` -/
  | message (latency : Int64)
  /-- `compare_exchange_weak` fails although `g_max_ns` is `prev` -/
  | casFails
  | reporter
  | main
  deriving DecidableEq, Repr

def consumerStep (s : State) : Option State :=
  match s.consumer with
  | .test => some { s with consumer := if s.running then .pop else .returned }
  | .pop => some { s with consumer := .test }
  | .addTotal latency =>
      some { s with totalNs := s.totalNs + latency, consumer := .addCount latency }
  | .addCount latency => some { s with count := s.count + 1, consumer := .loadMax latency }
  | .loadMax latency => some { s with consumer := .raise latency s.maxNs }
  | .raise latency prev =>
      if prev < latency then
        if s.maxNs = prev then some { s with maxNs := latency, consumer := .test }
        else some { s with consumer := .raise latency s.maxNs }
      else some { s with consumer := .test }
  | .returned => none

def message (latency : Int64) (s : State) : Option State :=
  if s.consumer = .pop then
    some { s with consumer := .addTotal latency, latencies := s.latencies ++ [latency] }
  else none

def casFails (s : State) : Option State :=
  match s.consumer with
  | .raise latency prev =>
      if prev < latency then some { s with consumer := .raise latency s.maxNs } else none
  | _ => none

def reporterStep (s : State) : Option State :=
  match s.reporter with
  | .test => some { s with reporter := if s.running then .loadCount else .returned }
  | .loadCount => some { s with reporter := if 0 < s.count then .loadTotal s.count else .test }
  | .loadTotal cnt => some { s with reporter := .loadMax cnt (s.totalNs / cnt.toInt64) }
  | .loadMax cnt avgNs =>
      some { s with reporter := .test, lines := s.lines ++ [⟨cnt, avgNs, s.maxNs⟩] }
  | .returned => none

def mainStep (s : State) : Option State :=
  match s.main with
  | .read => some { s with running := false, main := .joinConsumer }
  | .joinConsumer => if s.consumer = .returned then some { s with main := .joinReporter } else none
  | .joinReporter => if s.reporter = .returned then some { s with main := .loadCount } else none
  | .loadCount => some { s with main := if 0 < s.count then .loadTotal s.count else .returned }
  | .loadTotal cnt => some { s with main := .loadMax cnt (s.totalNs / cnt.toInt64) }
  | .loadMax cnt avgNs => some { s with main := .returned, final := some ⟨cnt, avgNs, s.maxNs⟩ }
  | .returned => none

def next : Action → State → Option State
  | .consumer, s => consumerStep s
  | .message latency, s => message latency s
  | .casFails, s => casFails s
  | .reporter, s => reporterStep s
  | .main, s => mainStep s

def init : State := {}

/-! ## What the counters are -/

/-- The greatest of the latencies, or zero. -/
def greatest (latencies : List Int64) : Int64 :=
  latencies.foldl (fun greatest latency => if greatest < latency then latency else greatest) 0

namespace Consumer

/-- Whether the message in hand is still to be counted in the total, the count or the maximum. -/
@[simp] def owesTotal : Consumer → ℕ
  | .addTotal _ => 1
  | _ => 0

@[simp] def owesCount : Consumer → ℕ
  | .addTotal _ => 1
  | .addCount _ => 1
  | _ => 0

@[simp] def owesMax : Consumer → ℕ
  | .addTotal _ => 1
  | .addCount _ => 1
  | .loadMax _ => 1
  | .raise _ _ => 1
  | _ => 0

/-- The latency of the message in hand. -/
@[simp] def inHand : Consumer → Option Int64
  | .addTotal latency => some latency
  | .addCount latency => some latency
  | .loadMax latency => some latency
  | .raise latency _ => some latency
  | _ => none

end Consumer

/-- The latencies that have come into the total, the count and the maximum. -/
@[simp] def State.inTotal (s : State) : ℕ := s.latencies.length - s.consumer.owesTotal
@[simp] def State.inCount (s : State) : ℕ := s.latencies.length - s.consumer.owesCount
@[simp] def State.inMax (s : State) : ℕ := s.latencies.length - s.consumer.owesMax

/-- The three counters, while one message may be on its way into them. -/
structure Counted (s : State) : Prop where
  inHand : ∀ latency ∈ s.consumer.inHand, ∃ before, s.latencies = before ++ [latency]
  totalNs : s.totalNs = (s.latencies.take s.inTotal).sum
  count : s.count = UInt64.ofNat s.inCount
  maxNs : s.maxNs = greatest (s.latencies.take s.inMax)
  prev : ∀ latency prev, s.consumer = .raise latency prev → prev = s.maxNs

/-- More has been counted, and what was stays. -/
structure Grown (s s' : State) : Prop where
  latencies : s.latencies <+: s'.latencies
  inTotal : s.inTotal ≤ s'.inTotal
  inMax : s.inMax ≤ s'.inMax

section
variable {s s' : State}

theorem inCount_le_inTotal (s : State) : s.inCount ≤ s.inTotal := by
  cases hc : s.consumer <;>
    simp [State.inCount, State.inTotal, Consumer.owesCount, Consumer.owesTotal, hc]

theorem inTotal_le (s : State) : s.inTotal ≤ s.inMax + 1 ∧ s.inTotal ≤ s.latencies.length := by
  cases hc : s.consumer <;>
    simp [State.inMax, State.inTotal, Consumer.owesMax, Consumer.owesTotal, hc] <;> omega

theorem Grown.take {n : ℕ} (h : Grown s s') (hn : n ≤ s.latencies.length) :
    s'.latencies.take n = s.latencies.take n := by
  obtain ⟨more, hmore⟩ := h.latencies
  rw [← hmore, List.take_append_of_le_length hn]

theorem greatest_concat (before : List Int64) (latency : Int64) :
    greatest (before ++ [latency]) =
      if greatest before < latency then latency else greatest before := by
  rw [greatest, List.foldl_append]
  rfl

theorem take_settled (latencies : List Int64) : latencies.take (latencies.length - 0) = latencies :=
  List.take_length

theorem take_pending {latencies before : List Int64} {latency : Int64}
    (hbefore : latencies = before ++ [latency]) : latencies.take (latencies.length - 1) = before := by
  rw [hbefore, List.length_append, List.length_singleton, Nat.add_sub_cancel, List.take_left]

theorem Consumer.idle {c : Consumer} (hc : c.owesMax = 0) :
    c.owesTotal = 0 ∧ c.owesCount = 0 ∧ c.inHand = none := by
  cases c with
  | test | pop | returned => exact ⟨rfl, rfl, rfl⟩
  | addTotal latency | addCount latency | loadMax latency => cases hc
  | raise latency prev => cases hc

theorem Counted.settled (h : Counted s) (hs : s.consumer.owesMax = 0) :
    s.totalNs = s.latencies.sum ∧ s.count = UInt64.ofNat s.latencies.length ∧
      s.maxNs = greatest s.latencies := by
  obtain ⟨htotal, hcount, -⟩ := Consumer.idle hs
  refine ⟨?_, ?_, ?_⟩
  · rw [h.totalNs, State.inTotal, htotal, take_settled]
  · rw [h.count, State.inCount, hcount]
    rfl
  · rw [h.maxNs, State.inMax, hs, take_settled]

theorem grown_of_owes (hlatencies : s'.latencies = s.latencies)
    (htotal : s'.consumer.owesTotal ≤ s.consumer.owesTotal)
    (hmax : s'.consumer.owesMax ≤ s.consumer.owesMax) : Grown s s' where
  latencies := by rw [hlatencies]
  inTotal := by
    rw [State.inTotal, State.inTotal, hlatencies]
    exact Nat.sub_le_sub_left htotal _
  inMax := by
    rw [State.inMax, State.inMax, hlatencies]
    exact Nat.sub_le_sub_left hmax _

theorem Counted.goto (h : Counted s) {c : Consumer} (hs : s.consumer.owesMax = 0)
    (hc : c.owesMax = 0) :
    Counted { s with consumer := c } ∧ Grown s { s with consumer := c } := by
  obtain ⟨htotal, hcount, -⟩ := Consumer.idle hs
  obtain ⟨htotal', hcount', hnone⟩ := Consumer.idle hc
  refine ⟨⟨?_, ?_, ?_, ?_, ?_⟩, grown_of_owes rfl ?_ ?_⟩
  · intro latency hlatency
    rw [hnone] at hlatency
    cases hlatency
  · rw [State.inTotal, htotal', ← htotal]
    exact h.totalNs
  · rw [State.inCount, hcount', ← hcount]
    exact h.count
  · rw [State.inMax, hc, ← hs]
    exact h.maxNs
  · rintro latency prev rfl
    cases hc
  · exact htotal'.trans_le (Nat.zero_le _)
  · exact hc.trans_le (Nat.zero_le _)

theorem Counted.message {latency : Int64} (h : Counted s) (hstep : message latency s = some s') :
    Counted s' ∧ Grown s s' := by
  unfold Stats.message at hstep
  split at hstep
  case isFalse => cases hstep
  case isTrue hc =>
    cases hstep
    have hpending : (s.latencies ++ [latency]).take ((s.latencies ++ [latency]).length - 1) =
        s.latencies := take_pending rfl
    have hlength : (s.latencies ++ [latency]).length - 1 = s.latencies.length := by
      rw [List.length_append, List.length_singleton, Nat.add_sub_cancel]
    obtain ⟨htotal, hcount, hmax⟩ := h.settled (congrArg Consumer.owesMax hc)
    refine ⟨⟨?_, ?_, ?_, ?_, nofun⟩, ⟨List.prefix_append _ _, ?_, ?_⟩⟩
    · rintro l ⟨⟩
      exact ⟨s.latencies, rfl⟩
    · exact htotal.trans (congrArg List.sum hpending.symm)
    · exact hcount.trans (congrArg UInt64.ofNat hlength.symm)
    · exact hmax.trans (congrArg greatest hpending.symm)
    · rw [State.inTotal, hc]
      exact hlength.ge
    · rw [State.inMax, hc]
      exact hlength.ge

theorem Counted.settle (h : Counted s) {latency prev maxNs : Int64}
    (hc : s.consumer = .raise latency prev) (hmax : maxNs = greatest s.latencies) :
    Counted { s with maxNs := maxNs, consumer := .test } ∧
      Grown s { s with maxNs := maxNs, consumer := .test } := by
  have htotal := h.totalNs
  have hcount := h.count
  rw [State.inTotal, hc] at htotal
  rw [State.inCount, hc] at hcount
  refine ⟨⟨nofun, htotal, hcount, ?_, nofun⟩, grown_of_owes rfl ?_ (Nat.zero_le _)⟩
  · exact hmax.trans (congrArg greatest (take_settled _).symm)
  · rw [hc]
    exact Nat.le_refl 0

/-- **What a step of the accounting adds** is the message in hand. -/
theorem Counted.consumerStep (h : Counted s) (hstep : consumerStep s = some s') :
    Counted s' ∧ Grown s s' := by
  have hhand := h.inHand
  have htotal := h.totalNs
  have hcount := h.count
  have hmax := h.maxNs
  unfold Stats.consumerStep at hstep
  split at hstep
  case h_1 hc =>
    cases hstep
    refine h.goto (congrArg Consumer.owesMax hc) ?_
    split
    · rfl
    · rfl
  case h_2 hc =>
    cases hstep
    exact h.goto (congrArg Consumer.owesMax hc) rfl
  case h_3 latency hc =>
    rw [hc] at hhand
    obtain ⟨before, hbefore⟩ := hhand latency rfl
    rw [State.inTotal, hc, Consumer.owesTotal, take_pending hbefore] at htotal
    rw [State.inCount, hc] at hcount
    rw [State.inMax, hc] at hmax
    cases hstep
    refine ⟨⟨hhand, ?_, hcount, hmax, nofun⟩, grown_of_owes rfl (Nat.zero_le _) ?_⟩
    · show s.totalNs + latency = (s.latencies.take (s.latencies.length - 0)).sum
      rw [take_settled, htotal, hbefore, List.sum_append, List.sum_singleton]
    · rw [hc]
      exact Nat.le_refl 1
  case h_4 latency hc =>
    rw [hc] at hhand
    obtain ⟨before, hbefore⟩ := hhand latency rfl
    have hlength : s.latencies.length = before.length + 1 := by
      rw [hbefore, List.length_append, List.length_singleton]
    rw [State.inTotal, hc] at htotal
    rw [State.inCount, hc, Consumer.owesCount, hlength, Nat.add_sub_cancel] at hcount
    rw [State.inMax, hc] at hmax
    cases hstep
    refine ⟨⟨hhand, htotal, ?_, hmax, nofun⟩, grown_of_owes rfl (Nat.zero_le _) ?_⟩
    · show s.count + 1 = UInt64.ofNat (s.latencies.length - 0)
      rw [hcount, hlength, Nat.sub_zero, UInt64.ofNat_add]
      rfl
    · rw [hc]
      exact Nat.le_refl 1
  case h_5 latency hc =>
    rw [hc] at hhand
    rw [State.inTotal, hc] at htotal
    rw [State.inCount, hc] at hcount
    rw [State.inMax, hc] at hmax
    cases hstep
    refine ⟨⟨hhand, htotal, hcount, hmax, ?_⟩, grown_of_owes rfl (Nat.zero_le _) ?_⟩
    · rintro l p ⟨⟩
      rfl
    · rw [hc]
      exact Nat.le_refl 1
  case h_6 latency prev hc =>
    obtain rfl := h.prev latency prev hc
    rw [hc] at hhand
    obtain ⟨before, hbefore⟩ := hhand latency rfl
    rw [State.inMax, hc, Consumer.owesMax, take_pending hbefore] at hmax
    have hgreatest := greatest_concat before latency
    rw [← hmax, ← hbefore] at hgreatest
    split at hstep
    · next hlt =>
        rw [if_pos rfl] at hstep
        rw [if_pos hlt] at hgreatest
        cases hstep
        exact h.settle hc hgreatest.symm
    · next hge =>
        rw [if_neg hge] at hgreatest
        cases hstep
        exact h.settle hc hgreatest.symm
  case h_7 => cases hstep

theorem Counted.casFails (h : Counted s) (hstep : casFails s = some s') :
    Counted s' ∧ Grown s s' := by
  unfold Stats.casFails at hstep
  split at hstep
  case h_1 latency prev hc =>
    obtain rfl := h.prev latency prev hc
    split at hstep
    · cases hstep
      -- what it loads is what it has
      have hsame : { s with consumer := .raise latency s.maxNs } = s := by
        rw [← hc]
      rw [hsame]
      exact ⟨h, List.prefix_refl _, Nat.le_refl _, Nat.le_refl _⟩
    · cases hstep
  case h_2 => cases hstep

end

/-! ## What is printed -/

/-- A line made up of the first `k`, `j` and `l` latencies. -/
structure Line.Of (latencies : List Int64) (line : Line) (k j l : ℕ) : Prop where
  count : line.count = UInt64.ofNat k
  avgNs : line.avgNs = (latencies.take j).sum / line.count.toInt64
  maxNs : line.maxNs = greatest (latencies.take l)

/-- What a line says, of the latencies so far. -/
def Line.Near (latencies : List Int64) (line : Line) : Prop :=
  0 < line.count ∧ ∃ k j l, k ≤ j ∧ j ≤ l + 1 ∧ j ≤ latencies.length ∧ l ≤ latencies.length ∧
    line.Of latencies k j l

/-- What the reporter has loaded, as far as it has come. -/
def ReporterAt (s : State) : Reporter → Prop
  | .loadTotal cnt => 0 < cnt ∧ ∃ k, k ≤ s.inTotal ∧ cnt = UInt64.ofNat k
  | .loadMax cnt avgNs =>
      0 < cnt ∧ ∃ k j, k ≤ j ∧ j ≤ s.inMax + 1 ∧ j ≤ s.latencies.length ∧ cnt = UInt64.ofNat k ∧
        avgNs = (s.latencies.take j).sum / cnt.toInt64
  | _ => True

/-- What `main` has loaded; once the others have returned, the counters are what they are. -/
def MainAt (s : State) : Main → Prop
  | .read => s.final = none
  | .joinConsumer => s.final = none
  | .joinReporter => s.consumer = .returned ∧ s.final = none
  | .loadCount => s.consumer = .returned ∧ s.reporter = .returned ∧ s.final = none
  | .loadTotal cnt =>
      s.consumer = .returned ∧ s.reporter = .returned ∧ s.final = none ∧ 0 < cnt ∧ cnt = s.count
  | .loadMax cnt avgNs =>
      s.consumer = .returned ∧ s.reporter = .returned ∧ s.final = none ∧ 0 < cnt ∧ cnt = s.count ∧
        avgNs = s.totalNs / cnt.toInt64
  | .returned =>
      s.consumer = .returned ∧ s.reporter = .returned ∧
        s.final = if 0 < s.count then some ⟨s.count, s.totalNs / s.count.toInt64, s.maxNs⟩ else none

structure Inv (s : State) : Prop where
  counted : Counted s
  lines : ∀ line ∈ s.lines, line.Near s.latencies
  reporter : ReporterAt s s.reporter
  main : MainAt s s.main

section
variable {s s' : State}

theorem Line.Near.grow {line : Line} (hgrown : Grown s s') (h : line.Near s.latencies) :
    line.Near s'.latencies := by
  obtain ⟨hpos, k, j, l, hkj, hjl, hj, hl, hcount, havg, hmax⟩ := h
  have hle := hgrown.latencies.length_le
  refine ⟨hpos, k, j, l, hkj, hjl, hj.trans hle, hl.trans hle, hcount, ?_, ?_⟩
  · rw [hgrown.take hj]
    exact havg
  · rw [hgrown.take hl]
    exact hmax

theorem ReporterAt.grow {reporter : Reporter} (hgrown : Grown s s') (h : ReporterAt s reporter) :
    ReporterAt s' reporter := by
  cases reporter with
  | loadTotal cnt =>
      obtain ⟨hpos, k, hk, hcnt⟩ := h
      exact ⟨hpos, k, hk.trans hgrown.inTotal, hcnt⟩
  | loadMax cnt avgNs =>
      obtain ⟨hpos, k, j, hkj, hjl, hj, hcnt, havg⟩ := h
      refine ⟨hpos, k, j, hkj, hjl.trans (Nat.succ_le_succ hgrown.inMax),
        hj.trans hgrown.latencies.length_le, hcnt, ?_⟩
      rw [hgrown.take hj]
      exact havg
  | test => trivial
  | loadCount => trivial
  | returned => trivial

theorem MainAt.counting (h : MainAt s s.main) (hc : s.consumer ≠ .returned)
    (hfinal : s'.final = s.final) (hmain : s'.main = s.main) : MainAt s' s'.main := by
  rw [hmain]
  cases hm : s.main with
  | read => rw [hm] at h; exact hfinal.trans h
  | joinConsumer => rw [hm] at h; exact hfinal.trans h
  | joinReporter => rw [hm] at h; exact absurd h.1 hc
  | loadCount => rw [hm] at h; exact absurd h.1 hc
  | loadTotal cnt => rw [hm] at h; exact absurd h.1 hc
  | loadMax cnt avgNs => rw [hm] at h; exact absurd h.1 hc
  | returned => rw [hm] at h; exact absurd h.1 hc

theorem MainAt.reporting {m : Main} (h : MainAt s m) (hr : s.reporter ≠ .returned)
    (reporter : Reporter) (lines : List Line) :
    MainAt { s with reporter := reporter, lines := lines } m := by
  cases m with
  | read => exact h
  | joinConsumer => exact h
  | joinReporter => exact h
  | loadCount => exact absurd h.2.1 hr
  | loadTotal cnt => exact absurd h.2.1 hr
  | loadMax cnt avgNs => exact absurd h.2.1 hr
  | returned => exact absurd h.2.1 hr

namespace Inv

theorem counting (h : Inv s) (hstep : Counted s' ∧ Grown s s') (hc : s.consumer ≠ .returned)
    (hlines : s'.lines = s.lines) (hreporter : s'.reporter = s.reporter)
    (hfinal : s'.final = s.final) (hmain : s'.main = s.main) : Inv s' := by
  obtain ⟨hcounted, hgrown⟩ := hstep
  refine ⟨hcounted, ?_, ?_, h.main.counting hc hfinal hmain⟩
  · rw [hlines]
    exact fun line hline => (h.lines line hline).grow hgrown
  · rw [hreporter]
    exact h.reporter.grow hgrown

theorem reporting (h : Inv s) (hr : s.reporter ≠ .returned) {reporter : Reporter}
    {lines : List Line} (hreporter : ReporterAt s reporter) (hlines : ∀ line ∈ lines, line.Near s.latencies) :
    Inv { s with reporter := reporter, lines := lines } where
  counted := ⟨h.counted.inHand, h.counted.totalNs, h.counted.count, h.counted.maxNs, h.counted.prev⟩
  lines := hlines
  reporter := by cases reporter <;> exact hreporter
  main := h.main.reporting hr reporter lines

/-- **Each load of the reporter** comes after the one before it. -/
theorem reporterStep (h : Inv s) (hstep : reporterStep s = some s') : Inv s' := by
  have hreporter := h.reporter
  unfold Stats.reporterStep at hstep
  split at hstep
  case h_1 hr =>
    cases hstep
    refine h.reporting (by simp [hr]) ?_ h.lines
    split <;> trivial
  case h_2 hr =>
    cases hstep
    refine h.reporting (by simp [hr]) ?_ h.lines
    split
    · next hpos => exact ⟨hpos, s.inCount, inCount_le_inTotal s, h.counted.count⟩
    · trivial
  case h_3 cnt hr =>
    rw [hr] at hreporter
    obtain ⟨hpos, k, hk, hcnt⟩ := hreporter
    obtain ⟨hle, hlen⟩ := inTotal_le s
    cases hstep
    refine h.reporting (by simp [hr]) ⟨hpos, k, s.inTotal, hk, hle, hlen, hcnt, ?_⟩ h.lines
    rw [h.counted.totalNs]
  case h_4 cnt avgNs hr =>
    rw [hr] at hreporter
    obtain ⟨hpos, k, j, hkj, hjl, hj, hcnt, havg⟩ := hreporter
    cases hstep
    refine h.reporting (by simp [hr]) trivial fun line hline => ?_
    rcases List.mem_append.mp hline with hold | hnew
    · exact h.lines line hold
    · rw [List.mem_singleton.mp hnew]
      exact ⟨hpos, k, j, s.inMax, hkj, hjl, hj, Nat.sub_le .., hcnt, havg, h.counted.maxNs⟩
  case h_5 => cases hstep

theorem consumerStep (h : Inv s) (hstep : consumerStep s = some s') : Inv s' := by
  have hcounted := h.counted.consumerStep hstep
  unfold Stats.consumerStep at hstep
  split at hstep
  case h_7 => cases hstep
  case h_6 latency prev hc =>
    refine h.counting hcounted (by simp [hc]) ?_ ?_ ?_ ?_
    all_goals
      split at hstep
      · split at hstep <;> cases hstep <;> rfl
      · cases hstep
        rfl
  all_goals
    next hc =>
      cases hstep
      exact h.counting hcounted (by simp [hc]) rfl rfl rfl rfl

theorem message {latency : Int64} (h : Inv s) (hstep : message latency s = some s') : Inv s' := by
  have hcounted := h.counted.message hstep
  unfold Stats.message at hstep
  split at hstep
  case isTrue hc =>
    cases hstep
    exact h.counting hcounted (by simp [hc]) rfl rfl rfl rfl
  case isFalse => cases hstep

theorem casFails (h : Inv s) (hstep : casFails s = some s') : Inv s' := by
  have hcounted := h.counted.casFails hstep
  unfold Stats.casFails at hstep
  split at hstep
  case h_1 latency prev hc =>
    split at hstep
    · cases hstep
      exact h.counting hcounted (by simp [hc]) rfl rfl rfl rfl
    · cases hstep
  case h_2 => cases hstep

/-- Once the threads have been joined, nothing changes between the loads of `main`. -/
theorem mainStep (h : Inv s) (hstep : mainStep s = some s') : Inv s' := by
  have hmain := h.main
  have hcounted := h.counted
  have hkeep : ∀ (running : Bool) (m : Main) (final : Option Line),
      MainAt { s with running := running, main := m, final := final } m →
      Inv { s with running := running, main := m, final := final } := by
    intro running m final hm
    refine ⟨⟨hcounted.inHand, hcounted.totalNs, hcounted.count, hcounted.maxNs, hcounted.prev⟩,
      h.lines, ?_, hm⟩
    have hreporter := h.reporter
    cases hr : s.reporter <;> rw [hr] at hreporter <;> exact hreporter
  unfold Stats.mainStep at hstep
  split at hstep
  case h_1 hm =>
    rw [hm] at hmain
    cases hstep
    exact hkeep false .joinConsumer s.final hmain
  case h_2 hm =>
    rw [hm] at hmain
    split at hstep
    · next hc =>
        cases hstep
        exact hkeep s.running .joinReporter s.final ⟨hc, hmain⟩
    · cases hstep
  case h_3 hm =>
    rw [hm] at hmain
    split at hstep
    · next hr =>
        cases hstep
        exact hkeep s.running .loadCount s.final ⟨hmain.1, hr, hmain.2⟩
    · cases hstep
  case h_4 hm =>
    rw [hm] at hmain
    obtain ⟨hc, hr, hfinal⟩ := hmain
    cases hstep
    refine hkeep s.running _ s.final ?_
    by_cases hpos : 0 < s.count
    · rw [if_pos hpos]
      exact ⟨hc, hr, hfinal, hpos, rfl⟩
    · rw [if_neg hpos]
      exact ⟨hc, hr, hfinal.trans (if_neg hpos).symm⟩
  case h_5 cnt hm =>
    rw [hm] at hmain
    obtain ⟨hc, hr, hfinal, hpos, rfl⟩ := hmain
    cases hstep
    exact hkeep s.running _ s.final ⟨hc, hr, hfinal, hpos, rfl, rfl⟩
  case h_6 cnt avgNs hm =>
    rw [hm] at hmain
    obtain ⟨hc, hr, -, hpos, rfl, rfl⟩ := hmain
    cases hstep
    exact hkeep s.running .returned _ ⟨hc, hr, (if_pos hpos).symm⟩
  case h_7 => cases hstep

theorem step {a : Action} (h : Inv s) (hstep : next a s = some s') : Inv s' := by
  cases a with
  | consumer => exact h.consumerStep hstep
  | message latency => exact h.message hstep
  | casFails => exact h.casFails hstep
  | reporter => exact h.reporterStep hstep
  | main => exact h.mainStep hstep

end Inv

end

theorem init_inv : Inv init where
  counted := ⟨nofun, rfl, rfl, rfl, nofun⟩
  lines := nofun
  reporter := trivial
  main := rfl

theorem reachable_inv (as : List Action) : Inv (schedule next as init) :=
  schedule_rule Inv init_inv (fun _ _ _ h hstep => h.step hstep) as

/-- The last line, if there is one to be printed. -/
def lastLine (latencies : List Int64) : Option Line :=
  if 0 < UInt64.ofNat latencies.length then
    some {
      count := UInt64.ofNat latencies.length
      avgNs := latencies.sum / (UInt64.ofNat latencies.length).toInt64
      maxNs := greatest latencies }
  else none

theorem Inv.final {s : State} (h : Inv s) (hm : s.main = .returned) :
    s.final = lastLine s.latencies := by
  have hmain := h.main
  rw [hm] at hmain
  obtain ⟨hc, -, hfinal⟩ := hmain
  obtain ⟨htotal, hcount, hmax⟩ := h.counted.settled (congrArg Consumer.owesMax hc)
  rw [hfinal, htotal, hcount, hmax, lastLine]

/-- **Each line that is printed while the accounting goes on** is made up of the counters as they
were after `k`, `j` and `l` messages, with `k ≤ j ≤ l + 1`; and the last line is that of all messages. -/
theorem lines_near (as : List Action) :
    let s := schedule next as init
    (∀ line ∈ s.lines, line.Near s.latencies) ∧
      (s.main = .returned → s.final = lastLine s.latencies) :=
  ⟨(reachable_inv as).lines, (reachable_inv as).final⟩

end LearnCpp.Latency.Stats
