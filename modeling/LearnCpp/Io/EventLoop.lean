/-
# `LearnCpp.Io.EventLoop` — a callback is filed before its descriptor is registered

`topics/io/event_loop_epoll_kqueue.cpp`: `add_fd` files the callback in `callbacks_`
and then asks epoll for the descriptor; where epoll refuses, it throws.  The map
keeps what was filed, so a refused call leaves its callback behind, and puts it in
the place of the one that the descriptor is registered with.

What epoll answers comes with the call.  `registered` has, for each descriptor that
epoll has taken, the callback of the call that it was taken for:

    callbacks_  =  registered      ⟺      no refused call brings another callback

The branch for kqueue does the same, with `kevent` for `epoll_ctl`.
-/
import LearnCpp.Lib.Run
import Mathlib.Logic.Function.Basic

namespace LearnCpp.Io.EventLoop

open Lib

variable {C : Type}

/-- A call of `add_fd`, and whether `epoll_ctl` takes the descriptor. -/
structure Call (C : Type) where
  fd : ℤ
  onRead : C
  taken : Bool
  deriving DecidableEq

structure State (C : Type) where
  callbacks : ℤ → Option C := fun _ => none
  registered : ℤ → Option C := fun _ => none

def addFd (c : Call C) (s : State C) : Except String Unit × State C :=
  let s := { s with callbacks := Function.update s.callbacks c.fd (some c.onRead) }
  if c.taken then
    (.ok (), { s with registered := Function.update s.registered c.fd (some c.onRead) })
  else (.error "epoll_ctl add", s)

/-- The callbacks that `run_once` calls, one after the other; `ready` is what
`epoll_wait` has put into `events`, or `none` where it failed. -/
def runOnce (ready : Option (List ℤ)) (s : State C) : List C :=
  match ready with
  | none => []
  | some fds => fds.filterMap s.callbacks

def next (c : Call C) (s : State C) : State C := (addFd c s).2

/-- The loop after some calls, those that threw among them. -/
def after (calls : List (Call C)) : State C := exec next calls {}

/-- Registration is all or nothing: a call that throws leaves `callbacks_` as it was,
and after each call the map has the descriptors that epoll has, with their callbacks. -/
structure Atomic (calls : List (Call C)) : Prop where
  unchanged : ∀ pre c error, pre ++ [c] <+: calls → (addFd c (after pre)).1 = .error error →
    (addFd c (after pre)).2.callbacks = (after pre).callbacks
  agrees : ∀ pre, pre <+: calls → (after pre).callbacks = (after pre).registered

section
variable {calls : List (Call C)} {c : Call C} {s : State C}

theorem after_concat (pre : List (Call C)) (c : Call C) :
    after (pre ++ [c]) = (addFd c (after pre)).2 :=
  exec_concat ..

theorem addFd_taken (htaken : c.taken = true) :
    addFd c s = (.ok (),
      { callbacks := Function.update s.callbacks c.fd (some c.onRead)
        registered := Function.update s.registered c.fd (some c.onRead) }) := by
  rw [addFd, if_pos htaken]

theorem addFd_refused (hrefused : c.taken = false) :
    addFd c s = (.error "epoll_ctl add",
      { s with callbacks := Function.update s.callbacks c.fd (some c.onRead) }) := by
  rw [addFd, if_neg (by rw [hrefused]; exact Bool.false_ne_true)]

theorem refused_of_error {error : String} (herror : (addFd c s).1 = .error error) :
    c.taken = false := by
  cases htaken : c.taken with
  | false => rfl
  | true =>
      rw [addFd_taken htaken] at herror
      cases herror

/-- Where registration is atomic, `run_once` calls for each ready descriptor what it is
registered with. -/
theorem Atomic.runOnce_eq (h : Atomic calls) (ready : List ℤ) :
    runOnce (some ready) (after calls) = ready.filterMap (after calls).registered := by
  rw [runOnce, h.agrees calls (List.prefix_refl calls)]

end

/-- **Registration is atomic** just when every call that epoll refuses is for a descriptor
that this loop has registered with the same callback. -/
theorem atomic_iff (calls : List (Call C)) :
    Atomic calls ↔ ∀ pre c, pre ++ [c] <+: calls → c.taken = false →
      (after pre).registered c.fd = some c.onRead := by
  constructor
  · intro h pre c hp hrefused
    have hunchanged := h.unchanged pre c "epoll_ctl add" hp (by rw [addFd_refused hrefused])
    rw [addFd_refused hrefused] at hunchanged
    rw [← h.agrees pre (isPrefix_of_concat hp), ← hunchanged]
    exact Function.update_self ..
  · intro hsame
    have hagrees : ∀ pre, pre <+: calls → (after pre).callbacks = (after pre).registered := by
      refine exec_rule (fun _ (s : State C) => s.callbacks = s.registered) rfl ?_
      intro pre c hp ih
      cases htaken : c.taken with
      | false =>
          have hfiled : (after pre).callbacks c.fd = some c.onRead :=
            (congrFun ih c.fd).trans (hsame pre c hp htaken)
          rw [next, addFd_refused htaken]
          exact (Function.update_eq_self_iff.mpr hfiled.symm).trans ih
      | true =>
          rw [next, addFd_taken htaken]
          exact congrArg (Function.update · c.fd (some c.onRead)) ih
    refine ⟨fun pre c error hp herror => ?_, hagrees⟩
    have hrefused := refused_of_error herror
    have hfiled : (after pre).callbacks c.fd = some c.onRead := by
      rw [hagrees pre (isPrefix_of_concat hp)]
      exact hsame pre c hp hrefused
    rw [addFd_refused hrefused]
    exact Function.update_eq_self_iff.mpr hfiled.symm

/-- The descriptor 3 is registered once more, which `epoll_ctl` refuses. -/
theorem not_atomic_twice : ¬ Atomic [⟨3, "A", true⟩, ⟨3, "B", false⟩] := by
  intro h
  have hagrees := congrFun (h.agrees _ (List.prefix_refl _)) 3
  exact absurd hagrees (by decide)

end LearnCpp.Io.EventLoop
