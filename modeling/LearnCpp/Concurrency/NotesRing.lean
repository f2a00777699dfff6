/-
# `LearnCpp.Concurrency.NotesRing` — the ring of the bump and double-ring notes

`SPSCRing<T, Capacity>` of `topics/concurrency/notes_spsc_bump_vs_double_ring.cpp`:
a ring whose capacity is a power of two; `head_` is the write index and `tail_`
the read index.  Its operations are atomic here.  The batch operations are loops
of `push` and `pop`, and the systems that use them take one round at a time.
-/
import LearnCpp.Lib.Ring

namespace LearnCpp.Concurrency.SPSCRing

open Lib

variable {T : Type} {k : ℕ}

def push (v : T) (ring : Ring T (2 ^ k)) : Option (Ring T (2 ^ k)) := Ring.maskedPush v ring

def pop (ring : Ring T (2 ^ k)) : Option (T × Ring T (2 ^ k)) := Ring.maskedPop ring

variable {v : T} {ring ring' : Ring T (2 ^ k)}

theorem push_eq_none : push v ring = none ↔ ring.contents.length + 1 = 2 ^ k :=
  Ring.maskedPush_eq_none

theorem push_eq_some (h : push v ring = some ring') :
    ring'.contents = ring.contents ++ [v] ∧ ring.contents.length + 1 < 2 ^ k :=
  Ring.maskedPush_eq_some h

theorem pop_eq_some (h : pop ring = some (v, ring')) : ring.contents = v :: ring'.contents :=
  Ring.maskedPop_eq_some h

/-- Push one value after the other, and never mind whether there is room. -/
def pushAll (vs : List T) (ring : Ring T (2 ^ k)) : Ring T (2 ^ k) :=
  vs.foldl (fun ring v => (push v ring).getD ring) ring

theorem contents_pushAll : ∀ (vs : List T) (ring : Ring T (2 ^ k)),
    (pushAll vs ring).contents =
      ring.contents ++ vs.take (2 ^ k - 1 - ring.contents.length)
  | [], ring => by simp [pushAll]
  | v :: vs, ring => by
      have ih := contents_pushAll vs ((push v ring).getD ring)
      rw [pushAll, List.foldl_cons]
      refine ih.trans ?_
      cases hpush : push v ring with
      | none =>
          have hfull := push_eq_none.mp hpush
          have hzero : 2 ^ k - 1 - ring.contents.length = 0 := by omega
          rw [Option.getD_none, hzero, List.take_zero, List.take_zero]
      | some ring' =>
          obtain ⟨hcontents, hroom⟩ := push_eq_some hpush
          have hsucc : 2 ^ k - 1 - ring.contents.length = 2 ^ k - 1 - (ring.contents.length + 1) + 1 := by
            omega
          rw [Option.getD_some, hcontents, List.length_append, List.length_singleton, hsucc,
            List.take_succ_cons, List.append_assoc]
          rfl

end LearnCpp.Concurrency.SPSCRing
