/-
# `LearnCpp.Lib.Descriptors` — the open descriptors of a process

A descriptor is a number that stands for an object, a socket for example, from the
call that opens the object until the number is closed; then it may stand for another.
The objects themselves are numbered in the order in which they were opened, so
that no two of them are taken for one another:

    opened   =   those that the descriptors in hand stand for   ++   those closed

`Held` says this of the descriptors `fds`, each of them being open and there once.
Opening a descriptor adds it to `fds`, closing one of `fds` takes it off, and to
close any other is a mistake.
-/
import Mathlib.Data.List.Nodup
import Mathlib.Data.List.Perm.Basic
import Mathlib.Data.List.Range
import Mathlib.Logic.Function.Basic
import Mathlib.Tactic.Common

namespace LearnCpp.Lib

/-- `κ` is what is noted when an object is closed. -/
structure Descriptors (κ : Type) where
  /-- The object that a descriptor stands for. -/
  refers : ℕ → Option ℕ := fun _ => none
  opened : ℕ := 0
  closed : List (ℕ × κ) := []
  /-- A descriptor was closed that was not open. -/
  bad : Bool := false

namespace Descriptors

variable {κ : Type}

/-- A new object, at a descriptor. -/
def openAt (fd : ℕ) (d : Descriptors κ) : Descriptors κ :=
  { d with refers := Function.update d.refers fd (some d.opened), opened := d.opened + 1 }

def close (fd : ℕ) (why : κ) (d : Descriptors κ) : Descriptors κ :=
  match d.refers fd with
  | some o => { d with refers := Function.update d.refers fd none, closed := d.closed ++ [(o, why)] }
  | none => { d with bad := true }

/-- The objects that were closed. -/
def gone (d : Descriptors κ) : List ℕ := d.closed.map Prod.fst

/-- The descriptors `fds` are the open ones, and each object is with one of them or closed once. -/
structure Held (d : Descriptors κ) (fds : List ℕ) : Prop where
  nodup : fds.Nodup
  mem : ∀ fd, fd ∈ fds ↔ (d.refers fd).isSome
  objects : (fds.filterMap d.refers ++ d.gone).Perm (List.range d.opened)
  sound : d.bad = false

section
variable {d : Descriptors κ} {fds fds' : List ℕ} {fd o : ℕ} {why : κ}

theorem held_init : Held ({} : Descriptors κ) [] where
  nodup := List.nodup_nil
  mem := fun fd => ⟨fun h => absurd h List.not_mem_nil, fun h => by cases h⟩
  objects := List.Perm.refl _
  sound := rfl

theorem Held.perm (h : Held d fds) (hperm : fds'.Perm fds) : Held d fds' where
  nodup := hperm.nodup_iff.mpr h.nodup
  mem := fun fd => hperm.mem_iff.trans (h.mem fd)
  objects := ((hperm.filterMap _).append_right _).trans h.objects
  sound := h.sound

theorem Held.refers_of_mem (h : Held d fds) (hfd : fd ∈ fds) : ∃ o, d.refers fd = some o :=
  Option.isSome_iff_exists.mp ((h.mem fd).mp hfd)

theorem filterMap_update_refers (hfd : fd ∉ fds) (new : Option ℕ) :
    fds.filterMap (Function.update d.refers fd new) = fds.filterMap d.refers := by
  refine List.filterMap_congr fun fd' hfd' => Function.update_of_ne ?_ ..
  rintro rfl
  exact hfd hfd'

theorem Held.openAt (h : Held d fds) (hfree : d.refers fd = none) : Held (d.openAt fd) (fd :: fds) := by
  have hfd : fd ∉ fds := by
    rw [h.mem, hfree]
    exact Bool.false_ne_true
  have hself : Function.update d.refers fd (some d.opened) fd = some d.opened := Function.update_self ..
  refine ⟨List.nodup_cons.mpr ⟨hfd, h.nodup⟩, fun fd' => ?_, ?_, h.sound⟩
  · show fd' ∈ fd :: fds ↔ (Function.update d.refers fd (some d.opened) fd').isSome
    rcases eq_or_ne fd' fd with rfl | hne
    · rw [hself]
      exact ⟨fun _ => rfl, fun _ => List.mem_cons_self⟩
    · rw [Function.update_of_ne hne, ← h.mem, List.mem_cons, or_iff_right hne]
  · show ((fd :: fds).filterMap (Function.update d.refers fd (some d.opened)) ++ d.gone).Perm
      (List.range (d.opened + 1))
    rw [List.filterMap_cons_some hself, filterMap_update_refers hfd, List.range_succ]
    exact (h.objects.cons d.opened).trans (List.perm_append_singleton _ _).symm

theorem refers_openAt_of_ne {fd' : ℕ} (hne : fd' ≠ fd) : (d.openAt fd).refers fd' = d.refers fd' :=
  Function.update_of_ne hne ..

theorem refers_close_of_ne {fd' : ℕ} (hne : fd' ≠ fd) :
    (d.close fd why).refers fd' = d.refers fd' := by
  rw [close]
  split
  next => exact Function.update_of_ne hne ..
  next => rfl

theorem close_of_some (ho : d.refers fd = some o) : d.close fd why =
    { d with refers := Function.update d.refers fd none, closed := d.closed ++ [(o, why)] } := by
  rw [close, ho]

theorem closed_close (fd : ℕ) (why : κ) (d : Descriptors κ) :
    (d.close fd why).closed = d.closed ++ (d.refers fd).toList.map fun o => (o, why) := by
  rw [close]
  split
  next o ho =>
    rw [ho]
    rfl
  next hnone =>
    rw [hnone]
    exact (List.append_nil _).symm

theorem Held.close (h : Held d (fd :: fds)) : Held (d.close fd why) fds := by
  obtain ⟨hfd, hnodup⟩ := List.nodup_cons.mp h.nodup
  obtain ⟨o, ho⟩ := h.refers_of_mem List.mem_cons_self
  rw [close_of_some ho]
  refine ⟨hnodup, fun fd' => ?_, ?_, h.sound⟩
  · show fd' ∈ fds ↔ (Function.update d.refers fd none fd').isSome
    rcases eq_or_ne fd' fd with rfl | hne
    · rw [Function.update_self]
      exact ⟨fun hmem => absurd hmem hfd, fun hsome => by cases hsome⟩
    · rw [Function.update_of_ne hne, ← h.mem, List.mem_cons, or_iff_right hne]
  · show (fds.filterMap (Function.update d.refers fd none) ++ (d.closed ++ [(o, why)]).map Prod.fst).Perm _
    have hobjects := h.objects
    rw [List.filterMap_cons_some ho] at hobjects
    rw [filterMap_update_refers hfd, List.map_append, ← List.append_assoc]
    exact (List.perm_append_singleton _ _).trans hobjects

/-! ## What this says of the objects -/

/-- No object is closed twice. -/
theorem Held.gone_nodup (h : Held d fds) : d.gone.Nodup :=
  (List.nodup_append.mp (h.objects.nodup_iff.mpr List.nodup_range)).2.1

/-- **Each object that was opened and is not closed is there once.** -/
theorem Held.objects_perm (h : Held d fds) :
    (fds.filterMap d.refers).Perm ((List.range d.opened).filter fun o => o ∉ d.gone) := by
  have hnodup := h.objects.nodup_iff.mpr List.nodup_range
  obtain ⟨hheld, -, hapart⟩ := List.nodup_append.mp hnodup
  refine (List.perm_ext_iff_of_nodup hheld (List.nodup_range.filter _)).mpr fun o => ?_
  rw [List.mem_filter, ← h.objects.mem_iff, List.mem_append, decide_eq_true_iff]
  constructor
  · intro ho
    exact ⟨.inl ho, fun hgone => hapart o ho o hgone rfl⟩
  · rintro ⟨ho | hgone, hnot⟩
    · exact ho
    · exact absurd hgone hnot

theorem Held.refers_perm (h : Held d fds) :
    (fds.map d.refers).Perm (((List.range d.opened).filter fun o => o ∉ d.gone).map some) := by
  have hsome : fds.map d.refers = (fds.filterMap d.refers).map some := by
    rw [List.map_filterMap, ← List.filterMap_eq_map]
    refine List.filterMap_congr fun fd hfd => ?_
    obtain ⟨o, ho⟩ := h.refers_of_mem hfd
    show some (d.refers fd) = _
    rw [ho]
    rfl
  rw [hsome]
  exact h.objects_perm.map some

theorem Held.all_gone (h : Held d []) : d.gone.Perm (List.range d.opened) := h.objects

end

end Descriptors

end LearnCpp.Lib
