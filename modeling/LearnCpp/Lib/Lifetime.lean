/-
# `LearnCpp.Lib.Lifetime` — objects that live in cells of storage

Objects are numbered in the order of their construction.  A cell of an array
holds an object or none (`none`: the object there was destroyed, or there was
never one), and a log says how many objects were constructed, which of them were
destroyed, and whether all was well so far: an object may be used or destroyed
only where there is one, and constructed only where there is none.

A piece of code hands objects on: what it leaves in the cells, with what is
destroyed by then, is what it found and what it constructed (`Handover`), and no
object is lost or doubled:

    held' ++ destroyed'   ~   held ++ destroyed ++ [fresh, …, fresh + k - 1]

Pieces compose, and around them any frame is kept.  When the cells belong to
owners, `Custody` says that every object is with one owner or destroyed once;
a piece of code that touches some of the owners keeps it (`Custody.change`).
-/
import Mathlib.Data.List.Nodup
import Mathlib.Data.List.Pairwise
import Mathlib.Data.List.Perm.Basic
import Mathlib.Data.List.ReduceOption

namespace LearnCpp.Lib

abbrev Cell := Option ℕ

structure Log where
  fresh : ℕ := 0
  destroyed : List ℕ := []
  ok : Bool := true
  deriving DecidableEq

namespace Log

/-- The objects in the `n` cells from `a` on are assigned to, or moved from. -/
def use (a n : ℕ) (cells : List Cell) (log : Log) : Log :=
  { log with ok := log.ok && decide (a + n ≤ cells.length) && ((cells.drop a).take n).all Option.isSome }

/-- The objects in the `n` cells from `a` on are destroyed. -/
def destroy (a n : ℕ) (cells : List Cell) (log : Log) : List Cell × Log :=
  (cells.take a ++ List.replicate n none ++ cells.drop (a + n),
    { log with
      destroyed := log.destroyed ++ ((cells.drop a).take n).reduceOption
      ok := log.ok && decide (a + n ≤ cells.length) && ((cells.drop a).take n).all Option.isSome })

/-- An object that is known by a reference is moved from. -/
def moveFrom (object : Cell) (log : Log) : Log :=
  { log with ok := log.ok && object.any fun o => decide (o ∉ log.destroyed) }

/-- New objects are constructed in the `n` cells from `a` on. -/
def construct (a n : ℕ) (cells : List Cell) (log : Log) : List Cell × Log :=
  (cells.take a ++ (List.range' log.fresh n).map some ++ cells.drop (a + n),
    { log with
      fresh := log.fresh + n
      ok := log.ok && decide (a + n ≤ cells.length) && ((cells.drop a).take n).all Option.isNone })

/-- A new array, with an object in each cell. -/
def allocate (n : ℕ) (log : Log) : List Cell × Log := construct 0 n (List.replicate n none) log

/-- An array is given back, and the objects in all of its cells are destroyed. -/
def release (cells : List Cell) (log : Log) : Log := (destroy 0 cells.length cells log).2

end Log

section
variable {pre post : List Cell} {live : List ℕ} {log : Log} {a n : ℕ} {cells : List Cell}

/-! ## What was wrong stays wrong -/

theorem Log.ok_of_use (h : (log.use a n cells).ok = true) : log.ok = true :=
  (Bool.and_eq_true_iff.mp (Bool.and_eq_true_iff.mp h).1).1

theorem Log.ok_of_destroy (h : (log.destroy a n cells).2.ok = true) : log.ok = true :=
  (Bool.and_eq_true_iff.mp (Bool.and_eq_true_iff.mp h).1).1

theorem Log.ok_of_release (h : (log.release cells).ok = true) : log.ok = true :=
  Log.ok_of_destroy h

theorem Log.alive_of_moveFrom {object : Cell} (h : (log.moveFrom object).ok = true) :
    log.ok = true ∧ ∃ o ∈ object, o ∉ log.destroyed := by
  obtain ⟨hok, halive⟩ := Bool.and_eq_true_iff.mp h
  cases object with
  | none => exact absurd halive Bool.false_ne_true
  | some o => exact ⟨hok, o, rfl, of_decide_eq_true halive⟩

theorem Log.moveFrom_alive {o : ℕ} (ho : o ∉ log.destroyed) : log.moveFrom (some o) = log := by
  show { log with ok := log.ok && decide (o ∉ log.destroyed) } = log
  rw [decide_eq_true ho, Bool.and_true]

/-! ## The cells between others -/

theorem drop_between {mid : List Cell} (ha : a = pre.length) :
    (pre ++ mid ++ post).drop a = mid ++ post := by
  rw [ha, List.append_assoc, List.drop_left]

theorem span_between {mid : List Cell} (ha : a = pre.length) (hn : n = mid.length) :
    ((pre ++ mid ++ post).drop a).take n = mid := by
  rw [drop_between ha, hn, List.take_left]

theorem rest_between {mid : List Cell} (ha : a = pre.length) (hn : n = mid.length) :
    (pre ++ mid ++ post).drop (a + n) = post := by
  rw [← List.drop_drop, drop_between ha, hn, List.drop_left]

theorem take_between {mid : List Cell} (ha : a = pre.length) :
    (pre ++ mid ++ post).take a = pre := by
  rw [ha, List.append_assoc, List.take_left]

theorem bound_between {mid : List Cell} (ha : a = pre.length) (hn : n = mid.length) :
    decide (a + n ≤ (pre ++ mid ++ post).length) = true := by
  rw [decide_eq_true_iff, ha, hn, List.length_append, List.length_append]
  exact Nat.le_add_right _ _

theorem all_between {mid : List Cell} {p : Cell → Bool} (ha : a = pre.length) (hn : n = mid.length) :
    (log.ok && decide (a + n ≤ (pre ++ mid ++ post).length) &&
      (((pre ++ mid ++ post).drop a).take n).all p) = (log.ok && mid.all p) := by
  rw [bound_between ha hn, span_between ha hn, Bool.and_true]

theorem all_isSome_live : (live.map some).all Option.isSome = true := by
  rw [List.all_map]
  exact List.all_eq_true.mpr fun _ _ => rfl

@[simp] theorem reduceOption_live {α : Type} (live : List α) : (live.map some).reduceOption = live := by
  rw [List.reduceOption, List.filterMap_map]
  exact List.filterMap_some

theorem Log.use_between {mid : List Cell} (ha : a = pre.length) (hn : n = mid.length) :
    log.use a n (pre ++ mid ++ post) = { log with ok := log.ok && mid.all Option.isSome } := by
  rw [Log.use, all_between ha hn]

theorem Log.use_live (ha : a = pre.length) (hn : n = live.length) :
    log.use a n (pre ++ live.map some ++ post) = log := by
  rw [Log.use_between ha (hn.trans (List.length_map _).symm), all_isSome_live, Bool.and_true]

theorem Log.destroy_between {mid : List Cell} (ha : a = pre.length) (hn : n = mid.length) :
    log.destroy a n (pre ++ mid ++ post) =
      (pre ++ List.replicate n none ++ post,
        { log with
          destroyed := log.destroyed ++ mid.reduceOption, ok := log.ok && mid.all Option.isSome }) := by
  rw [Log.destroy, all_between ha hn, take_between ha, rest_between ha hn, span_between ha hn]

theorem Log.destroy_live (ha : a = pre.length) (hn : n = live.length) :
    log.destroy a n (pre ++ live.map some ++ post) =
      (pre ++ List.replicate n none ++ post, { log with destroyed := log.destroyed ++ live }) := by
  rw [Log.destroy_between ha (hn.trans (List.length_map _).symm), all_isSome_live, Bool.and_true,
    reduceOption_live]

theorem Log.construct_between {mid : List Cell} (ha : a = pre.length) (hn : n = mid.length) :
    log.construct a n (pre ++ mid ++ post) =
      (pre ++ (List.range' log.fresh n).map some ++ post,
        { log with fresh := log.fresh + n, ok := log.ok && mid.all Option.isNone }) := by
  rw [Log.construct, all_between ha hn, take_between ha, rest_between ha hn]

theorem Log.construct_free (ha : a = pre.length) :
    log.construct a n (pre ++ List.replicate n none ++ post) =
      (pre ++ (List.range' log.fresh n).map some ++ post, { log with fresh := log.fresh + n }) := by
  have hfree : (List.replicate n (none : Cell)).all Option.isNone = true :=
    List.all_eq_true.mpr fun c hc => List.eq_of_mem_replicate hc ▸ rfl
  rw [Log.construct_between ha List.length_replicate.symm, hfree, Bool.and_true]

theorem Log.allocate_eq :
    log.allocate n = ((List.range' log.fresh n).map some, { log with fresh := log.fresh + n }) := by
  have h : log.construct 0 n ([] ++ List.replicate n none ++ []) = _ := Log.construct_free rfl
  rwa [List.nil_append, List.append_nil, List.nil_append, List.append_nil] at h

theorem Log.release_eq :
    log.release cells = { log with
      destroyed := log.destroyed ++ cells.reduceOption, ok := log.ok && cells.all Option.isSome } := by
  have h : log.destroy 0 cells.length ([] ++ cells ++ []) = _ := Log.destroy_between rfl rfl
  rw [List.nil_append, List.append_nil] at h
  exact congrArg Prod.snd h

theorem Log.release_live :
    log.release (live.map some) = { log with destroyed := log.destroyed ++ live } := by
  rw [Log.release_eq, all_isSome_live, Bool.and_true, reduceOption_live]

end

/-! ## Handing objects on -/

/-- Objects that were held, or are new, are held or destroyed. -/
def Handover (held : List ℕ) (log : Log) (held' : List ℕ) (log' : Log) : Prop :=
  ∃ k, log'.fresh = log.fresh + k ∧
    (held' ++ log'.destroyed).Perm (held ++ log.destroyed ++ List.range' log.fresh k)

section
variable {held held₁ held₂ live : List ℕ} {log log₁ log₂ : Log}

theorem Handover.of_perm (h : held₁.Perm held) (hfresh : log₁.fresh = log.fresh)
    (hdestroyed : log₁.destroyed = log.destroyed) : Handover held log held₁ log₁ := by
  refine ⟨0, hfresh, ?_⟩
  rw [List.range'_zero, List.append_nil, hdestroyed]
  exact h.append_right _

theorem Handover.rfl : Handover held log held log :=
  .of_perm (List.Perm.refl _) (Eq.refl _) (Eq.refl _)

theorem Handover.trans (h : Handover held log held₁ log₁) (h' : Handover held₁ log₁ held₂ log₂) :
    Handover held log held₂ log₂ := by
  obtain ⟨k, hfresh, hperm⟩ := h
  obtain ⟨k', hfresh', hperm'⟩ := h'
  refine ⟨k + k', by rw [hfresh', hfresh, Nat.add_assoc], hperm'.trans ?_⟩
  rw [hfresh, ← List.range'_append_1, ← List.append_assoc]
  exact hperm.append_right _

theorem Handover.frame (h : Handover held log held₁ log₁) (frame : List ℕ) :
    Handover (frame ++ held) log (frame ++ held₁) log₁ := by
  obtain ⟨k, hfresh, hperm⟩ := h
  refine ⟨k, hfresh, ?_⟩
  rw [List.append_assoc, List.append_assoc, List.append_assoc, ← List.append_assoc held]
  exact hperm.append_left _

theorem Handover.destroy (held live : List ℕ) (log : Log) :
    Handover (live ++ held) log held { log with destroyed := log.destroyed ++ live } := by
  refine ⟨0, Eq.refl _, ?_⟩
  rw [List.range'_zero, List.append_nil, ← List.append_assoc]
  refine List.perm_append_comm.trans ?_
  rw [← List.append_assoc]

theorem Handover.construct (held : List ℕ) (n : ℕ) (log : Log) :
    Handover held log (List.range' log.fresh n ++ held) { log with fresh := log.fresh + n } := by
  refine ⟨n, Eq.refl _, ?_⟩
  rw [List.append_assoc]
  exact List.perm_append_comm

end

/-! ## Owners -/

/-- Every object that was constructed is with one owner, or destroyed once. -/
structure Custody {ι : Type} (holder : ι → List ℕ) (log : Log) : Prop where
  nodup : ∀ i, (holder i).Nodup
  once : log.destroyed.Nodup
  apart : ∀ i j, i ≠ j → (holder i).Disjoint (holder j)
  alive : ∀ i, (holder i).Disjoint log.destroyed
  born : ∀ o, o < log.fresh ↔ o ∈ log.destroyed ∨ ∃ i, o ∈ holder i

section
variable {ι : Type} {holder holder' : ι → List ℕ} {log log' : Log}

theorem custody_init : Custody (fun _ : ι => []) {} where
  nodup := fun _ => List.nodup_nil
  once := List.nodup_nil
  apart := fun _ _ _ => List.disjoint_nil_left _
  alive := fun _ => List.disjoint_nil_left _
  born := fun o => ⟨fun h => absurd h (Nat.not_lt_zero o), fun h => by simp at h⟩

theorem Custody.lt_fresh (h : Custody holder log) {i : ι} {o : ℕ} (ho : o ∈ holder i) :
    o < log.fresh := (h.born o).mpr (.inr ⟨i, ho⟩)

/-- What some owners hold, with what was destroyed and what is new, has no object twice. -/
theorem Custody.nodup_some (h : Custody holder log) {is : List ι} (his : is.Nodup) (k : ℕ) :
    (is.flatMap holder ++ log.destroyed ++ List.range' log.fresh k).Nodup := by
  have hheld : (is.flatMap holder).Nodup :=
    List.nodup_flatMap.mpr ⟨fun i _ => h.nodup i, his.imp fun hne => h.apart _ _ hne⟩
  have hold : (is.flatMap holder ++ log.destroyed).Nodup := by
    refine hheld.append h.once fun o ho hgone => ?_
    obtain ⟨i, -, hi⟩ := List.mem_flatMap.mp ho
    exact h.alive i hi hgone
  refine hold.append List.nodup_range' fun o ho hnew => ?_
  have hlt : o < log.fresh := by
    rcases List.mem_append.mp ho with ho | ho
    · obtain ⟨i, -, hi⟩ := List.mem_flatMap.mp ho
      exact h.lt_fresh hi
    · exact (h.born o).mpr (.inl ho)
  exact Nat.not_lt.mpr (List.mem_range'_1.mp hnew).1 hlt

theorem mem_some (is : List ι) (o : ℕ) :
    (o ∈ is.flatMap holder ∨ ∃ i, i ∉ is ∧ o ∈ holder i) ↔ ∃ i, o ∈ holder i := by
  constructor
  · rintro (ho | ⟨i, -, hi⟩)
    · obtain ⟨i, -, hi⟩ := List.mem_flatMap.mp ho
      exact ⟨i, hi⟩
    · exact ⟨i, hi⟩
  · rintro ⟨i, hi⟩
    by_cases his : i ∈ is
    · exact .inl (List.mem_flatMap.mpr ⟨i, his, hi⟩)
    · exact .inr ⟨i, his, hi⟩

theorem Custody.born_some (h : Custody holder log) (is : List ι) (k o : ℕ) :
    o < log.fresh + k ↔ o ∈ is.flatMap holder ++ log.destroyed ++ List.range' log.fresh k ∨
      ∃ i, i ∉ is ∧ o ∈ holder i := by
  have hnew : o < log.fresh + k ↔ o < log.fresh ∨ o ∈ List.range' log.fresh k := by
    rw [List.mem_range'_1]
    omega
  rw [hnew, h.born o, ← mem_some is, List.mem_append, List.mem_append, or_left_comm, or_right_comm,
    ← or_assoc, or_right_comm (b := _ ∈ List.range' _ _)]

/-- **Code that touches some of the owners keeps custody**, as soon as it hands their
objects on. -/
theorem Custody.change (h : Custody holder log) {is : List ι} (his : is.Nodup)
    (hover : Handover (is.flatMap holder) log (is.flatMap holder') log')
    (hsame : ∀ i, i ∉ is → holder' i = holder i) : Custody holder' log' := by
  obtain ⟨k, hfresh, hperm⟩ := hover
  obtain ⟨hlive, honce, halive⟩ := List.nodup_append'.mp (hperm.nodup_iff.mpr (h.nodup_some his k))
  obtain ⟨hnodup, hapart⟩ := List.nodup_flatMap.mp hlive
  -- an object of an owner that is not touched is none of those that are handed on
  have hother : ∀ i o, i ∉ is → o ∈ holder i → o ∉ is.flatMap holder' ++ log'.destroyed := by
    intro i o hi ho hmem
    rcases List.mem_append.mp (hperm.mem_iff.mp hmem) with hold | hnew
    · rcases List.mem_append.mp hold with hheld | hgone
      · obtain ⟨j, hj, hoj⟩ := List.mem_flatMap.mp hheld
        exact h.apart i j (fun heq => hi (heq ▸ hj)) ho hoj
      · exact h.alive i ho hgone
    · exact Nat.not_lt.mpr (List.mem_range'_1.mp hnew).1 (h.lt_fresh ho)
  have : Std.Symm (Function.onFun List.Disjoint holder') := ⟨fun _ _ hij _ hj hi => hij hi hj⟩
  have hin : ∀ i o, i ∈ is → o ∈ holder' i → o ∈ is.flatMap holder' ++ log'.destroyed :=
    fun i o hi ho => List.mem_append_left _ (List.mem_flatMap.mpr ⟨i, hi, ho⟩)
  refine ⟨?_, honce, ?_, ?_, ?_⟩
  · intro i
    by_cases hi : i ∈ is
    · exact hnodup i hi
    · exact hsame i hi ▸ h.nodup i
  · intro i j hne o hoi hoj
    by_cases hi : i ∈ is <;> by_cases hj : j ∈ is
    · exact (hapart.forall hi hj hne) hoi hoj
    · exact hother j o hj (hsame j hj ▸ hoj) (hin i o hi hoi)
    · exact hother i o hi (hsame i hi ▸ hoi) (hin j o hj hoj)
    · exact h.apart i j hne (hsame i hi ▸ hoi) (hsame j hj ▸ hoj)
  · intro i o ho hgone
    by_cases hi : i ∈ is
    · exact halive (List.mem_flatMap.mpr ⟨i, hi, ho⟩) hgone
    · exact hother i o hi (hsame i hi ▸ ho) (List.mem_append_right _ hgone)
  · intro o
    have hrest : (∃ i, i ∉ is ∧ o ∈ holder i) ↔ ∃ i, i ∉ is ∧ o ∈ holder' i :=
      exists_congr fun i => and_congr_right fun hi => by rw [hsame i hi]
    rw [hfresh, h.born_some is, ← hperm.mem_iff, hrest, List.mem_append, or_comm (a := _ ∈ is.flatMap _),
      or_assoc, mem_some]

/-- Exactly once: an object is with an owner and not destroyed, or destroyed once and
with nobody. -/
theorem Custody.count (h : Custody holder log) {o : ℕ} (ho : o < log.fresh) :
    ((∃ i, o ∈ holder i) ∧ log.destroyed.count o = 0) ∨
      ((¬ ∃ i, o ∈ holder i) ∧ log.destroyed.count o = 1) := by
  rcases (h.born o).mp ho with hgone | ⟨i, hi⟩
  · right
    refine ⟨fun ⟨i, hi⟩ => h.alive i hi hgone, ?_⟩
    exact List.count_eq_one_of_mem h.once hgone
  · left
    exact ⟨⟨i, hi⟩, List.count_eq_zero.mpr fun hgone => h.alive i hi hgone⟩

end

end LearnCpp.Lib
