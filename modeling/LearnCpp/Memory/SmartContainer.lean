/-
# `LearnCpp.Memory.SmartContainer` — the growing array, for trivial element types

`topics/memory/smart_container/SmartContainer.h`, as far as it is compiled for a
`T` that is trivially constructible and destructible: `reserve` takes its first
branch, and to destroy an element does nothing.  A container owns its array, so
the array is part of it; `data` is `none` for the null pointer.  An access
outside of the array has no defined meaning, and the model returns `none`.

A container stands for a list when its array has `capacity_` cells and the first
`size_` of them are the list (`Holds`).  A program has any set of containers; its
calls act on them as on lists that know nothing of each other:

    Related w m   ⟹   Related (call op w) (Lists.call op m),  with the same outcome
-/
import LearnCpp.Lib.Run
import Mathlib.Data.List.Basic
import Mathlib.Data.Option.Basic
import Mathlib.Logic.Function.Basic

namespace LearnCpp.Memory.SmartContainer

open Lib

variable {ι T : Type}

structure Container (T : Type) where
  data : Option (List T) := none
  size : ℕ := 0
  capacity : ℕ := 0

/-- The cells of the array that `data_` owns. -/
def Container.cells (c : Container T) : List T := c.data.getD []

/-- Copy the first `n` cells of an array to the front of another. -/
def copyInto (n : ℕ) (src dst : List T) : Option (List T) :=
  if n ≤ src.length ∧ n ≤ dst.length then some (src.take n ++ dst.drop n) else none

section
variable [Inhabited T]

def reserve (newCap : ℕ) (c : Container T) : Option (Container T) :=
  if newCap ≤ c.capacity then some c
  else
    let newData := List.replicate newCap default
    (if c.data.isSome ∧ 0 < c.size then copyInto c.size c.cells newData else some newData).map
      fun data => { c with data := some data, capacity := newCap }

/-- Ensure that there is space for one more element. -/
def grow (c : Container T) : Option (Container T) :=
  if c.size = c.capacity then reserve (if c.capacity = 0 then 1 else c.capacity * 2) c else some c

/-- `data_[size_++] = value`, or the construction of an element there. -/
def append (value : T) (c : Container T) : Option (Container T) :=
  if c.size < c.cells.length then
    some { c with data := some (c.cells.set c.size value), size := c.size + 1 }
  else none

def pushBack (value : T) (c : Container T) : Option (Container T) := (grow c).bind (append value)

def emplaceBack (value : T) (c : Container T) : Option (Container T) := (grow c).bind (append value)

/-- The new array has `size_` cells without a value, and each is written before it is read. -/
def shrinkToFit (c : Container T) : Option (Container T) :=
  if c.size < c.capacity then
    (copyInto c.size c.cells (List.replicate c.size default)).map fun data =>
      { c with data := some data, capacity := c.size }
  else some c

inductive Outcome where
  | done
  /-- `std::out_of_range` -/
  | threw
  /-- There is no such object to call. -/
  | noObject
  deriving DecidableEq

def popBack (c : Container T) : Outcome × Container T :=
  if c.size = 0 then (.threw, c) else (.done, { c with size := c.size - 1 })

def clear (c : Container T) : Container T := { c with size := 0 }

/-- `SmartContainer(std::initializer_list<T> ilist)` -/
def ofList (ilist : List T) : Option (Container T) :=
  (reserve ilist.length {}).bind fun c => ilist.foldlM (fun c elem => pushBack elem c) c

/-- `SmartContainer(const SmartContainer &other)` -/
def copyOf (other : Container T) : Option (Container T) :=
  (reserve other.size {}).bind fun c =>
    (List.range other.size).foldlM (fun c i => other.cells[i]?.bind fun elem => pushBack elem c) c

/-- `SmartContainer(SmartContainer &&other)`, with what it leaves of `other`. -/
def moveOf (other : Container T) : Container T × Container T := (other, {})

/-- The loop of `operator==`. -/
def equalFrom [DecidableEq T] (c d : Container T) : List ℕ → Option Bool
  | [] => some true
  | i :: is =>
      match c.cells[i]?, d.cells[i]? with
      | some x, some y => if x = y then equalFrom c d is else some false
      | _, _ => none

/-- `operator==` -/
def equal [DecidableEq T] (c d : Container T) : Option Bool :=
  if c.size ≠ d.size then some false else equalFrom c d (List.range c.size)

end

/-! ## Containers and lists -/

/-- A container stands for a list. -/
structure Holds (c : Container T) (l : List T) : Prop where
  cells : c.cells.length = c.capacity
  size : c.size = l.length
  bound : c.size ≤ c.capacity
  content : c.cells.take c.size = l

section
variable {c d : Container T} {l l' : List T} {n : ℕ} {value : T}

theorem holds_empty : Holds ({} : Container T) [] := ⟨rfl, rfl, Nat.le_refl 0, rfl⟩

theorem copyInto_eq {src dst : List T} (hsrc : n ≤ src.length) (hdst : n ≤ dst.length) :
    copyInto n src dst = some (src.take n ++ dst.drop n) := if_pos ⟨hsrc, hdst⟩

theorem Holds.size_le_cells (h : Holds c l) : c.size ≤ c.cells.length := h.cells ▸ h.bound

theorem Holds.moved (h : Holds c l) {dst : List T} (hdst : c.size ≤ dst.length) :
    Holds { c with data := some (c.cells.take c.size ++ dst.drop c.size), capacity := dst.length } l := by
  have hlength : (c.cells.take c.size).length = c.size := List.length_take_of_le h.size_le_cells
  refine ⟨?_, h.size, hdst, ?_⟩
  · show (c.cells.take c.size ++ dst.drop c.size).length = dst.length
    rw [List.length_append, hlength, List.length_drop, Nat.add_sub_cancel' hdst]
  · show (c.cells.take c.size ++ dst.drop c.size).take c.size = l
    rw [List.take_left' hlength, h.content]

theorem Holds.append (h : Holds c l) (hroom : c.size < c.capacity) (value : T) :
    ∃ c', append value c = some c' ∧ Holds c' (l ++ [value]) ∧ c'.capacity = c.capacity := by
  have hcells : c.size < c.cells.length := h.cells ▸ hroom
  refine ⟨_, if_pos hcells, ⟨?_, ?_, hroom, ?_⟩, rfl⟩
  · show (c.cells.set c.size value).length = c.capacity
    rw [List.length_set, h.cells]
  · show c.size + 1 = (l ++ [value]).length
    rw [List.length_append, h.size]
    rfl
  · show (c.cells.set c.size value).take (c.size + 1) = l ++ [value]
    rw [List.take_succ_eq_append_getElem (by rwa [List.length_set]), List.take_set_of_le (Nat.le_refl _),
      h.content, List.getElem_set_self]

theorem holds_popBack (h : Holds c (l ++ [value])) :
    popBack c = (.done, { c with size := c.size - 1 }) ∧ Holds { c with size := c.size - 1 } l := by
  have hsize : c.size = l.length + 1 := by
    rw [h.size, List.length_append]
    rfl
  refine ⟨if_neg (hsize ▸ Nat.succ_ne_zero _), h.cells, ?_, (Nat.sub_le _ _).trans h.bound, ?_⟩
  · show c.size - 1 = l.length
    rw [hsize]
    rfl
  · show c.cells.take (c.size - 1) = l
    have hmin : min l.length c.size = c.size - 1 := by omega
    rw [← hmin, ← List.take_take, h.content, List.take_left]

theorem Holds.clear (h : Holds c l) : Holds (clear c) [] :=
  ⟨h.cells, rfl, Nat.zero_le _, List.take_zero⟩

variable [Inhabited T]

theorem Holds.copied (h : Holds c l) (hn : c.size ≤ n) :
    (if c.data.isSome ∧ 0 < c.size then copyInto c.size c.cells (List.replicate n default)
      else some (List.replicate n default)) =
      some (c.cells.take c.size ++ (List.replicate n default).drop c.size) := by
  split
  next => exact copyInto_eq h.size_le_cells (by rwa [List.length_replicate])
  next hnone =>
    have hzero : c.size = 0 := by
      by_contra hpos
      refine hnone ⟨?_, Nat.pos_of_ne_zero hpos⟩
      cases hdata : c.data with
      | some _ => rfl
      | none =>
          have hle := h.size_le_cells
          rw [Container.cells, hdata] at hle
          exact absurd (Nat.le_zero.mp hle) hpos
    rw [hzero]
    rfl

/-- **`reserve` keeps the list**, and there is the space that was asked for. -/
theorem Holds.reserve (h : Holds c l) (n : ℕ) :
    ∃ c', reserve n c = some c' ∧ Holds c' l ∧ n ≤ c'.capacity := by
  rw [SmartContainer.reserve]
  split
  next hle => exact ⟨c, rfl, h, hle⟩
  next hgrow =>
    have hsize : c.size ≤ (List.replicate n (default : T)).length := by
      rw [List.length_replicate]
      exact h.bound.trans (Nat.le_of_not_le hgrow)
    have hmoved := h.moved hsize
    rw [List.length_replicate] at hmoved
    refine ⟨_, ?_, hmoved, Nat.le_refl n⟩
    show Option.map _ _ = _
    rw [h.copied (by rwa [List.length_replicate] at hsize)]
    rfl

theorem Holds.grow (h : Holds c l) :
    ∃ c', grow c = some c' ∧ Holds c' l ∧ c'.size < c'.capacity := by
  rw [SmartContainer.grow]
  split
  next hfull =>
    obtain ⟨c', hreserve, hc', hcap⟩ := h.reserve (if c.capacity = 0 then 1 else c.capacity * 2)
    refine ⟨c', hreserve, hc', ?_⟩
    rw [hc'.size, ← h.size, hfull]
    refine Nat.lt_of_lt_of_le ?_ hcap
    split <;> omega
  next hroom => exact ⟨c, rfl, h, Nat.lt_of_le_of_ne h.bound hroom⟩

theorem Holds.pushBack (h : Holds c l) (value : T) :
    ∃ c', pushBack value c = some c' ∧ Holds c' (l ++ [value]) := by
  obtain ⟨c₁, hgrow, hc₁, hroom⟩ := h.grow
  obtain ⟨c₂, happend, hc₂, -⟩ := hc₁.append hroom value
  exact ⟨c₂, by rw [SmartContainer.pushBack, hgrow]; exact happend, hc₂⟩

theorem Holds.emplaceBack (h : Holds c l) (value : T) :
    ∃ c', emplaceBack value c = some c' ∧ Holds c' (l ++ [value]) := h.pushBack value

theorem Holds.shrinkToFit (h : Holds c l) : ∃ c', shrinkToFit c = some c' ∧ Holds c' l := by
  rw [SmartContainer.shrinkToFit]
  split
  next =>
    have hsize : c.size ≤ (List.replicate c.size (default : T)).length := by
      rw [List.length_replicate]
    have hmoved := h.moved hsize
    rw [List.length_replicate] at hmoved
    exact ⟨_, congrArg _ (copyInto_eq h.size_le_cells hsize), hmoved⟩
  next => exact ⟨c, rfl, h⟩

theorem Holds.pushAll (h : Holds c l) (ilist : List T) :
    ∃ c', ilist.foldlM (fun c elem => SmartContainer.pushBack elem c) c = some c' ∧
      Holds c' (l ++ ilist) := by
  induction ilist generalizing c l with
  | nil => exact ⟨c, rfl, (List.append_nil l).symm ▸ h⟩
  | cons elem ilist ih =>
      obtain ⟨c₁, hpush, hc₁⟩ := h.pushBack elem
      obtain ⟨c₂, hfold, hc₂⟩ := ih hc₁
      refine ⟨c₂, ?_, ?_⟩
      · rw [List.foldlM_cons, hpush]
        exact hfold
      · rw [List.append_assoc] at hc₂
        exact hc₂

theorem holds_ofList (ilist : List T) : ∃ c, ofList ilist = some c ∧ Holds c ilist := by
  obtain ⟨c₁, hreserve, hc₁, -⟩ := holds_empty.reserve (T := T) ilist.length
  obtain ⟨c₂, hfold, hc₂⟩ := hc₁.pushAll ilist
  exact ⟨c₂, by rw [ofList, hreserve]; exact hfold, hc₂⟩

omit [Inhabited T] in
theorem Holds.getElem (h : Holds c l) {i : ℕ} (hi : i < c.size) : c.cells[i]? = l[i]? := by
  rw [← h.content, List.getElem?_take_of_lt hi]

theorem Holds.pushFrom (h : Holds c []) (hd : Holds d l) {k : ℕ} (hk : k ≤ d.size) :
    ∃ c', (List.range k).foldlM
        (fun c i => d.cells[i]?.bind fun elem => SmartContainer.pushBack elem c) c = some c' ∧
      Holds c' (l.take k) := by
  induction k with
  | zero => exact ⟨c, rfl, h⟩
  | succ k ih =>
      obtain ⟨c₁, hfold, hc₁⟩ := ih (Nat.le_of_succ_le hk)
      have hlt : k < l.length := hd.size ▸ hk
      have hread : d.cells[k]? = some l[k] := by
        rw [hd.getElem hk, List.getElem?_eq_getElem hlt]
      obtain ⟨c₂, hpush, hc₂⟩ := hc₁.pushBack l[k]
      refine ⟨c₂, ?_, ?_⟩
      · rw [List.range_succ, List.foldlM_append, hfold]
        show (d.cells[k]?.bind fun elem => SmartContainer.pushBack elem c₁).bind pure = _
        rw [hread, Option.bind_some, hpush]
        rfl
      · rwa [List.take_append_getElem hlt] at hc₂

theorem Holds.copyOf (h : Holds d l) : ∃ c, copyOf d = some c ∧ Holds c l := by
  obtain ⟨c₁, hreserve, hc₁, -⟩ := holds_empty.reserve (T := T) d.size
  obtain ⟨c₂, hfold, hc₂⟩ := hc₁.pushFrom h (Nat.le_refl _)
  rw [h.size, List.take_length] at hc₂
  exact ⟨c₂, by rw [SmartContainer.copyOf, hreserve]; exact hfold, hc₂⟩

end

section
variable [DecidableEq T] {c d : Container T} {l l' : List T}

theorem Holds.equalFrom (hc : Holds c l) (hd : Holds d l') (hsize : c.size = d.size) {is : List ℕ}
    (his : ∀ i ∈ is, i < c.size) :
    ∃ b, equalFrom c d is = some b ∧ (b = true ↔ ∀ i ∈ is, l[i]? = l'[i]?) := by
  induction is with
  | nil => exact ⟨true, rfl, iff_of_true rfl fun i hi => absurd hi List.not_mem_nil⟩
  | cons i is ih =>
      have hi : i < c.size := his i List.mem_cons_self
      have hl : i < l.length := hc.size ▸ hi
      have hl' : i < l'.length := hd.size ▸ hsize ▸ hi
      have hx : c.cells[i]? = some l[i] := by
        rw [hc.getElem hi, List.getElem?_eq_getElem hl]
      have hy : d.cells[i]? = some l'[i] := by
        rw [hd.getElem (hsize ▸ hi), List.getElem?_eq_getElem hl']
      obtain ⟨b, hrest, hb⟩ := ih fun j hj => his j (List.mem_cons_of_mem _ hj)
      simp only [SmartContainer.equalFrom, hx, hy, List.forall_mem_cons,
        List.getElem?_eq_getElem hl, List.getElem?_eq_getElem hl', Option.some_inj]
      by_cases heq : l[i] = l'[i]
      · rw [if_pos heq]
        exact ⟨b, hrest, hb.trans (and_iff_right heq).symm⟩
      · rw [if_neg heq]
        exact ⟨false, rfl, iff_of_false Bool.false_ne_true fun h => heq h.1⟩

/-- **`operator==` holds exactly when the lists are equal.** -/
theorem Holds.equal (hc : Holds c l) (hd : Holds d l') :
    ∃ b, equal c d = some b ∧ (b = true ↔ l = l') := by
  rw [SmartContainer.equal]
  by_cases hsize : c.size = d.size
  · obtain ⟨b, hloop, hb⟩ := hc.equalFrom hd hsize fun i hi => List.mem_range.mp hi
    refine ⟨b, (if_neg (not_not_intro hsize)).trans hloop, hb.trans ⟨?_, ?_⟩⟩
    · intro hall
      have hlength : l.length = l'.length := by rw [← hc.size, ← hd.size, hsize]
      refine List.ext_getElem? fun i => ?_
      by_cases hi : i < c.size
      · exact hall i (List.mem_range.mpr hi)
      · rw [List.getElem?_eq_none (hc.size ▸ Nat.le_of_not_lt hi),
          List.getElem?_eq_none (hlength ▸ hc.size ▸ Nat.le_of_not_lt hi)]
    · rintro rfl i _
      rfl
  · refine ⟨false, if_pos hsize, iff_of_false Bool.false_ne_true ?_⟩
    rintro rfl
    exact hsize (hc.size.trans hd.size.symm)

end

/-! ## Programs -/

/-- The calls of a program, on containers that are known by names. -/
inductive Op (ι T : Type) where
  | construct (i : ι)
  | constructList (i : ι) (ilist : List T)
  | copyConstruct (i other : ι)
  | moveConstruct (i other : ι)
  | destroy (i : ι)
  | pushBack (i : ι) (value : T)
  | emplaceBack (i : ι) (value : T)
  | popBack (i : ι)
  | clear (i : ι)
  | shrinkToFit (i : ι)
  | copyAssign (i other : ι)
  | moveAssign (i other : ι)
  | swap (i other : ι)
  deriving DecidableEq

/-- The objects that exist. -/
abbrev Objects (ι X : Type) := ι → Option X

section
variable [DecidableEq ι] {X Y : Type}

/-- An object comes into being, under a name that has none. -/
def create (i : ι) (x : X) (w : Objects ι X) : Outcome × Objects ι X :=
  match w i with
  | none => (.done, Function.update w i (some x))
  | some _ => (.noObject, w)

/-- A call on one object. -/
def modify (i : ι) (f : X → Option (Outcome × X)) (w : Objects ι X) :
    Option (Outcome × Objects ι X) :=
  match w i with
  | some x => (f x).map fun (outcome, x') => (outcome, Function.update w i (some x'))
  | none => some (.noObject, w)

/-- A call on two objects, which may be the same. -/
def both (i j : ι) (f : X → X → Option (Outcome × Objects ι X)) (w : Objects ι X) :
    Option (Outcome × Objects ι X) :=
  match w i, w j with
  | some x, some y => f x y
  | _, _ => some (.noObject, w)

/-- Two objects get new values. -/
def set₂ (i j : ι) (x y : X) (w : Objects ι X) : Objects ι X :=
  Function.update (Function.update w j (some y)) i (some x)

def call [Inhabited T] : Op ι T → Objects ι (Container T) →
    Option (Outcome × Objects ι (Container T))
  | .construct i, w => some (create i {} w)
  | .constructList i ilist, w => (ofList ilist).map fun c => create i c w
  | .copyConstruct i other, w =>
      match w other with
      | some d => (copyOf d).map fun c => create i c w
      | none => some (.noObject, w)
  | .moveConstruct i other, w =>
      match w i, w other with
      | none, some d => some (.done, set₂ i other (moveOf d).1 (moveOf d).2 w)
      | _, _ => some (.noObject, w)
  | .destroy i, w =>
      match w i with
      | some _ => some (.done, Function.update w i none)
      | none => some (.noObject, w)
  | .pushBack i value, w => modify i (fun c => (pushBack value c).map fun c => (.done, c)) w
  | .emplaceBack i value, w => modify i (fun c => (emplaceBack value c).map fun c => (.done, c)) w
  | .popBack i, w => modify i (fun c => some (popBack c)) w
  | .clear i, w => modify i (fun c => some (.done, clear c)) w
  | .shrinkToFit i, w => modify i (fun c => (shrinkToFit c).map fun c => (.done, c)) w
  | .copyAssign i other, w =>
      both i other (fun _ d =>
        if i = other then some (.done, w)
        else (copyOf d).map fun tmp => (.done, Function.update w i (some tmp))) w
  | .moveAssign i other, w =>
      both i other (fun _ d =>
        if i = other then some (.done, w)
        else some (.done, set₂ i other (moveOf d).1 (moveOf d).2 w)) w
  | .swap i other, w => both i other (fun c d => some (.done, set₂ i other d c w)) w

/-- What the calls do to independent lists. -/
def Lists.call : Op ι T → Objects ι (List T) → Option (Outcome × Objects ι (List T))
  | .construct i, m => some (create i [] m)
  | .constructList i ilist, m => some (create i ilist m)
  | .copyConstruct i other, m =>
      match m other with
      | some l => some (create i l m)
      | none => some (.noObject, m)
  | .moveConstruct i other, m =>
      match m i, m other with
      | none, some l => some (.done, set₂ i other l [] m)
      | _, _ => some (.noObject, m)
  | .destroy i, m =>
      match m i with
      | some _ => some (.done, Function.update m i none)
      | none => some (.noObject, m)
  | .pushBack i value, m => modify i (fun l => some (.done, l ++ [value])) m
  | .emplaceBack i value, m => modify i (fun l => some (.done, l ++ [value])) m
  | .popBack i, m =>
      modify i (fun l => some (if l = [] then .threw else .done, l.dropLast)) m
  | .clear i, m => modify i (fun _ => some (.done, [])) m
  | .shrinkToFit i, m => modify i (fun l => some (.done, l)) m
  | .copyAssign i other, m =>
      both i other (fun _ l => some (.done, Function.update m i (some l))) m
  | .moveAssign i other, m =>
      both i other (fun _ l => some (.done, if i = other then m else set₂ i other l [] m)) m
  | .swap i other, m => both i other (fun l l' => some (.done, set₂ i other l' l m)) m

/-- Every object stands for the list of its name. -/
def Related (w : Objects ι (Container T)) (m : Objects ι (List T)) : Prop :=
  ∀ i, Option.Rel Holds (w i) (m i)

/-- The same outcome, and objects that stand for the lists. -/
def Agree (r : Option (Outcome × Objects ι (Container T)))
    (r' : Option (Outcome × Objects ι (List T))) : Prop :=
  ∃ outcome w m, r = some (outcome, w) ∧ r' = some (outcome, m) ∧ Related w m

section
variable {w : Objects ι (Container T)} {m : Objects ι (List T)} {i j : ι} {c d : Container T}
  {l l' : List T}

omit [DecidableEq ι] in
theorem Related.none (h : Related w m) (hi : w i = none) : m i = none := by
  have hrel := h i
  rw [hi] at hrel
  generalize m i = o at hrel
  cases hrel
  rfl

omit [DecidableEq ι] in
theorem Related.some (h : Related w m) (hi : w i = some c) : ∃ l, m i = some l ∧ Holds c l := by
  have hrel := h i
  rw [hi] at hrel
  generalize m i = o at hrel
  cases hrel with
  | some hc => exact ⟨_, rfl, hc⟩

theorem Related.update (h : Related w m) {o : Option (Container T)} {o' : Option (List T)}
    (ho : Option.Rel Holds o o') : Related (Function.update w i o) (Function.update m i o') := by
  intro j
  rcases eq_or_ne j i with rfl | hne
  · rw [Function.update_self, Function.update_self]
    exact ho
  · rw [Function.update_of_ne hne, Function.update_of_ne hne]
    exact h j

theorem Related.set₂ (h : Related w m) (hc : Holds c l) (hd : Holds d l') :
    Related (set₂ i j c d w) (set₂ i j l l' m) :=
  (h.update (.some hd)).update (.some hc)

omit [DecidableEq ι] in
theorem Related.agree (h : Related w m) (outcome : Outcome) :
    Agree (.some (outcome, w)) (.some (outcome, m)) :=
  ⟨outcome, w, m, rfl, rfl, h⟩

theorem Related.create (h : Related w m) (hc : Holds c l) :
    Agree (.some (create i c w)) (.some (create i l m)) := by
  rw [SmartContainer.create, SmartContainer.create]
  cases hi : w i with
  | none =>
      rw [h.none hi]
      exact (h.update (.some hc)).agree .done
  | some c' =>
      obtain ⟨l', hl', -⟩ := h.some hi
      rw [hl']
      exact h.agree .noObject

theorem Related.modify (h : Related w m) {f : Container T → Option (Outcome × Container T)}
    {g : List T → Outcome × List T}
    (hfg : ∀ c l, Holds c l → ∃ c', f c = .some ((g l).1, c') ∧ Holds c' (g l).2) :
    Agree (modify i f w) (modify i (fun l => .some (g l)) m) := by
  rw [SmartContainer.modify, SmartContainer.modify]
  cases hi : w i with
  | none =>
      rw [h.none hi]
      exact h.agree .noObject
  | some c =>
      obtain ⟨l, hl, hc⟩ := h.some hi
      obtain ⟨c', hf, hc'⟩ := hfg c l hc
      rw [hl]
      show Agree ((f c).map _) _
      rw [hf]
      exact (h.update (.some hc')).agree (g l).1

omit [DecidableEq ι] in
theorem Related.both (h : Related w m)
    {f : Container T → Container T → Option (Outcome × Objects ι (Container T))}
    {g : List T → List T → Option (Outcome × Objects ι (List T))}
    (hfg : ∀ c d l l', m i = .some l → m j = .some l' → Holds c l → Holds d l' →
      Agree (f c d) (g l l')) : Agree (both i j f w) (both i j g m) := by
  rw [SmartContainer.both, SmartContainer.both]
  cases hi : w i with
  | none =>
      rw [h.none hi]
      exact h.agree .noObject
  | some c =>
      obtain ⟨l, hl, hc⟩ := h.some hi
      cases hj : w j with
      | none =>
          rw [h.none hj, hl]
          exact h.agree .noObject
      | some d =>
          obtain ⟨l', hl', hd⟩ := h.some hj
          rw [hl, hl']
          exact hfg c d l l' hl hl' hc hd

end

section
variable [Inhabited T] {w : Objects ι (Container T)} {m : Objects ι (List T)}

omit [DecidableEq ι] [Inhabited T] in
theorem Holds.popBack {c : Container T} {l : List T} (h : Holds c l) :
    (SmartContainer.popBack c).1 = (if l = [] then Outcome.threw else .done) ∧
      Holds (SmartContainer.popBack c).2 l.dropLast := by
  rcases List.eq_nil_or_concat l with rfl | ⟨front, last, rfl⟩
  · have hthrow : SmartContainer.popBack c = (.threw, c) := if_pos h.size
    rw [hthrow, if_pos rfl]
    exact ⟨rfl, h⟩
  · rw [List.concat_eq_append] at h ⊢
    obtain ⟨hpop, hc'⟩ := holds_popBack h
    rw [hpop, if_neg (List.append_ne_nil_of_right_ne_nil _ (List.cons_ne_nil last [])),
      List.dropLast_concat]
    exact ⟨rfl, hc'⟩

/-- **Every call does to the containers what it does to the lists.** -/
theorem call_agrees (h : Related w m) (op : Op ι T) : Agree (call op w) (Lists.call op m) := by
  cases op with
  | construct i => exact h.create holds_empty
  | constructList i ilist =>
      obtain ⟨c, hof, hc⟩ := holds_ofList ilist
      show Agree ((ofList ilist).map _) _
      rw [hof]
      exact h.create hc
  | copyConstruct i other =>
      rw [call, Lists.call]
      cases hother : w other with
      | none =>
          rw [h.none hother]
          exact h.agree .noObject
      | some d =>
          obtain ⟨l, hl, hd⟩ := h.some hother
          obtain ⟨c, hcopy, hc⟩ := hd.copyOf
          rw [hl]
          show Agree ((copyOf d).map _) _
          rw [hcopy]
          exact h.create hc
  | moveConstruct i other =>
      rw [call, Lists.call]
      cases hi : w i with
      | some c =>
          obtain ⟨l, hl, -⟩ := h.some hi
          rw [hl]
          exact h.agree .noObject
      | none =>
          rw [h.none hi]
          cases hother : w other with
          | none =>
              rw [h.none hother]
              exact h.agree .noObject
          | some d =>
              obtain ⟨l, hl, hd⟩ := h.some hother
              rw [hl]
              exact (h.set₂ hd holds_empty).agree .done
  | destroy i =>
      rw [call, Lists.call]
      cases hi : w i with
      | none =>
          rw [h.none hi]
          exact h.agree .noObject
      | some c =>
          obtain ⟨l, hl, -⟩ := h.some hi
          rw [hl]
          exact (h.update .none).agree .done
  | pushBack i value =>
      refine h.modify (g := fun l => (.done, l ++ [value])) fun c l hc => ?_
      obtain ⟨c', hpush, hc'⟩ := hc.pushBack value
      exact ⟨c', by rw [hpush]; rfl, hc'⟩
  | emplaceBack i value =>
      refine h.modify (g := fun l => (.done, l ++ [value])) fun c l hc => ?_
      obtain ⟨c', hpush, hc'⟩ := hc.emplaceBack value
      exact ⟨c', by rw [hpush]; rfl, hc'⟩
  | popBack i =>
      refine h.modify (g := fun l => (if l = [] then .threw else .done, l.dropLast)) fun c l hc => ?_
      obtain ⟨houtcome, hc'⟩ := hc.popBack
      exact ⟨_, congrArg some (Prod.ext houtcome rfl), hc'⟩
  | clear i => exact h.modify (g := fun _ => (.done, [])) fun c l hc => ⟨_, rfl, hc.clear⟩
  | shrinkToFit i =>
      refine h.modify (g := fun l => (.done, l)) fun c l hc => ?_
      obtain ⟨c', hshrink, hc'⟩ := hc.shrinkToFit
      exact ⟨c', by rw [hshrink]; rfl, hc'⟩
  | copyAssign i other =>
      refine h.both fun c d l l' _ hl' _ hd => ?_
      by_cases hself : i = other
      · -- the list of `other` is already that of `i`
        obtain rfl := hself
        have hsame : Function.update m i (some l') = m := by
          rw [← hl', Function.update_eq_self]
        rw [if_pos rfl, hsame]
        exact h.agree .done
      · obtain ⟨tmp, hcopy, htmp⟩ := hd.copyOf
        rw [if_neg hself, hcopy]
        exact (h.update (.some htmp)).agree .done
  | moveAssign i other =>
      refine h.both fun c d l l' _ _ _ hd => ?_
      by_cases hself : i = other
      · rw [if_pos hself, if_pos hself]
        exact h.agree .done
      · rw [if_neg hself, if_neg hself]
        exact (h.set₂ hd holds_empty).agree .done
  | swap i other =>
      refine h.both fun c d l l' _ _ hc hd => ?_
      exact (h.set₂ hd hc).agree .done

/-- What a call returned, and the objects after it. -/
def perform {X : Type} (call : Op ι T → Objects ι X → Option (Outcome × Objects ι X)) (op : Op ι T)
    (r : List Outcome × Objects ι X) : Option (List Outcome × Objects ι X) :=
  (call op r.2).map fun (outcome, w) => (r.1 ++ [outcome], w)

/-- **A program with containers is a program with lists**: the same outcomes, the same
contents, and `operator==` and `pop_back` as the lists have them. -/
theorem refines_lists [DecidableEq T] (ops : List (Op ι T)) :
    ∃ outcomes w m, run (perform call) ops ([], fun _ => none) = some (outcomes, w) ∧
      run (perform Lists.call) ops ([], fun _ => none) = some (outcomes, m) ∧
      (∀ i, w i = none ↔ m i = none) ∧
      (∀ i c, w i = some c → m i = some (c.cells.take c.size) ∧
        c.size ≤ c.capacity ∧ c.cells.length = c.capacity ∧
        (SmartContainer.popBack c = (.threw, c) ↔ c.size = 0) ∧
        ((SmartContainer.popBack c).1 = .done ↔ c.size ≠ 0)) ∧
      (∀ i j c d, w i = some c → w j = some d →
        ∃ b, SmartContainer.equal c d = some b ∧ (b = true ↔ m i = m j)) := by
  obtain ⟨⟨outcomes, w⟩, hrun, m, hruns, hrelated⟩ :
      ∃ r, run (perform call) ops ([], fun _ => none) = some r ∧
        ∃ m, run (perform Lists.call) ops ([], fun _ => none) = some (r.1, m) ∧ Related r.2 m := by
    refine run_rule (fun ops (r : List Outcome × Objects ι (Container T)) => ∃ m, run (perform Lists.call) ops ([], fun _ => none) = some (r.1, m) ∧
      Related r.2 m) ?_ ?_ ops (List.prefix_refl ops)
    · exact ⟨fun _ => none, rfl, fun _ => .none⟩
    · rintro pre op ⟨outcomes, w⟩ - ⟨m, hrun, hrelated⟩
      obtain ⟨outcome, w', m', hcall, hlists, hrelated'⟩ := call_agrees hrelated op
      refine ⟨(outcomes ++ [outcome], w'), ?_, m', ?_, hrelated'⟩
      · rw [perform, hcall]
        rfl
      · rw [run_concat, hrun]
        show (Lists.call op m).map _ = _
        rw [hlists]
        rfl
  refine ⟨outcomes, w, m, hrun, hruns, ?_, ?_, ?_⟩
  · intro i
    refine ⟨hrelated.none, fun hm => ?_⟩
    cases hi : w i with
    | none => rfl
    | some c =>
        obtain ⟨l, hl, -⟩ := hrelated.some hi
        cases hm.symm.trans hl
  · intro i c hi
    obtain ⟨l, hl, hc⟩ := hrelated.some hi
    refine ⟨hc.content.symm ▸ hl, hc.bound, hc.cells, ?_, ?_⟩
    · rw [SmartContainer.popBack]
      split
      next hzero => exact iff_of_true rfl hzero
      next hpos => exact iff_of_false (fun habs => by cases congrArg Prod.fst habs) hpos
    · rw [SmartContainer.popBack]
      split
      next hzero => exact iff_of_false Outcome.noConfusion (not_not_intro hzero)
      next hpos => exact iff_of_true rfl hpos
  · intro i j c d hi hj
    obtain ⟨l, hl, hc⟩ := hrelated.some hi
    obtain ⟨l', hl', hd⟩ := hrelated.some hj
    obtain ⟨b, hequal, hb⟩ := hc.equal hd
    refine ⟨b, hequal, ?_⟩
    rw [hl, hl', Option.some_inj]
    exact hb

end

end

end LearnCpp.Memory.SmartContainer
