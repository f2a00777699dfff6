/-
# `LearnCpp.Memory.SmartContainerLifetime` — the growing array, and when its elements live

`topics/memory/smart_container/SmartContainer.h`, as far as it is compiled for a
`T` with constructors and destructors that do something: `reserve` takes its
second branch.  Values play no part here.  Every cell of the array of a container
holds an object or none, and the log of `Lib.Lifetime` says whether each step was
allowed to do what it did.  The array comes from `new T[n]`, with an object in
every cell, and goes with `delete[]`, which destroys one in every cell; in between
`pop_back` and `clear` destroy objects and leave their cells empty, `push_back`
assigns to the cell behind the last element, and `emplace_back` constructs there:

    |  size_ elements  |  removed: no object  |  untouched: objects of new T[n]  |

So `emplace_back` needs a cell that was left empty, and `push_back`, `shrink_to_fit`
and the end of the array need that there is none.  A run is in order, and every
object is destroyed exactly once, if and only if each of its calls is made in a
state that suits it (`Suits`).
-/
import LearnCpp.Lib.Lifetime
import LearnCpp.Lib.Schedule
import LearnCpp.Memory.SmartContainer

namespace LearnCpp.Memory.SmartContainerLifetime

open Lib
open SmartContainer (Op Objects set₂)

structure Container where
  /-- The cells of the array that `data_` owns; there are none for the null pointer. -/
  cells : List Cell := []
  size : ℕ := 0
  capacity : ℕ := 0
  /-- Ghost: elements that `pop_back` and `clear` took out of this array, less those that
  `emplace_back` put in after that. -/
  removed : ℕ := 0
  deriving DecidableEq

def reserve (newCap : ℕ) (c : Container) (log : Log) : Container × Log :=
  if newCap ≤ c.capacity then (c, log)
  else
    let newData := log.allocate newCap
    -- `new_data[i] = std::move(data_[i])` for all elements
    let moved := (newData.2.use 0 c.size c.cells).use 0 c.size newData.1
    ({ c with cells := newData.1, capacity := newCap, removed := 0 }, moved.release c.cells)

/-- Ensure that there is space for one more element. -/
def grow (c : Container) (log : Log) : Container × Log :=
  if c.size = c.capacity then reserve (if c.capacity = 0 then 1 else c.capacity * 2) c log
  else (c, log)

/-- `data_[size_++] = value` -/
def assignEnd (c : Container) (log : Log) : Container × Log :=
  ({ c with size := c.size + 1 }, log.use c.size 1 c.cells)

def pushBack (c : Container) (log : Log) : Container × Log :=
  let grown := grow c log
  assignEnd grown.1 grown.2

/-- `push_back(std::move(value))`, where `value` refers to an element of a container. -/
def pushBackElement (value : Cell) (c : Container) (log : Log) : Container × Log :=
  let grown := grow c log
  assignEnd grown.1 (grown.2.moveFrom value)

/-- `::new (data_.get() + size_) T(...); ++size_` -/
def constructEnd (c : Container) (log : Log) : Container × Log :=
  let built := log.construct c.size 1 c.cells
  ({ c with cells := built.1, size := c.size + 1, removed := c.removed - 1 }, built.2)

def emplaceBack (c : Container) (log : Log) : Container × Log :=
  let grown := grow c log
  constructEnd grown.1 grown.2

/-- On an empty container it throws, and nothing happens. -/
def popBack (c : Container) (log : Log) : Container × Log :=
  if c.size = 0 then (c, log)
  else
    let gone := log.destroy (c.size - 1) 1 c.cells
    ({ c with cells := gone.1, size := c.size - 1, removed := c.removed + 1 }, gone.2)

def clear (c : Container) (log : Log) : Container × Log :=
  let gone := log.destroy 0 c.size c.cells
  ({ c with cells := gone.1, size := 0, removed := c.removed + c.size }, gone.2)

def shrinkToFit (c : Container) (log : Log) : Container × Log :=
  if c.size < c.capacity then
    let newData := log.allocate c.size
    -- `std::uninitialized_move`, then `std::destroy`
    let moved := (newData.2.use 0 c.size c.cells).construct 0 c.size newData.1
    let old := moved.2.destroy 0 c.size c.cells
    ({ c with cells := moved.1, capacity := c.size, removed := 0 }, old.2.release old.1)
  else (c, log)

/-- `SmartContainer(std::initializer_list<T> ilist)`, for a list of `n` elements. -/
def ofList (n : ℕ) (log : Log) : Container × Log :=
  (List.range n).foldl (fun r _ => pushBack r.1 r.2) (reserve n {} log)

/-- `SmartContainer(const SmartContainer &other)` -/
def copyOf (other : Container) (log : Log) : Container × Log :=
  (List.range other.size).foldl (fun r i => pushBack r.1 (r.2.use i 1 other.cells))
    (reserve other.size {} log)

/-! ## Programs -/

/-- The calls of a program, and `push_back` with an element of a container for its argument. -/
inductive Call (ι T : Type) where
  | op (op : Op ι T)
  /-- `objects[i].push_back(std::move(objects[other][k]))`, for an element that exists. -/
  | pushBackElement (i other : ι) (k : ℕ)

structure State (ι : Type) where
  objects : Objects ι Container := fun _ => none
  log : Log := {}

section
variable {ι T : Type} [DecidableEq ι]

def State.create (i : ι) (r : Container × Log) (s : State ι) : Option (State ι) :=
  match s.objects i with
  | none => some ⟨Function.update s.objects i (some r.1), r.2⟩
  | some _ => none

def State.modify (i : ι) (f : Container → Log → Container × Log) (s : State ι) :
    Option (State ι) :=
  (s.objects i).map fun c => ⟨Function.update s.objects i (some (f c s.log).1), (f c s.log).2⟩

/-- A call, if there are objects to call. -/
def step : Call ι T → State ι → Option (State ι)
  | .op (.construct i), s => s.create i ({}, s.log)
  | .op (.constructList i ilist), s => s.create i (ofList ilist.length s.log)
  | .op (.copyConstruct i other), s =>
      (s.objects other).bind fun d => s.create i (copyOf d s.log)
  | .op (.moveConstruct i other), s =>
      match s.objects i, s.objects other with
      | none, some d => some { s with objects := set₂ i other d {} s.objects }
      | _, _ => none
  | .op (.destroy i), s =>
      (s.objects i).map fun c => ⟨Function.update s.objects i none, s.log.release c.cells⟩
  | .op (.pushBack i _), s => s.modify i pushBack
  | .op (.emplaceBack i _), s => s.modify i emplaceBack
  | .op (.popBack i), s => s.modify i popBack
  | .op (.clear i), s => s.modify i clear
  | .op (.shrinkToFit i), s => s.modify i shrinkToFit
  | .op (.copyAssign i other), s =>
      match s.objects i, s.objects other with
      | some c, some d =>
          if i = other then some s
          else
            -- `tmp` gets the old array, and goes at the end
            let tmp := copyOf d s.log
            some ⟨Function.update s.objects i (some tmp.1), tmp.2.release c.cells⟩
      | _, _ => none
  | .op (.moveAssign i other), s =>
      match s.objects i, s.objects other with
      | some c, some d =>
          if i = other then some s
          else some ⟨set₂ i other d {} s.objects, s.log.release c.cells⟩
      | _, _ => none
  | .op (.swap i other), s =>
      match s.objects i, s.objects other with
      | some c, some d => some { s with objects := set₂ i other d c s.objects }
      | _, _ => none
  | .pushBackElement i other k, s =>
      (s.objects other).bind fun d =>
        if k < d.size then s.modify i (pushBackElement (d.cells[k]?.getD none)) else none

/-- The states in which a call is in order. -/
def Suits : Call ι T → State ι → Prop
  | .op (.pushBack i _), s => ∀ c ∈ s.objects i, c.removed = 0
  | .op (.emplaceBack i _), s => ∀ c ∈ s.objects i, 0 < c.removed
  | .op (.shrinkToFit i), s =>
      ∀ c ∈ s.objects i, c.size = c.capacity ∨ (c.size = 0 ∧ c.removed = 0)
  | .op (.destroy i), s => ∀ c ∈ s.objects i, c.removed = 0
  | .op (.copyAssign i other), s => i ≠ other → ∀ c ∈ s.objects i, c.removed = 0
  | .op (.moveAssign i other), s => i ≠ other → ∀ c ∈ s.objects i, c.removed = 0
  | .pushBackElement i other _, s =>
      ∀ c ∈ s.objects i, c.removed = 0 ∧ (i = other → c.size ≠ c.capacity)
  | _, _ => True

instance (call : Call ι T) (s : State ι) : Decidable (Suits call s) := by
  unfold Suits
  split <;> infer_instance

end

/-! ## One container -/

def Container.held (c : Container) : List ℕ := c.cells.reduceOption

/-- The elements, the cells that were left empty, and the objects behind them. -/
structure Shape (c : Container) (front back : List ℕ) : Prop where
  cells : c.cells = front.map some ++ (List.replicate c.removed none ++ back.map some)
  size : c.size = front.length
  capacity : c.capacity = front.length + (c.removed + back.length)

def Whole (c : Container) : Prop := ∃ front back, Shape c front back

/-- A piece of code that was allowed to do what it did. -/
structure Clean (c : Container) (log : Log) (r : Container × Log) : Prop where
  whole : Whole r.1
  handover : Handover c.held log r.1.held r.2
  ok : r.2.ok = log.ok

section
variable {c c₁ : Container} {front back : List ℕ} {log log₁ : Log} {r : Container × Log} {n : ℕ}

theorem shape_empty : Shape {} [] [] := ⟨rfl, rfl, rfl⟩

theorem Shape.held (h : Shape c front back) : c.held = front ++ back := by
  rw [Container.held, h.cells, List.reduceOption_append, List.reduceOption_append,
    List.reduceOption_replicate_none, reduceOption_live, reduceOption_live, List.nil_append]

theorem Shape.cells_live (h : Shape c front back) (hremoved : c.removed = 0) :
    c.cells = c.held.map some := by
  rw [h.held, h.cells, hremoved, List.map_append]
  rfl

theorem Shape.full (h : Shape c front back) (hfull : c.size = c.capacity) :
    c.removed = 0 ∧ back = [] := by
  have hsum := h.capacity
  rw [← h.size, hfull] at hsum
  have hzero : c.removed + back.length = 0 := by omega
  exact ⟨(Nat.add_eq_zero_iff.mp hzero).1, List.length_eq_zero_iff.mp (Nat.add_eq_zero_iff.mp hzero).2⟩

theorem Clean.refl (h : Whole c) : Clean c log (c, log) := ⟨h, .rfl, rfl⟩

theorem Clean.trans (h : Clean c log (c₁, log₁)) (h' : Clean c₁ log₁ r) : Clean c log r :=
  ⟨h'.whole, h.handover.trans h'.handover, h'.ok.trans h.ok⟩

theorem use_front (h : Shape c front back) : log.use 0 c.size c.cells = log := by
  rw [h.cells]
  show log.use 0 c.size ([] ++ front.map some ++ _) = log
  exact Log.use_live rfl h.size

/-- An array is given back in order just when it has no empty cells. -/
theorem Shape.release (h : Shape c front back) (hremoved : c.removed = 0) :
    log.release c.cells = { log with destroyed := log.destroyed ++ c.held } := by
  rw [h.cells_live hremoved, Log.release_live]

theorem Shape.removed_of_release (h : Shape c front back) (hok : (log.release c.cells).ok = true) :
    c.removed = 0 := by
  rw [Log.release_eq] at hok
  have hall := List.all_eq_true.mp (Bool.and_eq_true_iff.mp hok).2
  by_contra hne
  have hmem : (none : Cell) ∈ c.cells := by
    rw [h.cells]
    exact List.mem_append_right _ (List.mem_append_left _ (List.mem_replicate.mpr ⟨hne, rfl⟩))
  exact Bool.false_ne_true (hall none hmem)

theorem shape_allocate (objects : List ℕ) (hn : n ≤ objects.length) :
    Shape { cells := objects.map some, size := n, capacity := objects.length }
      (objects.take n) (objects.drop n) := by
  refine ⟨?_, (List.length_take_of_le hn).symm, ?_⟩
  · show objects.map some = _ ++ ([] ++ _)
    rw [List.nil_append, ← List.map_append, List.take_append_drop]
  · show objects.length = _ + (0 + _)
    rw [List.length_take_of_le hn, List.length_drop]
    omega

theorem Shape.clean_reserve (h : Shape c front back) (hremoved : c.removed = 0) (log : Log) (n : ℕ) :
    Clean c log (reserve n c log) ∧ (reserve n c log).1.removed = 0 ∧
      (reserve n c log).1.size = c.size ∧ n ≤ (reserve n c log).1.capacity := by
  rw [reserve]
  split
  next hle => exact ⟨.refl ⟨_, _, h⟩, hremoved, rfl, hle⟩
  next hgt =>
    have hsize : c.size ≤ (List.range' log.fresh n).length := by
      have hsum := h.capacity
      have hlength := h.size
      rw [List.length_range']
      omega
    have hnew := shape_allocate (List.range' log.fresh n) hsize
    rw [Log.allocate_eq]
    show Clean c log (_, (((Log.use _ _ _ _).use _ _ _).release _)) ∧ _
    rw [use_front h, use_front hnew, h.release hremoved]
    rw [List.length_range'] at hnew
    refine ⟨⟨⟨_, _, hnew⟩, ?_, rfl⟩, rfl, rfl, Nat.le_refl n⟩
    · show Handover c.held log ((List.range' log.fresh n).map some).reduceOption _
      rw [reduceOption_live]
      refine (Handover.construct c.held n log).trans ?_
      refine (Handover.of_perm List.perm_append_comm rfl rfl).trans ?_
      exact Handover.destroy _ _ _

theorem Shape.clean_grow (h : Shape c front back) (log : Log) :
    Clean c log (grow c log) ∧ (grow c log).1.removed = c.removed ∧
      (grow c log).1.size < (grow c log).1.capacity := by
  rw [grow]
  split
  next hfull =>
    -- where there is no cell left, none is empty
    have hzero := (h.full hfull).1
    obtain ⟨hclean, hremoved, hsize, hcap⟩ :=
      h.clean_reserve hzero log (if c.capacity = 0 then 1 else c.capacity * 2)
    refine ⟨hclean, hremoved.trans hzero.symm, ?_⟩
    rw [hsize, hfull]
    refine Nat.lt_of_lt_of_le ?_ hcap
    split <;> omega
  next hroom =>
    have hsum := h.capacity
    have hlength := h.size
    exact ⟨.refl ⟨_, _, h⟩, rfl, show c.size < c.capacity by omega⟩

theorem Shape.next_live (h : Shape c front back) (hroom : c.size < c.capacity)
    (hremoved : c.removed = 0) :
    ∃ o rest, back = o :: rest ∧ c.cells = front.map some ++ [o].map some ++ rest.map some := by
  cases hback : back with
  | nil =>
      have hsum := h.capacity
      rw [← h.size, hremoved, hback] at hsum
      exact absurd hsum (Nat.ne_of_gt hroom)
  | cons o rest =>
      refine ⟨o, rest, rfl, ?_⟩
      rw [h.cells, hremoved, hback, List.append_assoc]
      rfl

theorem Shape.next_empty (h : Shape c front back) {m : ℕ} (hremoved : c.removed = m + 1) :
    c.cells = front.map some ++ List.replicate 1 none ++ (List.replicate m none ++ back.map some) := by
  rw [h.cells, hremoved, List.append_assoc]
  rfl

theorem Shape.clean_assignEnd (h : Shape c front back) (hroom : c.size < c.capacity)
    (hremoved : c.removed = 0) (log : Log) : Clean c log (assignEnd c log) := by
  obtain ⟨o, rest, rfl, hcells⟩ := h.next_live hroom hremoved
  have huse : log.use c.size 1 c.cells = log := by
    rw [hcells]
    exact Log.use_live (h.size.trans (List.length_map _).symm) rfl
  rw [assignEnd, huse]
  refine ⟨⟨front ++ [o], rest, ?_, ?_, ?_⟩, .rfl, rfl⟩
  · show c.cells = _ ++ (List.replicate c.removed none ++ _)
    rw [hcells, hremoved, List.map_append]
    rfl
  · show c.size + 1 = _
    rw [h.size, List.length_append]
    rfl
  · show c.capacity = _
    rw [h.capacity, List.length_append, List.length_cons, List.length_singleton]
    show _ = _ + (c.removed + rest.length)
    omega

theorem Shape.removed_of_assignEnd (h : Shape c front back) (hok : (assignEnd c log).2.ok = true) :
    c.removed = 0 := by
  cases hremoved : c.removed with
  | zero => rfl
  | succ m =>
      rw [assignEnd, h.next_empty hremoved,
        Log.use_between (h.size.trans (List.length_map _).symm) List.length_replicate.symm] at hok
      exact absurd (Bool.and_eq_true_iff.mp hok).2 Bool.false_ne_true

/-- **`push_back` is in order when no cell was left empty.** -/
theorem Whole.clean_pushBack (h : Whole c) (hremoved : c.removed = 0) (log : Log) :
    Clean c log (pushBack c log) ∧ (pushBack c log).1.removed = 0 := by
  obtain ⟨front, back, h⟩ := h
  obtain ⟨hgrow, hsame, hroom⟩ := h.clean_grow log
  obtain ⟨front', back', h'⟩ := hgrow.whole
  have hzero := hsame.trans hremoved
  exact ⟨hgrow.trans (h'.clean_assignEnd hroom hzero _), hzero⟩

theorem Whole.removed_of_pushBack (h : Whole c) (hok : (pushBack c log).2.ok = true) :
    c.removed = 0 := by
  obtain ⟨front, back, h⟩ := h
  obtain ⟨hgrow, hsame, -⟩ := h.clean_grow log
  obtain ⟨front', back', h'⟩ := hgrow.whole
  exact hsame.symm.trans (h'.removed_of_assignEnd hok)

theorem Shape.clean_constructEnd (h : Shape c front back) (hremoved : 0 < c.removed) (log : Log) :
    Clean c log (constructEnd c log) := by
  obtain ⟨m, hm⟩ := Nat.exists_eq_succ_of_ne_zero (Nat.ne_of_gt hremoved)
  have hbuilt : log.construct c.size 1 c.cells =
      (front.map some ++ [log.fresh].map some ++ (List.replicate m none ++ back.map some),
        { log with fresh := log.fresh + 1 }) := by
    rw [h.next_empty hm]
    exact Log.construct_free (h.size.trans (List.length_map _).symm)
  rw [constructEnd, hbuilt]
  have hshape : Shape { c with
      cells := front.map some ++ [log.fresh].map some ++ (List.replicate m none ++ back.map some)
      size := c.size + 1, removed := c.removed - 1 } (front ++ [log.fresh]) back := by
    refine ⟨?_, ?_, ?_⟩
    · show _ = _ ++ (List.replicate (c.removed - 1) none ++ _)
      rw [hm, List.map_append]
      rfl
    · show c.size + 1 = _
      rw [h.size, List.length_append]
      rfl
    · show c.capacity = _ + ((c.removed - 1) + _)
      rw [h.capacity, List.length_append, List.length_singleton]
      omega
  refine ⟨⟨_, _, hshape⟩, ?_, rfl⟩
  rw [hshape.held, h.held]
  refine (Handover.construct _ 1 log).trans (.of_perm ?_ rfl rfl)
  show ((front ++ [log.fresh]) ++ back).Perm (log.fresh :: (front ++ back))
  rw [List.append_assoc]
  exact List.perm_middle

/-- **`emplace_back` is in order when a cell was left empty.** -/
theorem Whole.clean_emplaceBack (h : Whole c) (hremoved : 0 < c.removed) (log : Log) :
    Clean c log (emplaceBack c log) := by
  obtain ⟨front, back, h⟩ := h
  obtain ⟨hgrow, hsame, -⟩ := h.clean_grow log
  obtain ⟨front', back', h'⟩ := hgrow.whole
  exact hgrow.trans (h'.clean_constructEnd (hsame ▸ hremoved) _)

theorem Shape.removed_of_constructEnd (h : Shape c front back) (hroom : c.size < c.capacity)
    (hok : (constructEnd c log).2.ok = true) : 0 < c.removed := by
  by_contra hzero
  obtain ⟨o, rest, -, hcells⟩ := h.next_live hroom (Nat.eq_zero_of_not_pos hzero)
  have hbuilt : (log.construct c.size 1 c.cells).2.ok = (log.ok && ([o].map some).all Option.isNone) := by
    rw [hcells, Log.construct_between (h.size.trans (List.length_map _).symm) (by rfl)]
  exact absurd (Bool.and_eq_true_iff.mp (hbuilt.symm.trans hok)).2 Bool.false_ne_true

theorem Whole.removed_of_emplaceBack (h : Whole c) (hok : (emplaceBack c log).2.ok = true) :
    0 < c.removed := by
  obtain ⟨front, back, h⟩ := h
  obtain ⟨hgrow, hsame, hroom⟩ := h.clean_grow log
  obtain ⟨front', back', h'⟩ := hgrow.whole
  exact hsame ▸ h'.removed_of_constructEnd hroom hok

/-- **`pop_back` is always in order.** -/
theorem Whole.clean_popBack (h : Whole c) (log : Log) : Clean c log (popBack c log) := by
  obtain ⟨front, back, h⟩ := h
  rw [popBack]
  split
  next => exact .refl ⟨_, _, h⟩
  next hpos =>
    obtain ⟨init, o, rfl⟩ : ∃ init o, front = init ++ [o] := by
      rcases List.eq_nil_or_concat front with rfl | ⟨init, o, hfront⟩
      · exact absurd h.size hpos
      · exact ⟨init, o, hfront.trans List.concat_eq_append⟩
    have hsize : c.size = init.length + 1 := by
      rw [h.size, List.length_append]
      rfl
    have hgone : log.destroy (c.size - 1) 1 c.cells =
        (init.map some ++ [none] ++ (List.replicate c.removed none ++ back.map some),
          { log with destroyed := log.destroyed ++ [o] }) := by
      rw [h.cells, List.map_append]
      show log.destroy (c.size - 1) [o].length _ = _
      exact Log.destroy_live (by rw [hsize, List.length_map]; rfl) rfl
    rw [hgone]
    have hshape : Shape { c with
        cells := init.map some ++ [none] ++ (List.replicate c.removed none ++ back.map some)
        size := c.size - 1, removed := c.removed + 1 } init back := by
      refine ⟨?_, ?_, ?_⟩
      · show _ = _ ++ (List.replicate (c.removed + 1) none ++ _)
        rw [List.append_assoc]
        rfl
      · show c.size - 1 = _
        rw [hsize]
        rfl
      · show c.capacity = _ + ((c.removed + 1) + _)
        rw [h.capacity, List.length_append, List.length_singleton]
        omega
    refine ⟨⟨_, _, hshape⟩, ?_, rfl⟩
    rw [hshape.held, h.held]
    refine (Handover.of_perm ?_ rfl rfl).trans (Handover.destroy (init ++ back) [o] log)
    rw [List.append_assoc]
    show (o :: (init ++ back)).Perm (init ++ o :: back)
    exact List.perm_middle.symm

/-- **`clear` is always in order.** -/
theorem Whole.clean_clear (h : Whole c) (log : Log) : Clean c log (clear c log) := by
  obtain ⟨front, back, h⟩ := h
  have hgone : log.destroy 0 c.size c.cells =
      (List.replicate c.size none ++ (List.replicate c.removed none ++ back.map some),
        { log with destroyed := log.destroyed ++ front }) := by
    rw [h.cells]
    show log.destroy 0 c.size ([] ++ front.map some ++ _) = ([] ++ _ ++ _, _)
    exact Log.destroy_live rfl h.size
  rw [clear, hgone]
  have hshape : Shape { c with
      cells := List.replicate c.size none ++ (List.replicate c.removed none ++ back.map some)
      size := 0, removed := c.removed + c.size } [] back := by
    refine ⟨?_, rfl, ?_⟩
    · show _ = [] ++ (List.replicate (c.removed + c.size) none ++ _)
      rw [← List.append_assoc, List.replicate_append_replicate, Nat.add_comm c.size]
      rfl
    · show c.capacity = 0 + ((c.removed + c.size) + _)
      rw [h.capacity, h.size]
      omega
  refine ⟨⟨_, _, hshape⟩, ?_, rfl⟩
  rw [hshape.held, h.held]
  exact Handover.destroy back front log

theorem Whole.clean_pushBackElement (h : Whole c) (hremoved : c.removed = 0) {o : ℕ}
    (ho : o ∉ (grow c log).2.destroyed) : Clean c log (pushBackElement (some o) c log) := by
  rw [pushBackElement, Log.moveFrom_alive ho]
  exact (h.clean_pushBack hremoved log).1

theorem Whole.alive_of_pushBackElement (h : Whole c) {value : Cell}
    (hok : (pushBackElement value c log).2.ok = true) :
    c.removed = 0 ∧ ∃ o ∈ value, o ∉ (grow c log).2.destroyed := by
  obtain ⟨front, back, h⟩ := h
  obtain ⟨hgrow, hsame, -⟩ := h.clean_grow log
  obtain ⟨front', back', h'⟩ := hgrow.whole
  exact ⟨hsame.symm.trans (h'.removed_of_assignEnd hok),
    (Log.alive_of_moveFrom (Log.ok_of_use hok)).2⟩

theorem shrinkToFit_none (hsize : c.size = 0) (hroom : c.size < c.capacity) :
    shrinkToFit c log =
      ({ cells := [], size := 0, capacity := 0, removed := 0 }, log.release c.cells) := by
  obtain ⟨cells, size, capacity, removed⟩ := c
  obtain rfl : size = 0 := hsize
  rw [shrinkToFit, if_pos hroom]
  simp [Log.allocate, Log.use, Log.construct, Log.destroy]

/-- **`shrink_to_fit` is in order when it does nothing**, or gives back an array that was
never used. -/
theorem Whole.clean_shrinkToFit (h : Whole c)
    (hsuits : c.size = c.capacity ∨ (c.size = 0 ∧ c.removed = 0)) (log : Log) :
    Clean c log (shrinkToFit c log) := by
  by_cases hroom : c.size < c.capacity
  · obtain ⟨hsize, hremoved⟩ := hsuits.resolve_left (Nat.ne_of_lt hroom)
    obtain ⟨front, back, h⟩ := h
    rw [shrinkToFit_none hsize hroom, h.release hremoved]
    refine ⟨⟨_, _, shape_empty⟩, ?_, rfl⟩
    have hgone := Handover.destroy [] c.held log
    rwa [List.append_nil] at hgone
  · rw [shrinkToFit, if_neg hroom]
    exact .refl h

theorem Whole.suits_of_shrinkToFit (h : Whole c) (hok : (shrinkToFit c log).2.ok = true) :
    c.size = c.capacity ∨ (c.size = 0 ∧ c.removed = 0) := by
  obtain ⟨front, back, h⟩ := h
  by_cases hroom : c.size < c.capacity
  · right
    have hsize : c.size = 0 := by
      by_contra hpos
      rw [shrinkToFit, if_pos hroom] at hok
      -- the elements would be constructed over the objects of the new array
      have hconstruct := (Bool.and_eq_true_iff.mp (Log.ok_of_destroy (Log.ok_of_release hok))).2
      rw [Log.allocate_eq] at hconstruct
      have hmem : some log.fresh ∈
          (((List.range' log.fresh c.size).map some).drop 0).take c.size := by
        rw [List.drop_zero, List.take_of_length_le (by simp)]
        refine List.mem_map_of_mem (List.mem_range'_1.mpr ⟨Nat.le_refl _, ?_⟩)
        exact Nat.lt_add_of_pos_right (Nat.pos_of_ne_zero hpos)
      exact Bool.false_ne_true (List.all_eq_true.mp hconstruct _ hmem)
    rw [shrinkToFit_none hsize hroom] at hok
    exact ⟨hsize, h.removed_of_release hok⟩
  · left
    have hsum := h.capacity
    have hlength := h.size
    omega

/-- Clean pieces one after the other, none of which leaves a cell empty. -/
theorem Clean.foldl {is : List ℕ} {f : Container × Log → ℕ → Container × Log}
    (hf : ∀ r, ∀ i ∈ is, Whole r.1 → r.1.removed = 0 →
      Clean r.1 r.2 (f r i) ∧ (f r i).1.removed = 0)
    (hr : Clean c log r) (hremoved : r.1.removed = 0) :
    Clean c log (is.foldl f r) ∧ (is.foldl f r).1.removed = 0 := by
  induction is generalizing r with
  | nil => exact ⟨hr, hremoved⟩
  | cons i is ih =>
      obtain ⟨hstep, hzero⟩ := hf r i List.mem_cons_self hr.whole hremoved
      exact ih (fun r j hj => hf r j (List.mem_cons_of_mem _ hj)) (hr.trans hstep) hzero

theorem clean_ofList (n : ℕ) (log : Log) : Clean {} log (ofList n log) := by
  obtain ⟨hreserve, hremoved, -⟩ := shape_empty.clean_reserve rfl log n
  refine (Clean.foldl ?_ hreserve hremoved).1
  intro r _ _ hr hzero
  exact hr.clean_pushBack hzero r.2

theorem Shape.getElem (h : Shape c front back) {k : ℕ} (hk : k < c.size) :
    ∃ o ∈ front, c.cells[k]? = some (some o) := by
  have hlt : k < front.length := h.size ▸ hk
  refine ⟨front[k], List.getElem_mem hlt, ?_⟩
  rw [h.cells, List.getElem?_append_left (by rwa [List.length_map]), List.getElem?_map,
    List.getElem?_eq_getElem hlt]
  rfl

theorem Shape.use_element (h : Shape c front back) {k : ℕ} (hk : k < c.size) :
    log.use k 1 c.cells = log := by
  obtain ⟨o, -, hget⟩ := h.getElem hk
  obtain ⟨hlt, hcell⟩ := List.getElem?_eq_some_iff.mp hget
  have hcells : c.cells = c.cells.take k ++ [o].map some ++ c.cells.drop (k + 1) := by
    rw [List.map_singleton, ← hcell, List.append_assoc, List.singleton_append,
      List.getElem_cons_drop, List.take_append_drop]
  rw [hcells]
  exact Log.use_live (List.length_take_of_le (Nat.le_of_lt hlt)).symm rfl

theorem Whole.clean_copyOf {d : Container} (hd : Whole d) (log : Log) :
    Clean {} log (copyOf d log) := by
  obtain ⟨hreserve, hremoved, -⟩ := shape_empty.clean_reserve rfl log d.size
  refine (Clean.foldl ?_ hreserve hremoved).1
  intro r i hi hr hzero
  obtain ⟨front, back, hd⟩ := hd
  rw [hd.use_element (List.mem_range.mp hi)]
  exact hr.clean_pushBack hzero r.2

end

/-! ## All containers -/

/-- The objects in the cells of a container, if it exists. -/
def State.holder {ι : Type} (s : State ι) (i : ι) : List ℕ := (s.objects i).elim [] Container.held

/-- No step did what it was not allowed to do, and every object that was constructed is
in a container and not destroyed, or destroyed exactly once and in no container. -/
def Proper {ι : Type} (s : State ι) : Prop :=
  s.log.ok = true ∧ ∀ o, o < s.log.fresh →
    ((∃ i, o ∈ s.holder i) ∧ s.log.destroyed.count o = 0) ∨
      ((¬ ∃ i, o ∈ s.holder i) ∧ s.log.destroyed.count o = 1)

structure Inv {ι : Type} (s : State ι) : Prop where
  whole : ∀ i c, s.objects i = some c → Whole c
  custody : Custody s.holder s.log
  ok : s.log.ok = true

section
variable {ι : Type} {s s' : State ι} {i j : ι} {c d : Container} {log : Log}

theorem inv_init : Inv ({} : State ι) where
  whole := fun _ _ h => absurd h (Option.some_ne_none _).symm
  custody := custody_init
  ok := rfl

theorem Inv.proper (h : Inv s) : Proper s := ⟨h.ok, fun _ ho => h.custody.count ho⟩

theorem holder_some (hi : s.objects i = some c) : s.holder i = c.held := by
  rw [State.holder, hi]
  rfl

theorem holder_none (hi : s.objects i = none) : s.holder i = [] := by
  rw [State.holder, hi]
  rfl

theorem Inv.release (h : Inv s) (hi : s.objects i = some c) (hremoved : c.removed = 0) (log : Log) :
    log.release c.cells = { log with destroyed := log.destroyed ++ c.held } := by
  obtain ⟨front, back, hc⟩ := h.whole i c hi
  exact hc.release hremoved

theorem Inv.removed_of_release (h : Inv s) (hi : s.objects i = some c)
    (hok : (log.release c.cells).ok = true) : ∀ c' ∈ s.objects i, c'.removed = 0 := by
  intro c' hc'
  obtain rfl := Option.some_inj.mp (hi.symm.trans hc')
  obtain ⟨front, back, hc⟩ := h.whole i c hi
  exact hc.removed_of_release hok

variable [DecidableEq ι]

theorem Inv.keep_update (h : Inv s) {o : Option Container} (hwhole : ∀ c ∈ o, Whole c)
    (hover : Handover (s.holder i) s.log (o.elim [] Container.held) log) (hok : log.ok = true) :
    Inv ⟨Function.update s.objects i o, log⟩ := by
  refine ⟨?_, ?_, hok⟩
  · intro j c hj
    rcases eq_or_ne j i with rfl | hne
    · exact hwhole c ((Function.update_self j o s.objects).symm.trans hj)
    · exact h.whole j c ((Function.update_of_ne hne o s.objects).symm.trans hj)
  · refine h.custody.change (List.nodup_singleton i) ?_ ?_
    · rw [List.flatMap_singleton, List.flatMap_singleton]
      show Handover _ _ ((Function.update s.objects i o i).elim [] Container.held) _
      rw [Function.update_self]
      exact hover
    · intro j hj
      show (Function.update s.objects i o j).elim [] Container.held = _
      rw [Function.update_of_ne (List.mem_singleton.not.mp hj)]
      rfl

theorem Inv.keep_set₂ (h : Inv s) (hne : i ≠ j) (hc : Whole c) (hd : Whole d)
    (hover : Handover (s.holder i ++ s.holder j) s.log (c.held ++ d.held) log)
    (hok : log.ok = true) : Inv ⟨set₂ i j c d s.objects, log⟩ := by
  have hi : set₂ i j c d s.objects i = some c := Function.update_self ..
  have hj : set₂ i j c d s.objects j = some d :=
    (Function.update_of_ne hne.symm _ _).trans (Function.update_self ..)
  have hother : ∀ k, k ≠ i → k ≠ j → set₂ i j c d s.objects k = s.objects k := fun k hki hkj =>
    (Function.update_of_ne hki _ _).trans (Function.update_of_ne hkj _ _)
  refine ⟨?_, ?_, hok⟩
  · intro k e hk
    show Whole e
    by_cases hki : k = i
    · subst hki
      exact Option.some_inj.mp (hi.symm.trans hk) ▸ hc
    · by_cases hkj : k = j
      · subst hkj
        exact Option.some_inj.mp (hj.symm.trans hk) ▸ hd
      · exact h.whole k e ((hother k hki hkj).symm.trans hk)
  · refine h.custody.change (List.nodup_cons.mpr ⟨List.mem_singleton.not.mpr hne, List.nodup_singleton j⟩) ?_ ?_
    · have hi' : (⟨set₂ i j c d s.objects, log⟩ : State ι).holder i = c.held := holder_some hi
      have hj' : (⟨set₂ i j c d s.objects, log⟩ : State ι).holder j = d.held := holder_some hj
      rw [List.flatMap_cons, List.flatMap_singleton, List.flatMap_cons, List.flatMap_singleton,
        hi', hj']
      exact hover
    · intro k hk
      obtain ⟨hki, hkj⟩ := not_or.mp (List.mem_pair.not.mp hk)
      show (SmartContainer.set₂ i j c d s.objects k).elim [] Container.held = _
      rw [hother k hki hkj]
      rfl

theorem eq_of_create {r : Container × Log} (hstep : s.create i r = some s') :
    s.objects i = none ∧ s' = ⟨Function.update s.objects i (some r.1), r.2⟩ := by
  rw [State.create] at hstep
  split at hstep
  next hi => exact ⟨hi, (Option.some_inj.mp hstep).symm⟩
  next => exact absurd hstep (Option.some_ne_none _).symm

theorem eq_of_modify {f : Container → Log → Container × Log} (hstep : s.modify i f = some s') :
    ∃ c, s.objects i = some c ∧
      s' = ⟨Function.update s.objects i (some (f c s.log).1), (f c s.log).2⟩ := by
  obtain ⟨c, hi, hs'⟩ := Option.map_eq_some_iff.mp hstep
  exact ⟨c, hi, hs'.symm⟩

theorem eq_of_assign {f : Container → Container → State ι} {i other : ι}
    (hstep : (match s.objects i, s.objects other with
      | some c, some d => if i = other then some s else some (f c d)
      | _, _ => none) = some s') :
    (i = other ∧ s' = s) ∨
      ∃ c d, i ≠ other ∧ s.objects i = some c ∧ s.objects other = some d ∧ s' = f c d := by
  split at hstep
  next c d hi hother =>
    split at hstep
    next heq => exact Or.inl ⟨heq, (Option.some_inj.mp hstep).symm⟩
    next hne => exact Or.inr ⟨c, d, hne, hi, hother, (Option.some_inj.mp hstep).symm⟩
  next => exact absurd hstep (Option.some_ne_none _).symm

theorem Inv.keep_create (h : Inv s) {r : Container × Log} (hstep : s.create i r = some s')
    (hr : Clean {} s.log r) : Inv s' := by
  obtain ⟨hi, rfl⟩ := eq_of_create hstep
  refine h.keep_update (fun c hc => Option.some_inj.mp hc ▸ hr.whole) ?_ (hr.ok.trans h.ok)
  rw [holder_none hi]
  exact hr.handover

theorem Inv.keep_modify (h : Inv s) {f : Container → Log → Container × Log}
    (hstep : s.modify i f = some s')
    (hf : ∀ c ∈ s.objects i, Whole c → Clean c s.log (f c s.log)) : Inv s' := by
  obtain ⟨c, hi, rfl⟩ := eq_of_modify hstep
  have hclean := hf c hi (h.whole i c hi)
  refine h.keep_update (fun c hc => Option.some_inj.mp hc ▸ hclean.whole) ?_ (hclean.ok.trans h.ok)
  rw [holder_some hi]
  exact hclean.handover

/-- What has to hold before a call on one container, from what the log says after it. -/
theorem Inv.suits_of_modify (h : Inv s) {f : Container → Log → Container × Log} {p : Container → Prop}
    (hstep : s.modify i f = some s') (hok : s'.log.ok = true)
    (hf : ∀ c, Whole c → (f c s.log).2.ok = true → p c) : ∀ c ∈ s.objects i, p c := by
  obtain ⟨c, hi, rfl⟩ := eq_of_modify hstep
  intro c' hc'
  obtain rfl := Option.some_inj.mp (hi.symm.trans hc')
  exact hf c (h.whole i c hi) hok

end

section
variable {ι T : Type} [DecidableEq ι] {s s' : State ι}

theorem Inv.keep_copyAssign (h : Inv s) {i other : ι} {c d : Container} (hi : s.objects i = some c)
    (hother : s.objects other = some d) (hremoved : c.removed = 0) :
    Inv ⟨Function.update s.objects i (some (copyOf d s.log).1),
      (copyOf d s.log).2.release c.cells⟩ := by
  have hcopy := (h.whole other d hother).clean_copyOf s.log
  rw [h.release hi hremoved]
  refine h.keep_update (fun c hc => Option.some_inj.mp hc ▸ hcopy.whole) ?_ (hcopy.ok.trans h.ok)
  rw [holder_some hi]
  have hover := hcopy.handover.frame c.held
  rw [show Container.held {} = [] from rfl, List.append_nil] at hover
  exact hover.trans (Handover.destroy _ c.held _)

theorem Inv.keep_moveAssign (h : Inv s) {i other : ι} {c d : Container} (hne : i ≠ other)
    (hi : s.objects i = some c) (hother : s.objects other = some d) (hremoved : c.removed = 0) :
    Inv ⟨set₂ i other d {} s.objects, s.log.release c.cells⟩ := by
  rw [h.release hi hremoved]
  refine h.keep_set₂ hne (h.whole other d hother) ⟨_, _, shape_empty⟩ ?_ h.ok
  rw [holder_some hi, holder_some hother, show Container.held {} = [] from rfl, List.append_nil]
  exact Handover.destroy d.held c.held s.log

theorem Inv.alive_after_grow (h : Inv s) {i other : ι} {c d : Container} {o : ℕ}
    (hi : s.objects i = some c) (hother : s.objects other = some d) (ho : o ∈ d.held)
    (hroom : i = other → c.size ≠ c.capacity) : o ∉ (grow c s.log).2.destroyed := by
  obtain ⟨front, back, hc⟩ := h.whole i c hi
  by_cases heq : i = other
  · rw [grow, if_neg (hroom heq)]
    exact h.custody.alive other (holder_some hother ▸ ho)
  · -- the other container keeps its objects
    obtain ⟨hgrow, -⟩ := hc.clean_grow s.log
    have hkeep : Inv (⟨Function.update s.objects i (some (grow c s.log).1), (grow c s.log).2⟩ : State ι) := by
      refine h.keep_update (fun c hc => Option.some_inj.mp hc ▸ hgrow.whole) ?_ (hgrow.ok.trans h.ok)
      rw [holder_some hi]
      exact hgrow.handover
    refine hkeep.custody.alive other ?_
    rw [holder_some ((Function.update_of_ne (Ne.symm heq) _ _).trans hother)]
    exact ho

omit [DecidableEq ι] in
theorem Inv.gone_after_grow (h : Inv s) {i : ι} {c : Container} {o : ℕ} (hi : s.objects i = some c)
    (ho : o ∈ c.held) (hfull : c.size = c.capacity) : o ∈ (grow c s.log).2.destroyed := by
  obtain ⟨front, back, hc⟩ := h.whole i c hi
  have hgrow : ¬ (if c.capacity = 0 then 1 else c.capacity * 2) ≤ c.capacity := by
    split <;> omega
  rw [grow, if_pos hfull, reserve, if_neg hgrow]
  show o ∈ (Log.release c.cells _).destroyed
  rw [hc.release (hc.full hfull).1]
  exact List.mem_append_right _ ho

omit [DecidableEq ι] in
theorem Inv.element (h : Inv s) {i : ι} {c : Container} {k : ℕ} (hi : s.objects i = some c)
    (hk : k < c.size) : ∃ o ∈ c.held, c.cells[k]?.getD none = some o := by
  obtain ⟨front, back, hc⟩ := h.whole i c hi
  obtain ⟨o, ho, hget⟩ := hc.getElem hk
  exact ⟨o, hc.held ▸ List.mem_append_left _ ho, by rw [hget]; rfl⟩

/-- **A call in a state that suits it is in order.** -/
theorem Inv.keep_step (h : Inv s) {call : Call ι T} (hstep : step call s = some s')
    (hsuits : Suits call s) : Inv s' := by
  cases call with
  | op op =>
      cases op with
      | construct i => exact h.keep_create hstep (.refl ⟨_, _, shape_empty⟩)
      | constructList i ilist => exact h.keep_create hstep (clean_ofList _ _)
      | copyConstruct i other =>
          obtain ⟨d, hd, hcreate⟩ := Option.bind_eq_some_iff.mp hstep
          exact h.keep_create hcreate ((h.whole other d hd).clean_copyOf s.log)
      | moveConstruct i other =>
          rw [step] at hstep
          split at hstep
          next d hi hother =>
            obtain rfl := Option.some_inj.mp hstep
            have hne : i ≠ other := by
              rintro rfl
              exact Option.some_ne_none d (hother.symm.trans hi)
            refine h.keep_set₂ hne (h.whole other d hother) ⟨_, _, shape_empty⟩ ?_ h.ok
            rw [holder_none hi, holder_some hother]
            exact .of_perm (List.append_nil _ ▸ .refl _) rfl rfl
          next => exact absurd hstep (Option.some_ne_none _).symm
      | destroy i =>
          obtain ⟨c, hi, rfl⟩ := Option.map_eq_some_iff.mp hstep
          have hrelease := h.release hi (hsuits c hi) s.log
          refine h.keep_update (fun _ hc => absurd hc (Option.some_ne_none _).symm) ?_ ?_
          · rw [holder_some hi, hrelease]
            have hover := Handover.destroy [] c.held s.log
            rwa [List.append_nil] at hover
          · rw [hrelease]
            exact h.ok
      | pushBack i value =>
          exact h.keep_modify hstep fun c hi hc => (hc.clean_pushBack (hsuits c hi) s.log).1
      | emplaceBack i value =>
          exact h.keep_modify hstep fun c hi hc => hc.clean_emplaceBack (hsuits c hi) s.log
      | popBack i => exact h.keep_modify hstep fun c _ hc => hc.clean_popBack s.log
      | clear i => exact h.keep_modify hstep fun c _ hc => hc.clean_clear s.log
      | shrinkToFit i =>
          exact h.keep_modify hstep fun c hi hc => hc.clean_shrinkToFit (hsuits c hi) s.log
      | copyAssign i other =>
          rw [step] at hstep
          obtain ⟨-, rfl⟩ | ⟨c, d, hne, hi, hother, rfl⟩ := eq_of_assign hstep
          · exact h
          · exact h.keep_copyAssign hi hother (hsuits hne c hi)
      | moveAssign i other =>
          rw [step] at hstep
          obtain ⟨-, rfl⟩ | ⟨c, d, hne, hi, hother, rfl⟩ := eq_of_assign hstep
          · exact h
          · exact h.keep_moveAssign hne hi hother (hsuits hne c hi)
      | swap i other =>
          rw [step] at hstep
          split at hstep
          next c d hi hother =>
            obtain rfl := Option.some_inj.mp hstep
            rcases eq_or_ne i other with rfl | hne
            · -- a container and itself
              obtain rfl := Option.some_inj.mp (hi.symm.trans hother)
              have hself : set₂ i i c c s.objects = s.objects := by
                rw [SmartContainer.set₂, Function.update_idem, ← hi, Function.update_eq_self]
              rw [hself]
              exact h
            · refine h.keep_set₂ hne (h.whole other d hother) (h.whole i c hi) ?_ h.ok
              rw [holder_some hi, holder_some hother]
              exact .of_perm List.perm_append_comm rfl rfl
          next => exact absurd hstep (Option.some_ne_none _).symm
  | pushBackElement i other k =>
      obtain ⟨d, hother, hmodify⟩ := Option.bind_eq_some_iff.mp hstep
      split at hmodify
      next hk =>
        obtain ⟨o, ho, hvalue⟩ := h.element hother hk
        rw [hvalue] at hmodify
        refine h.keep_modify hmodify fun c hi hc => ?_
        obtain ⟨hremoved, hroom⟩ := hsuits c hi
        exact hc.clean_pushBackElement hremoved (h.alive_after_grow hi hother ho hroom)
      next => exact absurd hmodify (Option.some_ne_none _).symm

/-- **A call after which all is well was made in a state that suits it.** -/
theorem Inv.suits_of_ok (h : Inv s) {call : Call ι T} (hstep : step call s = some s')
    (hok : s'.log.ok = true) : Suits call s := by
  cases call with
  | op op =>
      cases op with
      | construct | constructList | copyConstruct | moveConstruct | popBack | clear | swap => trivial
      | destroy i =>
          obtain ⟨c, hi, rfl⟩ := Option.map_eq_some_iff.mp hstep
          exact h.removed_of_release hi hok
      | pushBack i value => exact h.suits_of_modify hstep hok fun c hc => hc.removed_of_pushBack
      | emplaceBack i value =>
          exact h.suits_of_modify hstep hok fun c hc => hc.removed_of_emplaceBack
      | shrinkToFit i => exact h.suits_of_modify hstep hok fun c hc => hc.suits_of_shrinkToFit
      | copyAssign i other =>
          intro hne
          rw [step] at hstep
          obtain ⟨heq, -⟩ | ⟨c, d, -, hi, -, rfl⟩ := eq_of_assign hstep
          · exact absurd heq hne
          · exact h.removed_of_release hi hok
      | moveAssign i other =>
          intro hne
          rw [step] at hstep
          obtain ⟨heq, -⟩ | ⟨c, d, -, hi, -, rfl⟩ := eq_of_assign hstep
          · exact absurd heq hne
          · exact h.removed_of_release hi hok
  | pushBackElement i other k =>
      obtain ⟨d, hother, hmodify⟩ := Option.bind_eq_some_iff.mp hstep
      split at hmodify
      next hk =>
        obtain ⟨o, ho, hvalue⟩ := h.element hother hk
        obtain ⟨c, hi, rfl⟩ := eq_of_modify hmodify
        obtain ⟨hremoved, o', ho', halive⟩ := (h.whole i c hi).alive_of_pushBackElement hok
        obtain rfl := Option.some_inj.mp (hvalue.symm.trans ho')
        intro c' hc'
        obtain rfl := Option.some_inj.mp (hi.symm.trans hc')
        refine ⟨hremoved, ?_⟩
        rintro rfl hfull
        obtain rfl := Option.some_inj.mp (hi.symm.trans hother)
        exact halive (h.gone_after_grow hi ho hfull)
      next => exact absurd hmodify (Option.some_ne_none _).symm

/-- **Lifetimes.**  All along a run no step destroys, assigns to or moves from what does
not live, or constructs over what lives, and every object is destroyed exactly once, just
when each call is made in a state that suits it. -/
theorem lifetimes_iff (calls : List (Call ι T)) :
    Always step ({} : State ι) calls Proper ↔ EachStep step ({} : State ι) calls Suits :=
  always_iff Inv inv_init (fun _ h => h.proper)
    (fun _ _ _ h hstep hsuits => h.keep_step hstep hsuits)
    (fun _ _ _ h hstep hnot hproper => hnot (h.suits_of_ok hstep hproper.1))

end

/-- `push_back` alone is in order, and `emplace_back` after `pop_back`. -/
example : EachStep step ({} : State ℕ)
    [.op (.construct 0), .op (.pushBack 0 'a'), .op (.pushBack 0 'b'), .op (.popBack 0),
      .op (.emplaceBack 0 'c'), .op (.copyConstruct 1 0), .op (.destroy 0), .op (.destroy 1)] Suits := by
  decide

/-- The calls of `demo_memory_management`, on `objects` (0) and `objects_copy` (1). -/
def demo : List (Call ℕ String) :=
  [.op (.construct 0), .op (.emplaceBack 0 "obj1"), .op (.emplaceBack 0 "obj2"),
    .op (.pushBack 0 "obj3"), .op (.copyConstruct 1 0), .op (.destroy 1), .op (.destroy 0)]

/-- It constructs over the objects of `new T[n]`, and the first of them is never destroyed. -/
theorem demo_not_proper : ¬ Always step ({} : State ℕ) demo Proper ∧
    (schedule step demo ({} : State ℕ)).log.ok = false ∧
    0 ∉ (schedule step demo ({} : State ℕ)).log.destroyed := by
  have hok : (schedule step demo ({} : State ℕ)).log.ok = false := by decide
  refine ⟨fun h => ?_, hok, by decide⟩
  exact Bool.false_ne_true (hok.symm.trans (h demo (List.prefix_refl demo)).1)

end LearnCpp.Memory.SmartContainerLifetime
