/-
# `LearnCpp.Memory.SmartContainerPushBack` — the element that goes to a new array

`push_back(const T &)` of `topics/memory/smart_container/SmartContainer.h`, which
reallocates a full array and then assigns to the cell behind the last element.
Two things may go wrong on the way:

  * the argument may be an element of the container, which is in the old array;
  * a constructor or an assignment of `T` may throw, after elements were moved
    over, or after `size_` was incremented.

A reference to an element is the number of its array and its place there, and it
is good as long as the container owns that array.  A cell without an object is one
that `pop_back` or `clear` has destroyed; there are none for a trivial `T`.
-/
import LearnCpp.Lib.Lifetime
import LearnCpp.Memory.SmartContainer

namespace LearnCpp.Memory.SmartContainerPushBack

open Lib

variable {T : Type}

/-- What the code depends on in a `T`. -/
structure Traits (T : Type) where
  /-- `std::is_trivially_constructible_v<T> && std::is_trivially_destructible_v<T>` -/
  trivial : Bool
  /-- `T()` -/
  initial : T
  /-- What a move leaves behind. -/
  moved : T → T

structure Container (T : Type) where
  /-- The number of the array that `data_` owns. -/
  array : ℕ := 0
  cells : List (Option T) := []
  size : ℕ := 0
  capacity : ℕ := 0
  deriving DecidableEq

/-- The argument of `push_back`. -/
inductive Value (T : Type) where
  | outside (v : T)
  | element (array i : ℕ)

/-- What throws, if it comes to that. -/
inductive Fault (T : Type) where
  | allocation
  /-- The construction of the `k`-th object of a new array. -/
  | construct (k : ℕ)
  /-- The assignment of the `k`-th element to the new array, which leaves `left` where it was
  to be moved from. -/
  | relocate (k : ℕ) (left : T)
  /-- The assignment of the argument, which leaves `left` where it was to go. -/
  | assign (left : T)
  deriving DecidableEq

/-- How a piece of code ends. -/
inductive Ends (α : Type) where
  | returned (a : α)
  | threw (a : α)
  | undefined
  deriving DecidableEq

def Ends.bind {α : Type} (r : Ends α) (f : α → Ends α) : Ends α :=
  match r with
  | returned a => f a
  | threw a => threw a
  | undefined => undefined

/-- The value that an argument refers to, if it refers to one. -/
def Value.read (c : Container T) : Value T → Option T
  | outside v => some v
  | element array i => if array = c.array then c.cells[i]?.join else none

/-- What the assignment of the `i`-th element leaves, where it throws. -/
def leftAt (fault : Option (Fault T)) (i : ℕ) : Option T :=
  match fault with
  | some (.relocate k left) => if i = k then some left else none
  | _ => none

/-- A new array, unless that throws. -/
def allocate (t : Traits T) (fault : Option (Fault T)) (n : ℕ) : Option (List (Option T)) :=
  match fault with
  | some .allocation => none
  | some (.construct k) =>
      if t.trivial = false ∧ k < n then none else some (List.replicate n (some t.initial))
  | _ => some (List.replicate n (some t.initial))

/-- The old array and the new one. -/
abbrev Arrays (T : Type) := List (Option T) × List (Option T)

/-- `std::copy`, which only reads the old array. -/
def copyCells (fault : Option (Fault T)) (n : ℕ) (arrays : Arrays T) : Ends (Arrays T) :=
  match SmartContainer.copyInto n arrays.1 arrays.2 with
  | none => .undefined
  | some newData =>
      if ∃ i < n, (leftAt fault i).isSome then .threw arrays else .returned (arrays.1, newData)

/-- `new_data[i] = std::move(data_[i])` -/
def moveCell (t : Traits T) (fault : Option (Fault T)) (i : ℕ) (arrays : Arrays T) : Ends (Arrays T) :=
  match arrays.1[i]?.join, arrays.2[i]?.join with
  | some v, some _ =>
      match leftAt fault i with
      | some left => .threw (arrays.1.set i (some left), arrays.2)
      | none => .returned (arrays.1.set i (some (t.moved v)), arrays.2.set i (some v))
  | _, _ => .undefined

/-- The loop over the first `n` elements. -/
def moveCells (t : Traits T) (fault : Option (Fault T)) (n : ℕ) (arrays : Arrays T) : Ends (Arrays T) :=
  (List.range n).foldl (fun r i => r.bind (moveCell t fault i)) (.returned arrays)

/-- The first `n` elements go to the new array. -/
def relocate (t : Traits T) (fault : Option (Fault T)) (n : ℕ) (arrays : Arrays T) : Ends (Arrays T) :=
  if t.trivial then copyCells fault n arrays else moveCells t fault n arrays

/-- `data_ = std::move(new_data)`, which destroys an object in each cell of the old array. -/
def adopt (t : Traits T) (newCap : ℕ) (c : Container T) : Ends (Arrays T) → Ends (Container T)
  | .returned (data, newData) =>
      if t.trivial = true ∨ data.all Option.isSome then
        .returned { c with array := c.array + 1, cells := newData, capacity := newCap }
      else .undefined
  | .threw (data, _) => .threw { c with cells := data }
  | .undefined => .undefined

def reserve (t : Traits T) (fault : Option (Fault T)) (newCap : ℕ) (c : Container T) :
    Ends (Container T) :=
  if newCap ≤ c.capacity then .returned c
  else
    match allocate t fault newCap with
    | none => .threw c
    | some newData => adopt t newCap c (relocate t fault c.size (c.cells, newData))

/-- Ensure that there is space for one more element. -/
def grow (t : Traits T) (fault : Option (Fault T)) (c : Container T) : Ends (Container T) :=
  if c.size = c.capacity then reserve t fault (if c.capacity = 0 then 1 else c.capacity * 2) c
  else .returned c

/-- `size_++`, and what is in the cell then. -/
def Container.put (v : T) (c : Container T) : Container T :=
  { c with cells := c.cells.set c.size (some v), size := c.size + 1 }

/-- `data_[size_++] = value` -/
def assignEnd (fault : Option (Fault T)) (value : Value T) (c : Container T) : Ends (Container T) :=
  match value.read c, c.cells[c.size]?.join with
  | some v, some _ =>
      match fault with
      | some (.assign left) => .threw (c.put left)
      | _ => .returned (c.put v)
  | _, _ => .undefined

def pushBack (t : Traits T) (fault : Option (Fault T)) (value : Value T) (c : Container T) :
    Ends (Container T) :=
  (grow t fault c).bind (assignEnd fault value)

/-! ## The states of a container -/

def Container.elements (c : Container T) : List T := (c.cells.take c.size).reduceOption

/-- There is an object in each of the first `size_` cells of the array, and for a trivial `T`
in all of them. -/
structure Valid (t : Traits T) (c : Container T) : Prop where
  length : c.cells.length = c.capacity
  bound : c.size ≤ c.capacity
  live : c.cells.take c.size = c.elements.map some
  allLive : t.trivial = true → c.cells.all Option.isSome

/-- The argument is good when it is passed. -/
def Value.Good (c : Container T) : Value T → Prop
  | outside _ => True
  | element array i => array = c.array ∧ i < c.size

/-- There is an object in the cell behind the last element. -/
def NextLive (c : Container T) : Prop := (c.cells[c.size]?.join).isSome

section
variable {t : Traits T} {fault : Option (Fault T)} {value : Value T} {c c' : Container T}
  {l pre post : List T} {n : ℕ}

theorem elements_eq {spare : List (Option T)} (hcells : c.cells = l.map some ++ spare)
    (hsize : c.size = l.length) : c.elements = l := by
  rw [Container.elements, hcells, hsize, List.take_left' (List.length_map some), reduceOption_live]

theorem Valid.size_eq (h : Valid t c) : c.size = c.elements.length := by
  have hlength := congrArg List.length h.live
  rwa [List.length_take_of_le (h.length ▸ h.bound), List.length_map] at hlength

theorem Valid.cells_eq (h : Valid t c) : c.cells = c.elements.map some ++ c.cells.drop c.size := by
  rw [← h.live, List.take_append_drop]

theorem Valid.cells_full (h : Valid t c) (hfull : c.size = c.capacity) :
    c.cells = c.elements.map some := by
  rw [← h.live, List.take_of_length_le (by rw [h.length, hfull])]

theorem Valid.read_element (h : Valid t c) {i : ℕ} (hi : i < c.size) :
    (Value.element c.array i).read c = c.elements[i]? := by
  have hlt : i < c.elements.length := h.size_eq ▸ hi
  rw [Value.read, if_pos rfl, h.cells_eq, List.getElem?_append_left (by rwa [List.length_map]),
    List.getElem?_map, List.getElem?_eq_getElem hlt]
  rfl

/-! ## The loop -/

theorem moveCells_succ (arrays : Arrays T) :
    moveCells t fault (n + 1) arrays = (moveCells t fault n arrays).bind (moveCell t fault n) := by
  rw [moveCells, List.range_succ, List.foldl_append]
  rfl

theorem set_between {xs ys : List (Option T)} {x y : Option T} (hn : xs.length = n) :
    (xs ++ x :: ys).set n y = xs ++ y :: ys := by
  rw [List.set_append_right _ _ hn.le, hn, Nat.sub_self, List.set_cons_zero]

theorem get_between {xs ys : List (Option T)} {x : T} (hn : xs.length = n) :
    (xs ++ some x :: ys)[n]?.join = some x := by
  rw [List.getElem?_append_right hn.le, hn, Nat.sub_self]
  rfl

theorem moveCell_between {old new rest rest' : List (Option T)} {v w : T} (hold : old.length = n)
    (hnew : new.length = n) :
    moveCell t fault n (old ++ some v :: rest, new ++ some w :: rest') =
      match leftAt fault n with
      | some left => .threw (old ++ some left :: rest, new ++ some w :: rest')
      | none => .returned (old ++ some (t.moved v) :: rest, new ++ some v :: rest') := by
  rw [moveCell]
  dsimp only
  rw [get_between hold, get_between hnew]
  cases leftAt fault n with
  | some left =>
      dsimp only
      rw [set_between hold]
  | none =>
      dsimp only
      rw [set_between hold, set_between hnew]

theorem moveCell_next (pre post : List T) (v : T) (m : ℕ) :
    moveCell t fault pre.length ((pre.map t.moved ++ v :: post).map some,
        pre.map some ++ List.replicate (m + 1) (some t.initial)) =
      match leftAt fault pre.length with
      | some left => .threw ((pre.map t.moved ++ left :: post).map some,
          pre.map some ++ List.replicate (m + 1) (some t.initial))
      | none => .returned ((pre.map t.moved ++ t.moved v :: post).map some,
          pre.map some ++ some v :: List.replicate m (some t.initial)) := by
  have hold : ((pre.map t.moved).map some).length = pre.length := by
    rw [List.length_map, List.length_map]
  simp only [List.map_append, List.map_cons, List.replicate_succ]
  exact moveCell_between hold (List.length_map some)

theorem moveCells_returned (hsafe : ∀ i < pre.length, leftAt fault i = none) (post : List T) (m : ℕ) :
    moveCells t fault pre.length
        ((pre ++ post).map some, List.replicate (pre.length + m) (some t.initial)) =
      .returned ((pre.map t.moved ++ post).map some,
        pre.map some ++ List.replicate m (some t.initial)) := by
  induction pre using List.reverseRecOn generalizing post m with
  | nil =>
      rw [List.length_nil, Nat.zero_add]
      rfl
  | append_singleton pre v ih =>
      rw [List.length_append, List.length_singleton] at hsafe ⊢
      rw [moveCells_succ, List.append_assoc, List.singleton_append, Nat.add_assoc, Nat.add_comm 1 m,
        ih (fun i hi => hsafe i (Nat.lt_succ_of_lt hi)), Ends.bind, moveCell_next,
        hsafe _ (Nat.lt_succ_self _)]
      simp

/-- What was moved before the round that throws is moved from, and stays so. -/
theorem moveCells_threw {v left : T} (hleft : fault = some (.relocate pre.length left)) (m : ℕ)
    (hn : pre.length < n) :
    ∃ newData, moveCells t fault n
        ((pre ++ v :: post).map some, List.replicate (pre.length + (m + 1)) (some t.initial)) =
      .threw ((pre.map t.moved ++ left :: post).map some, newData) := by
  have hat : ∀ i, leftAt fault i = if i = pre.length then some left else none := by
    intro i
    rw [hleft, leftAt]
  induction n, hn using Nat.le_induction with
  | base =>
      have hsafe : ∀ i < pre.length, leftAt fault i = none := by
        intro i hi
        rw [hat, if_neg hi.ne]
      refine ⟨pre.map some ++ List.replicate (m + 1) (some t.initial), ?_⟩
      rw [Nat.succ_eq_add_one, moveCells_succ, moveCells_returned hsafe, Ends.bind, moveCell_next, hat,
        if_pos rfl]
  | succ n hn ih =>
      obtain ⟨newData, ih⟩ := ih
      exact ⟨newData, by rw [moveCells_succ, ih]; rfl⟩

/-! ## What `grow` leaves -/

theorem grow_of_room (hroom : c.size ≠ c.capacity) : grow t fault c = .returned c := if_neg hroom

theorem grow_full (hfull : c.size = c.capacity) :
    ∃ m, grow t fault c =
      match allocate t fault (c.size + (m + 1)) with
      | none => .threw c
      | some newData => adopt t (c.size + (m + 1)) c (relocate t fault c.size (c.cells, newData)) := by
  have hcap : ∃ m, (if c.capacity = 0 then 1 else c.capacity * 2) = c.size + (m + 1) := by
    rw [hfull]
    split
    next hzero => exact ⟨0, by omega⟩
    next hpos => exact ⟨c.capacity - 1, by omega⟩
  obtain ⟨m, hm⟩ := hcap
  refine ⟨m, ?_⟩
  rw [grow, if_pos hfull, hm, reserve, if_neg (by omega)]

theorem allocate_cases (n : ℕ) :
    allocate t fault n = none ∨ allocate t fault n = some (List.replicate n (some t.initial)) := by
  cases fault with
  | none => exact Or.inr rfl
  | some fault =>
      cases fault with
      | allocation => exact Or.inl rfl
      | construct k =>
          rw [allocate]
          split
          next => exact Or.inl rfl
          next => exact Or.inr rfl
      | relocate k left => exact Or.inr rfl
      | assign left => exact Or.inr rfl

theorem copyCells_eq (l : List T) (m : ℕ) :
    copyCells fault l.length (l.map some, List.replicate (l.length + m) (some t.initial)) =
      if ∃ i < l.length, (leftAt fault i).isSome then
        .threw (l.map some, List.replicate (l.length + m) (some t.initial))
      else .returned (l.map some, l.map some ++ List.replicate m (some t.initial)) := by
  have htake : (l.map some).take l.length = l.map some :=
    List.take_of_length_le (List.length_map some).le
  rw [copyCells, SmartContainer.copyInto_eq (by simp) (by simp), htake, List.drop_replicate,
    Nat.add_sub_cancel_left]

/-- Without an exception the elements are in the new array, and there is still an object in
each cell of the old one. -/
theorem relocate_returned (hsafe : ∀ i < l.length, leftAt fault i = none) (m : ℕ) :
    ∃ data, relocate t fault l.length (l.map some, List.replicate (l.length + m) (some t.initial)) =
        .returned (data, l.map some ++ List.replicate m (some t.initial)) ∧
      data.all Option.isSome := by
  rw [relocate]
  split
  next =>
    have hnone : ¬ ∃ i < l.length, (leftAt fault i).isSome := by
      rintro ⟨i, hi, hsome⟩
      rw [hsafe i hi] at hsome
      cases hsome
    rw [copyCells_eq, if_neg hnone]
    exact ⟨_, rfl, by simp⟩
  next =>
    have hloop := @moveCells_returned T t fault l hsafe [] m
    rw [List.append_nil] at hloop
    exact ⟨_, hloop, by simp⟩

theorem relocate_trivial (htrivial : t.trivial = true) {v left : T}
    (hleft : fault = some (.relocate pre.length left)) (hl : l = pre ++ v :: post) (m : ℕ) :
    ∃ newData, relocate t fault l.length
        (l.map some, List.replicate (l.length + m) (some t.initial)) = .threw (l.map some, newData) := by
  have hsome : ∃ i < l.length, (leftAt fault i).isSome := by
    refine ⟨pre.length, by rw [hl]; simp, ?_⟩
    rw [hleft, leftAt, if_pos rfl]
    rfl
  rw [relocate, if_pos htrivial, copyCells_eq, if_pos hsome]
  exact ⟨_, rfl⟩

/-- The container with its elements in a new array. -/
def Container.relocated (t : Traits T) (c : Container T) (m : ℕ) : Container T :=
  { c with
    array := c.array + 1, cells := c.elements.map some ++ List.replicate m (some t.initial)
    capacity := c.size + m }

theorem Valid.grow_safe (h : Valid t c) (hfull : c.size = c.capacity)
    (hsafe : ∀ i < c.size, leftAt fault i = none) :
    ∃ m, (allocate t fault (c.size + (m + 1)) = none ∧ grow t fault c = .threw c) ∨
      grow t fault c = .returned (c.relocated t (m + 1)) := by
  obtain ⟨m, hgrow⟩ := @grow_full T t fault c hfull
  refine ⟨m, ?_⟩
  rcases @allocate_cases T t fault (c.size + (m + 1)) with hnone | hsome
  · rw [hnone] at hgrow
    exact Or.inl ⟨hnone, hgrow⟩
  · refine Or.inr (hgrow.trans ?_)
    rw [h.size_eq] at hsafe
    rw [hsome, h.cells_full hfull, Container.relocated, h.size_eq]
    dsimp only
    obtain ⟨data, hrelocate, hall⟩ := @relocate_returned T t fault c.elements hsafe (m + 1)
    rw [hrelocate, adopt, if_pos (Or.inr hall), ← h.size_eq]

theorem Valid.grow_relocate (h : Valid t c) (hfull : c.size = c.capacity) {v left : T}
    (hleft : fault = some (.relocate pre.length left)) (hl : c.elements = pre ++ v :: post) :
    grow t fault c = .threw { c with
      cells := if t.trivial then c.cells else (pre.map t.moved ++ left :: post).map some } := by
  obtain ⟨m, hgrow⟩ := @grow_full T t fault c hfull
  have halloc : allocate t fault (c.size + (m + 1)) =
      some (List.replicate (c.size + (m + 1)) (some t.initial)) := by
    rw [hleft]
    rfl
  rw [hgrow, halloc]
  dsimp only
  rw [h.cells_full hfull, h.size_eq]
  split
  next htrivial =>
    obtain ⟨newData, hthrew⟩ := relocate_trivial htrivial hleft hl (m + 1)
    rw [hthrew, adopt, ← h.size_eq]
  next htrivial =>
    have hlength : c.elements.length = pre.length + (post.length + 1) := by
      rw [hl, List.length_append, List.length_cons]
    have hroom : c.elements.length + (m + 1) = pre.length + ((post.length + 1 + m) + 1) := by omega
    obtain ⟨newData, hthrew⟩ :=
      @moveCells_threw T t fault pre post c.elements.length v left hleft (post.length + 1 + m) (by omega)
    rw [← hl] at hthrew
    rw [relocate, if_neg htrivial, hroom, hthrew, adopt, ← h.size_eq]

/-! ## The assignment behind the last element -/

theorem assignEnd_eq {v : T} (hread : value.read c = some v) (hnext : NextLive c) :
    assignEnd fault value c =
      match fault with
      | some (.assign left) => .threw (c.put left)
      | _ => .returned (c.put v) := by
  obtain ⟨w, hw⟩ := Option.isSome_iff_exists.mp hnext
  rw [assignEnd, hread, hw]

theorem assignEnd_undefined (hnot : value.read c = none ∨ ¬ NextLive c) :
    assignEnd fault value c = .undefined := by
  rw [assignEnd]
  split
  next v w hread hnext =>
    rcases hnot with hnone | hdead
    · cases hread.symm.trans hnone
    · exact absurd (Option.isSome_of_mem hnext) hdead
  next => rfl

theorem Valid.elements_put (h : Valid t c) (hnext : NextLive c) (v : T) :
    (c.put v).elements = c.elements ++ [v] := by
  have hlt : c.size < c.cells.length := by
    by_contra hge
    rw [NextLive, List.getElem?_eq_none (Nat.le_of_not_lt hge)] at hnext
    cases hnext
  rw [Container.elements, Container.put]
  dsimp only
  rw [List.take_succ_eq_append_getElem (by rwa [List.length_set]), List.take_set_of_le (Nat.le_refl _),
    h.live, List.getElem_set_self, List.reduceOption_append, reduceOption_live]
  rfl

theorem nextLive_relocated (m : ℕ) (h : Valid t c) : NextLive (c.relocated t (m + 1)) := by
  rw [NextLive, Container.relocated]
  dsimp only
  rw [List.getElem?_append_right (by rw [List.length_map, h.size_eq]), List.length_map, h.size_eq,
    Nat.sub_self]
  rfl

theorem not_nextLive_full (h : Valid t c) (hfull : c.size = c.capacity) : ¬ NextLive c := by
  rw [NextLive, List.getElem?_eq_none (by rw [h.length, hfull])]
  exact Bool.false_ne_true

theorem pushBack_of_room (hroom : c.size ≠ c.capacity) :
    pushBack t fault value c = assignEnd fault value c := by
  rw [pushBack, grow_of_room hroom]
  rfl

/-- A reference to an element is no good once the array is another one. -/
theorem read_relocated (i m : ℕ) : (Value.element c.array i).read (c.relocated t m) = none :=
  if_neg (Nat.succ_ne_self c.array).symm

end

/-! ## The other model, for a trivial `T` -/

section
variable [Inhabited T] {d : SmartContainer.Container T} {l : List T}

/-- A container of the model without exceptions, where its array has the number `array`. -/
def ofTrivial (array : ℕ) (d : SmartContainer.Container T) : Container T where
  array := array
  cells := d.cells.map some
  size := d.size
  capacity := d.capacity

omit [Inhabited T] in
theorem valid_ofTrivial (t : Traits T) (h : SmartContainer.Holds d l) (array : ℕ) :
    Valid t (ofTrivial array d) where
  length := (List.length_map some).trans h.cells
  bound := h.bound
  live := by
    have htake : (ofTrivial array d).cells.take d.size = l.map some := by
      rw [ofTrivial, ← List.map_take, h.content]
    show (ofTrivial array d).cells.take d.size = ((ofTrivial array d).cells.take d.size).reduceOption.map some
    rw [htake, reduceOption_live]
  allLive := fun _ => by simp [ofTrivial]

theorem reserve_trivial (h : SmartContainer.Holds d l) (moved : T → T) (array n : ℕ) :
    ∃ d₁ array₁, SmartContainer.reserve n d = some d₁ ∧
      reserve ⟨true, default, moved⟩ none n (ofTrivial array d) = .returned (ofTrivial array₁ d₁) := by
  rw [SmartContainer.reserve, reserve]
  by_cases hle : n ≤ d.capacity
  · exact ⟨d, array, if_pos hle, if_pos hle⟩
  · have hsize : d.size ≤ n := h.bound.trans (Nat.le_of_not_le hle)
    have hnone : ¬ ∃ i < d.size, (leftAt (none : Option (Fault T)) i).isSome := by
      rintro ⟨i, -, hsome⟩
      cases hsome
    rw [if_neg hle]
    refine ⟨_, array + 1, congrArg (Option.map _) (h.copied hsize), ?_⟩
    have hcells : (d.cells.take d.size ++ (List.replicate n default).drop d.size).map some =
        (d.cells.map some).take d.size ++ (List.replicate n (some default)).drop d.size := by
      rw [List.map_append, List.map_take, List.map_drop, List.map_replicate]
    show (if n ≤ d.capacity then _ else adopt _ n _
        (copyCells none d.size (d.cells.map some, List.replicate n (some default)))) =
      .returned ⟨array + 1, (d.cells.take d.size ++ (List.replicate n default).drop d.size).map some, d.size, n⟩
    rw [if_neg hle, hcells, copyCells, SmartContainer.copyInto_eq (by simpa using h.size_le_cells)
      (by simpa using hsize)]
    dsimp only
    rw [if_neg hnone, adopt, if_pos (Or.inl rfl)]
    rfl

theorem grow_trivial (h : SmartContainer.Holds d l) (moved : T → T) (array : ℕ) :
    ∃ d₁ array₁, SmartContainer.grow d = some d₁ ∧
      grow ⟨true, default, moved⟩ none (ofTrivial array d) = .returned (ofTrivial array₁ d₁) := by
  rw [SmartContainer.grow, grow]
  by_cases hfull : d.size = d.capacity
  · rw [if_pos hfull, if_pos (show (ofTrivial array d).size = (ofTrivial array d).capacity from hfull)]
    exact reserve_trivial h moved array _
  · rw [if_neg hfull, if_neg (show (ofTrivial array d).size ≠ (ofTrivial array d).capacity from hfull)]
    exact ⟨d, array, rfl, rfl⟩

/-- **Without exceptions the two models of `push_back` agree.** -/
theorem pushBack_trivial (h : SmartContainer.Holds d l) (moved : T → T) (array : ℕ) (v : T) :
    ∃ d₁ array₁, SmartContainer.pushBack v d = some d₁ ∧
      pushBack ⟨true, default, moved⟩ none (.outside v) (ofTrivial array d) =
        .returned (ofTrivial array₁ d₁) := by
  obtain ⟨d₁, array₁, hgrow, hgrow'⟩ := grow_trivial h moved array
  obtain ⟨d₂, hgrown, hholds, hroom⟩ := h.grow
  obtain rfl := Option.some.inj (hgrow.symm.trans hgrown)
  have hlt : d₁.size < d₁.cells.length := hholds.cells ▸ hroom
  have hnext : NextLive (ofTrivial array₁ d₁) := by
    rw [NextLive, ofTrivial, List.getElem?_map, List.getElem?_eq_getElem hlt]
    rfl
  have hput : (ofTrivial array₁ d₁).put v = ofTrivial array₁
      { d₁ with data := some (d₁.cells.set d₁.size v), size := d₁.size + 1 } := by
    rw [Container.put, ofTrivial, ofTrivial, ← List.map_set]
    rfl
  refine ⟨{ d₁ with data := some (d₁.cells.set d₁.size v), size := d₁.size + 1 }, array₁, ?_, ?_⟩
  · rw [SmartContainer.pushBack, hgrow, Option.bind_some, SmartContainer.append, if_pos hlt]
  · rw [pushBack, hgrow', Ends.bind, assignEnd_eq rfl hnext, hput]

end

/-! ## An element as the argument -/

/-- `push_back(c[i])`, where nothing throws, keeps the elements and appends what `c[i]` was. -/
def AppendsCopy (t : Traits T) (c : Container T) (i : ℕ) : Prop :=
  ∃ v c', c.elements[i]? = some v ∧ pushBack t none (.element c.array i) c = .returned c' ∧
    c'.elements = c.elements ++ [v]

/-- **An element can be appended** just when the array is not full, and the cell behind the last
element holds an object. -/
theorem appendsCopy_iff {t : Traits T} {c : Container T} (h : Valid t c) {i : ℕ} (hi : i < c.size) :
    AppendsCopy t c i ↔ c.size ≠ c.capacity ∧ NextLive c := by
  have hread : (Value.element c.array i).read c = c.elements[i]? := h.read_element hi
  constructor
  · rintro ⟨v, c', -, hreturned, -⟩
    by_cases hfull : c.size = c.capacity
    · -- the old array is gone when the argument is read
      obtain ⟨m, ⟨hnone, -⟩ | hgrow⟩ := @Valid.grow_safe T t none c h hfull fun _ _ => rfl
      · cases hnone
      · rw [pushBack, hgrow, Ends.bind, assignEnd_undefined (Or.inl (read_relocated i _))] at hreturned
        cases hreturned
    · rw [pushBack_of_room hfull] at hreturned
      refine ⟨hfull, ?_⟩
      by_contra hdead
      rw [assignEnd_undefined (Or.inr hdead)] at hreturned
      cases hreturned
  · rintro ⟨hroom, hnext⟩
    have hlt : i < c.elements.length := h.size_eq ▸ hi
    rw [List.getElem?_eq_getElem hlt] at hread
    refine ⟨c.elements[i], c.put c.elements[i], List.getElem?_eq_getElem hlt, ?_,
      h.elements_put hnext c.elements[i]⟩
    rw [pushBack_of_room hroom, assignEnd_eq hread hnext]

/-- An array of two cells with one element, which is appended. -/
theorem appendsCopy_iff_room :
    AppendsCopy ⟨true, 0, id⟩ ⟨1, [some 7, some 0], 1, 2⟩ 0 ↔
      (1 ≠ 2 ∧ NextLive (⟨1, [some 7, some 0], 1, 2⟩ : Container ℕ)) :=
  appendsCopy_iff ⟨rfl, by decide, rfl, fun _ => rfl⟩ (by decide)

/-- `SmartContainer<std::string> c{"a"}; c.push_back(c[0]);` -/
theorem not_appendsCopy_full :
    ¬ ∀ (t : Traits String) (c : Container String) (i : ℕ), Valid t c → i < c.size → AppendsCopy t c i := by
  intro h
  obtain ⟨v, c', -, hreturned, -⟩ :=
    h ⟨false, "", fun _ => ""⟩ ⟨1, [some "a"], 1, 1⟩ 0 ⟨rfl, by decide, rfl, fun _ => rfl⟩ (by decide)
  have hundefined : pushBack ⟨false, "", fun _ => ""⟩ none (.element 1 0) ⟨1, [some "a"], 1, 1⟩ =
      .undefined := by
    decide
  cases hundefined.symm.trans hreturned

/-! ## Exceptions -/

/-- What an exception leaves is as before the call. -/
def Strong (t : Traits T) (fault : Option (Fault T)) (value : Value T) (c : Container T) : Prop :=
  ∀ c', pushBack t fault value c = .threw c' →
    c'.size = c.size ∧ c'.capacity = c.capacity ∧ c'.elements = c.elements

/-- The assignment behind the last element is reached. -/
def Reached (c : Container T) : Value T → Prop
  | .outside _ => c.size = c.capacity ∨ NextLive c
  | .element _ _ => NextLive c

/-- Where an exception does no harm. -/
def Harmless (t : Traits T) (value : Value T) (c : Container T) : Option (Fault T) → Prop
  | some (.relocate k left) =>
      -- moving what is moved until then leaves it as it is
      c.size = c.capacity → t.trivial = false → k < c.size →
        (c.elements.take k).map t.moved = c.elements.take k ∧ c.elements[k]? = some left
  | some (.assign _) => ¬ Reached c value
  | _ => True

section
variable {t : Traits T} {fault : Option (Fault T)} {value : Value T} {c c' : Container T}

theorem Valid.read_good (h : Valid t c) (hgood : value.Good c) : ∃ v, value.read c = some v := by
  cases value with
  | outside v => exact ⟨v, rfl⟩
  | element array i =>
      obtain ⟨rfl, hi⟩ := hgood
      rw [h.read_element hi]
      exact ⟨_, List.getElem?_eq_getElem (h.size_eq ▸ hi)⟩

theorem assignEnd_ne_threw (hfault : ∀ left, fault ≠ some (.assign left)) :
    assignEnd fault value c ≠ .threw c' := by
  intro hthrew
  rw [assignEnd] at hthrew
  split at hthrew
  next =>
    split at hthrew
    next left => exact hfault left rfl
    next => cases hthrew
  next => cases hthrew

theorem Valid.strong_of_safe (h : Valid t c)
    (hsafe : c.size = c.capacity → ∀ i < c.size, leftAt fault i = none)
    (hfault : ∀ left, fault ≠ some (.assign left)) : Strong t fault value c := by
  intro c' hthrew
  by_cases hfull : c.size = c.capacity
  · obtain ⟨m, ⟨-, hgrow⟩ | hgrow⟩ := h.grow_safe hfull (hsafe hfull)
    · rw [pushBack, hgrow] at hthrew
      cases hthrew
      exact ⟨rfl, rfl, rfl⟩
    · rw [pushBack, hgrow] at hthrew
      exact absurd hthrew (assignEnd_ne_threw hfault)
  · rw [pushBack_of_room hfull] at hthrew
    exact absurd hthrew (assignEnd_ne_threw hfault)

theorem Valid.strong_relocate_iff (h : Valid t c) (hfull : c.size = c.capacity) {k : ℕ}
    (hk : k < c.size) (left : T) :
    Strong t (some (.relocate k left)) value c ↔ (t.trivial = false →
      (c.elements.take k).map t.moved = c.elements.take k ∧ c.elements[k]? = some left) := by
  obtain ⟨pre, v, post, hl, rfl⟩ : ∃ pre v post, c.elements = pre ++ v :: post ∧ pre.length = k := by
    have hlt : k < c.elements.length := h.size_eq ▸ hk
    refine ⟨c.elements.take k, c.elements[k], c.elements.drop (k + 1), ?_, List.length_take_of_le hlt.le⟩
    rw [← List.drop_eq_getElem_cons hlt, List.take_append_drop]
  have hpush : pushBack t (some (.relocate pre.length left)) value c = .threw { c with
      cells := if t.trivial then c.cells else (pre.map t.moved ++ left :: post).map some } := by
    rw [pushBack, h.grow_relocate hfull rfl hl]
    rfl
  have hiff : Strong t (some (.relocate pre.length left)) value c ↔ ({ c with
      cells := if t.trivial then c.cells else (pre.map t.moved ++ left :: post).map some } :
        Container T).elements = c.elements := by
    constructor
    · intro hstrong
      exact (hstrong _ hpush).2.2
    · rintro heq c' hthrew
      obtain rfl := Ends.threw.inj (hpush.symm.trans hthrew)
      exact ⟨rfl, rfl, heq⟩
  rw [hiff]
  cases htrivial : t.trivial with
  | true => exact iff_of_true rfl fun hfalse => by cases hfalse
  | false =>
      have hsize : c.size = (pre.map t.moved ++ left :: post).length := by
        rw [h.size_eq, hl]
        simp
      have hleft : ({ c with cells := (pre.map t.moved ++ left :: post).map some } :
          Container T).elements = pre.map t.moved ++ left :: post :=
        elements_eq (List.append_nil _).symm hsize
      have hat : (pre ++ v :: post)[pre.length]? = some v := by simp
      rw [if_neg Bool.false_ne_true, hleft, hl, List.take_left, hat]
      constructor
      · intro heq _
        obtain ⟨hmoved, htail⟩ := List.append_inj heq (List.length_map _)
        exact ⟨hmoved, congrArg some (List.cons.inj htail).1.symm⟩
      · intro hsame
        obtain ⟨hmoved, hv⟩ := hsame rfl
        rw [hmoved, Option.some.inj hv]

theorem Valid.strong_assign_iff (h : Valid t c) (hgood : value.Good c) (left : T) :
    Strong t (some (.assign left)) value c ↔ ¬ Reached c value := by
  -- what is thrown there comes with a size that is one too large
  have hreached : ∀ {c₁ : Container T}, pushBack t (some (.assign left)) value c = .threw (c₁.put left) →
      c₁.size = c.size → ¬ Strong t (some (.assign left)) value c := by
    intro c₁ hthrew hsize hstrong
    have hsame : c₁.size + 1 = c.size := (hstrong _ hthrew).1
    omega
  have hundefined : pushBack t (some (.assign left)) value c = .undefined →
      Strong t (some (.assign left)) value c := by
    intro hend c' hthrew
    cases hend.symm.trans hthrew
  by_cases hfull : c.size = c.capacity
  · obtain ⟨m, ⟨hnone, -⟩ | hgrow⟩ :=
      @Valid.grow_safe T t (some (.assign left)) c h hfull fun _ _ => rfl
    · cases hnone
    · have hpush : pushBack t (some (.assign left)) value c =
          assignEnd (some (.assign left)) value (c.relocated t (m + 1)) := by
        rw [pushBack, hgrow]
        rfl
      cases value with
      | outside v =>
          rw [assignEnd_eq rfl (nextLive_relocated m h)] at hpush
          exact iff_of_false (hreached hpush rfl) (not_not_intro (Or.inl hfull))
      | element array i =>
          obtain ⟨rfl, -⟩ := hgood
          rw [assignEnd_undefined (Or.inl (read_relocated i _))] at hpush
          exact iff_of_true (hundefined hpush) (not_nextLive_full h hfull)
  · have hpush := @pushBack_of_room T t (some (.assign left)) value c hfull
    by_cases hnext : NextLive c
    · obtain ⟨v, hread⟩ := h.read_good hgood
      rw [assignEnd_eq hread hnext] at hpush
      refine iff_of_false (hreached hpush rfl) (not_not_intro ?_)
      cases value with
      | outside v => exact Or.inr hnext
      | element array i => exact hnext
    · rw [assignEnd_undefined (Or.inr hnext)] at hpush
      refine iff_of_true (hundefined hpush) ?_
      cases value with
      | outside v => exact not_or.mpr ⟨hfull, hnext⟩
      | element array i => exact hnext

end

/-- **The strong guarantee** holds just where the exception is not that of the assignment behind
the last element, and not one that finds elements moved that are not what they were. -/
theorem strong_iff {t : Traits T} {value : Value T} {c : Container T} (h : Valid t c)
    (hgood : value.Good c) (fault : Option (Fault T)) :
    Strong t fault value c ↔ Harmless t value c fault := by
  cases fault with
  | none => exact iff_of_true (h.strong_of_safe (fun _ _ _ => rfl) fun _ hne => by cases hne) trivial
  | some fault =>
      cases fault with
      | allocation =>
          exact iff_of_true (h.strong_of_safe (fun _ _ _ => rfl) fun _ hne => by cases hne) trivial
      | construct k =>
          exact iff_of_true (h.strong_of_safe (fun _ _ _ => rfl) fun _ hne => by cases hne) trivial
      | relocate k left =>
          rw [Harmless]
          by_cases hmoves : c.size = c.capacity ∧ k < c.size
          · rw [h.strong_relocate_iff hmoves.1 hmoves.2]
            exact ⟨fun hall _ htrivial _ => hall htrivial, fun hall htrivial => hall hmoves.1 htrivial hmoves.2⟩
          · refine iff_of_true (h.strong_of_safe (fun hfull i hi => if_neg ?_) fun _ hne => by cases hne) ?_
            · rintro rfl
              exact hmoves ⟨hfull, hi⟩
            · intro hfull _ hk
              exact absurd ⟨hfull, hk⟩ hmoves
      | assign left => exact h.strong_assign_iff hgood left

/-- An array of three cells with two elements, and no memory for what is not needed. -/
theorem strong_iff_room :
    Strong ⟨false, 0, fun _ => 0⟩ (some .allocation) (.element 1 0) ⟨1, [some 7, some 8, some 0], 2, 3⟩ ↔
      Harmless ⟨false, 0, fun _ => 0⟩ (.element 1 0) ⟨1, [some 7, some 8, some 0], 2, 3⟩ (some .allocation) := by
  have hgood : (Value.element 1 0).Good (⟨1, [some 7, some 8, some 0], 2, 3⟩ : Container ℕ) :=
    And.intro rfl (by decide)
  exact strong_iff ⟨rfl, by decide, rfl, fun _ => rfl⟩ hgood _

/-- There is room, and the assignment throws: the container has an element more. -/
theorem not_strong_assign :
    ¬ ∀ (t : Traits ℕ) (fault : Option (Fault ℕ)) (value : Value ℕ) (c : Container ℕ),
      Valid t c → value.Good c → Strong t fault value c := by
  intro h
  have hstrong := h ⟨false, 0, fun _ => 0⟩ (some (.assign 0)) (.outside 9) ⟨1, [some 7, some 0], 1, 2⟩
    ⟨rfl, by decide, rfl, fun _ => rfl⟩ trivial
  have hsize := (hstrong ⟨1, [some 7, some 0], 2, 2⟩ rfl).1
  cases hsize

end LearnCpp.Memory.SmartContainerPushBack
