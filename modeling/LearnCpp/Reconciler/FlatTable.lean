/-
# `LearnCpp.Reconciler.FlatTable` — the open-addressing table of the flat-hash classes

`ReconcilerFlatHashHeap` and `ReconcilerFlatHashWheel` share, word for word, a
table of parallel vectors `keys_`, `entries_` and `used_` that is probed
linearly.  The keys 0 and 1 are taken for "empty" and "erased"; an erased slot
is used again by the next insertion that walks over it, and is never cleared;
the table never grows.

The probe loops have no exit but their `return`s, so they are partial: `none`
means that the loop never returns, or indexes outside a vector.  A loop that
has not returned after as many rounds as there are slots has seen every slot
and changed none, so that many rounds are fuel enough.

`mix` is a parameter `hash` of everything here; `mix` itself is `splitmix64`.
-/
import LearnCpp.Lib.Probing
import LearnCpp.Lib.Expiry
import LearnCpp.Reconciler.UnorderedHeap

namespace LearnCpp.Reconciler

open Lib

variable {P : Type}

def kEmpty : UInt64 := 0
def kTomb : UInt64 := 1
def npos : UInt64 := 0xffffffffffffffff

/-- splitmix64 -/
def mix (x : UInt64) : UInt64 :=
  let x := x + 0x9e3779b97f4a7c15
  let x := (x ^^^ (x >>> 30)) * 0xbf58476d1ce4e5b9
  let x := (x ^^^ (x >>> 27)) * 0x94d049bb133111eb
  x ^^^ (x >>> 31)

structure FlatTable (P : Type) where
  keys : List UInt64
  entries : List (HeapEntry P)
  used : List Bool
  mask : UInt64

namespace FlatTable

/-- `while (cap < expected_ids * 2) cap <<= 1;` -/
def capLoop (target : UInt64) : ℕ → UInt64 → Option UInt64
  | 0, _ => none
  | fuel + 1, cap => if cap < target then capLoop target fuel (cap <<< 1) else some cap

/-- The capacity for a number of expected ids.  After 64 shifts `cap` is 0 and stays 0. -/
def capacity (expectedIds : UInt64) : Option UInt64 :=
  capLoop (expectedIds * 2) 65 1

/-- `keys_.assign(cap, kEmpty); entries_.resize(cap); used_.assign(cap, false); mask_ = cap - 1;` -/
def ofCap (P : Type) (cap : UInt64) : FlatTable P where
  keys := List.replicate cap.toNat kEmpty
  entries := List.replicate cap.toNat {}
  used := List.replicate cap.toNat false
  mask := cap - 1

/-- The table as the constructors set it up. -/
def construct (P : Type) (expectedIds : UInt64) : Option (FlatTable P) :=
  (capacity expectedIds).map (ofCap P)

variable (hash : UInt64 → UInt64)

def probe (t : FlatTable P) (id : UInt64) : UInt64 := hash id &&& t.mask

/-- `keys_[idx] = id; used_[idx] = true; entries_[idx] = Entry{};` -/
def place (t : FlatTable P) (idx id : UInt64) : FlatTable P :=
  { t with
    keys := t.keys.set idx.toNat id
    used := t.used.set idx.toNat true
    entries := t.entries.set idx.toNat {} }

def findOrInsertLoop (t : FlatTable P) (id : UInt64) :
    ℕ → UInt64 → UInt64 → Option (FlatTable P × UInt64)
  | 0, _, _ => none
  | fuel + 1, idx, firstTomb => do
      let k ← t.keys[idx.toNat]?
      if k = kEmpty then
        let idx := if firstTomb ≠ npos then firstTomb else idx
        some (t.place idx id, idx)
      else if k = kTomb then
        findOrInsertLoop t id fuel ((idx + 1) &&& t.mask)
          (if firstTomb = npos then idx else firstTomb)
      else if k = id then some (t, idx)
      else findOrInsertLoop t id fuel ((idx + 1) &&& t.mask) firstTomb

/-- The slot of an id, made for it if it has none. -/
def findOrInsert (t : FlatTable P) (id : UInt64) : Option (FlatTable P × UInt64) :=
  findOrInsertLoop t id t.keys.length (t.probe hash id) npos

def findIndexLoop (t : FlatTable P) (id : UInt64) : ℕ → UInt64 → Option UInt64
  | 0, _ => none
  | fuel + 1, idx => do
      let k ← t.keys[idx.toNat]?
      if k = kEmpty then some npos
      else if k ≠ kTomb ∧ k = id then some idx
      else findIndexLoop t id fuel ((idx + 1) &&& t.mask)

/-- The slot of an id, or `npos`. -/
def findIndex (t : FlatTable P) (id : UInt64) : Option UInt64 :=
  findIndexLoop t id t.keys.length (t.probe hash id)

def eraseAt (t : FlatTable P) (idx : UInt64) : FlatTable P :=
  { t with
    keys := t.keys.set idx.toNat kTomb
    used := t.used.set idx.toNat false
    entries := t.entries.set idx.toNat {} }

/-- Write back through the reference `ent = entries_[idx]`. -/
def setEntry (t : FlatTable P) (idx : UInt64) (ent : HeapEntry P) : FlatTable P :=
  { t with entries := t.entries.set idx.toNat ent }

/-- `idx = findIndex(id)`, and `eraseAt(idx)` if the slot is used and its entry passes a test. -/
def eraseIf (test : HeapEntry P → Bool) (id : UInt64) (t : FlatTable P) : Option (FlatTable P) := do
  let idx ← t.findIndex hash id
  if idx = npos then some t
  else
    let u ← t.used[idx.toNat]?
    let ent ← t.entries[idx.toNat]?
    if u && test ent then some (t.eraseAt idx) else some t

/-- The entry that `findIndex` leads to. -/
def lookup (t : FlatTable P) (id : UInt64) : Option (HeapEntry P) := do
  let idx ← t.findIndex hash id
  if idx = npos then none else t.entries[idx.toNat]?

/-- The search for the key 1 never stops at a slot: it is the mark of an erased one. -/
theorem findIndexLoop_kTomb (t : FlatTable P) : ∀ (fuel : ℕ) (idx r : UInt64),
    t.findIndexLoop kTomb fuel idx = some r → r = npos
  | 0, _, _, h => by cases h
  | fuel + 1, idx, r, h => by
      unfold findIndexLoop at h
      cases hk : t.keys[idx.toNat]? with
      | none => simp [hk] at h
      | some k =>
          simp only [hk, Option.bind_eq_bind, Option.bind_some, ne_eq, not_and_self_iff,
            if_false] at h
          split at h
          · exact (Option.some.inj h).symm
          · exact findIndexLoop_kTomb t fuel _ r h

theorem lookup_kTomb (t : FlatTable P) : t.lookup hash kTomb = none := by
  cases hfind : t.findIndex hash kTomb with
  | none => simp [lookup, hfind]
  | some r =>
      obtain rfl := findIndexLoop_kTomb t _ _ r hfind
      simp [lookup, hfind]

/-! ## The table as cells -/

/-- What a stored key says about its slot. -/
def decode (k : UInt64) : Probing.Cell UInt64 :=
  if k = kEmpty then .empty else if k = kTomb then .tomb else .live k

theorem decode_eq_empty {k : UInt64} : decode k = .empty ↔ k = kEmpty := by
  unfold decode; split <;> rename_i h <;> [simp [h]; split <;> simp [h]]

theorem decode_eq_tomb {k : UInt64} : decode k = .tomb ↔ k = kTomb := by
  unfold decode
  split <;> rename_i h
  · simp [h, kEmpty, kTomb]
  · split <;> simp_all

theorem decode_eq_live {k id : UInt64} : decode k = .live id ↔ k ≠ kEmpty ∧ k ≠ kTomb ∧ k = id := by
  unfold decode; split <;> rename_i h <;> [simp [h]; split <;> simp_all]

def cells (t : FlatTable P) (i : ℕ) : Probing.Cell UInt64 :=
  decode (t.keys[i]?.getD kEmpty)

/-- The home of an id in a table of `n` slots. -/
def home (n : ℕ) (id : UInt64) : ℕ := (hash id).toNat % n

/-- The invariant of a table of `n` slots into which only ids of `D` are put. -/
structure Inv (n : ℕ) (D : Finset UInt64) (t : FlatTable P) : Prop where
  pow : ∃ b ≤ 63, n = 2 ^ b
  keys_length : t.keys.length = n
  entries_length : t.entries.length = n
  used_length : t.used.length = n
  mask : t.mask.toNat = n - 1
  used : ∀ i < n, (t.used[i]? = some true ↔ ∃ k, t.cells i = .live k)
  ids : ∀ id ∈ D, id ≠ kEmpty ∧ id ≠ kTomb
  probing : ∃ c, Probing.Inv n (home hash n) D c t.cells

section
variable {hash} {n : ℕ} {D : Finset UInt64} {t : FlatTable P} (h : Inv hash n D t)
include h

theorem Inv.pos : 0 < n := by
  obtain ⟨b, _, rfl⟩ := h.pow
  exact Nat.two_pow_pos b

theorem Inv.home_lt (id : UInt64) : home hash n id < n := Nat.mod_lt _ h.pos

theorem Inv.and_mask (x : UInt64) : (x &&& t.mask).toNat = x.toNat % n := by
  obtain ⟨b, _, rfl⟩ := h.pow
  rw [UInt64.toNat_and, h.mask, Nat.and_two_pow_sub_one_eq_mod]

theorem Inv.next {idx : UInt64} (hidx : idx.toNat < n) :
    ((idx + 1) &&& t.mask).toNat = (idx.toNat + 1) % n := by
  obtain ⟨b, hb, hn⟩ := h.pow
  have hle : n ≤ 2 ^ 63 := hn ▸ Nat.pow_le_pow_right (by omega) hb
  rw [h.and_mask, UInt64.toNat_add, UInt64.toNat_one,
    Nat.mod_eq_of_lt (show idx.toNat + 1 < 2 ^ 64 by omega)]

theorem Inv.key {i : ℕ} (hi : i < n) : ∃ k, t.keys[i]? = some k ∧ t.cells i = decode k := by
  have hlt : i < t.keys.length := by rw [h.keys_length]; exact hi
  exact ⟨t.keys[i], List.getElem?_eq_getElem hlt, by rw [cells, List.getElem?_eq_getElem hlt]; rfl⟩

theorem Inv.entry {i : ℕ} (hi : i < n) : ∃ ent, t.entries[i]? = some ent :=
  ⟨_, List.getElem?_eq_getElem (by rw [h.entries_length]; exact hi)⟩

theorem Inv.ne_npos {idx : UInt64} (hidx : idx.toNat < n) : idx ≠ npos := by
  obtain ⟨b, hb, hn⟩ := h.pow
  have hle : n ≤ 2 ^ 63 := hn ▸ Nat.pow_le_pow_right (by omega) hb
  rintro rfl
  simp only [npos] at hidx
  have : UInt64.toNat 0xffffffffffffffff = 18446744073709551615 := rfl
  omega

/-! ## Finding -/

theorem Inv.findIndexLoop_spec {id : UInt64} {x J : ℕ}
    (hbefore : ∀ m < J, t.cells (Probing.walk n x m) ≠ .empty ∧
      t.cells (Probing.walk n x m) ≠ .live id) :
    ∀ (fuel j : ℕ) (idx : UInt64), j ≤ J → J < j + fuel → idx.toNat = Probing.walk n x j →
      (t.cells (Probing.walk n x J) = .live id →
        ∃ r, t.findIndexLoop id fuel idx = some r ∧ r.toNat = Probing.walk n x J) ∧
      (t.cells (Probing.walk n x J) = .empty → t.findIndexLoop id fuel idx = some npos)
  | 0, j, idx, hjJ, hfuel, _ => by omega
  | fuel + 1, j, idx, hjJ, hfuel, hidx => by
      have hlt : idx.toNat < n := hidx ▸ Probing.walk_lt h.pos
      obtain ⟨k, hk, hcell⟩ := h.key hlt
      rw [hidx] at hcell
      simp only [findIndexLoop, hk, Option.bind_eq_bind, Option.bind_some]
      rcases Nat.eq_or_lt_of_le hjJ with rfl | hjJ
      · rw [hcell, decode_eq_live, decode_eq_empty]
        constructor
        · rintro ⟨hempty, htomb, rfl⟩
          exact ⟨idx, by simp [hempty, htomb], hidx⟩
        · intro hempty; simp [hempty]
      · obtain ⟨hempty, hlive⟩ := hbefore j hjJ
        rw [hcell, ne_eq, decode_eq_empty] at hempty
        rw [hcell, ne_eq, decode_eq_live] at hlive
        rw [if_neg hempty, if_neg (fun hstop => hlive ⟨hempty, hstop⟩)]
        exact Inv.findIndexLoop_spec hbefore fuel (j + 1) _ (by omega) (by omega)
          (by rw [h.next hlt, hidx, Probing.walk_succ])

/-- **`findIndex`** returns the slot of a live id, and `npos` for any other. -/
theorem Inv.findIndex_spec (id : UInt64) :
    (∃ idx : UInt64, t.findIndex hash id = some idx ∧ idx.toNat < n ∧ t.cells idx.toNat = .live id) ∨
      (t.findIndex hash id = some npos ∧ ¬ Probing.Live n t.cells id) := by
  obtain ⟨c, hp⟩ := h.probing
  obtain ⟨J, hJ, hbefore, hstop⟩ := hp.exists_stop h.home_lt id
  obtain ⟨hfound, hnone⟩ := h.findIndexLoop_spec hbefore n 0 (t.probe hash id) (by omega) (by omega)
    (by rw [Probing.walk_zero (h.home_lt id)]; exact h.and_mask _)
  rw [findIndex, h.keys_length]
  rcases hstop with hlive | ⟨hempty, hnot⟩
  · obtain ⟨r, hr, hwalk⟩ := hfound hlive
    exact Or.inl ⟨r, hr, hwalk ▸ Probing.walk_lt h.pos, hwalk ▸ hlive⟩
  · exact Or.inr ⟨hnone hempty, hnot⟩

/-- The slots of the walk from `x` before its `j`-th are live. -/
def LiveBefore (t : FlatTable P) (n x j : ℕ) : Prop :=
  ∀ m < j, ∃ k, t.cells (Probing.walk n x m) = .live k

/-- What `first_tomb` is after `j` steps of the walk from `x`. -/
def FirstTomb (t : FlatTable P) (n x j : ℕ) (firstTomb : UInt64) : Prop :=
  (firstTomb = npos ∧ t.LiveBefore n x j) ∨
    ∃ f < j, firstTomb.toNat = Probing.walk n x f ∧ t.cells (Probing.walk n x f) = .tomb ∧
      t.LiveBefore n x f

section
variable {x j : ℕ} {idx firstTomb : UInt64}

omit h in
theorem FirstTomb.step_live (hfirst : t.FirstTomb n x j firstTomb) {k : UInt64}
    (hlive : t.cells (Probing.walk n x j) = .live k) : t.FirstTomb n x (j + 1) firstTomb := by
  rcases hfirst with ⟨hnpos, hall⟩ | ⟨f, hf, hrest⟩
  · refine Or.inl ⟨hnpos, fun m hm => ?_⟩
    rcases Nat.lt_succ_iff_lt_or_eq.mp hm with hm | rfl
    · exact hall m hm
    · exact ⟨k, hlive⟩
  · exact Or.inr ⟨f, hf.trans (Nat.lt_succ_self j), hrest⟩

theorem Inv.firstTomb_tomb (hfirst : t.FirstTomb n x j firstTomb)
    (hidx : idx.toNat = Probing.walk n x j) (htomb : t.cells (Probing.walk n x j) = .tomb) :
    t.FirstTomb n x (j + 1) (if firstTomb = npos then idx else firstTomb) := by
  right
  rcases hfirst with ⟨rfl, hall⟩ | ⟨f, hf, hfirst, hftomb, hall⟩
  · exact ⟨j, Nat.lt_succ_self j, by rwa [if_pos rfl], htomb, hall⟩
  · have hne : firstTomb ≠ npos := h.ne_npos (hfirst ▸ Probing.walk_lt h.pos)
    exact ⟨f, hf.trans (Nat.lt_succ_self j), by rwa [if_neg hne], hftomb, hall⟩

/-- At an empty slot the id goes to the first tomb, or to this slot. -/
theorem Inv.firstTomb_slot (hfirst : t.FirstTomb n x j firstTomb)
    (hidx : idx.toNat = Probing.walk n x j) (hempty : t.cells (Probing.walk n x j) = .empty) :
    ∃ s ≤ j, (if firstTomb ≠ npos then firstTomb else idx).toNat = Probing.walk n x s ∧
      (∀ k, t.cells (Probing.walk n x s) ≠ .live k) ∧ t.LiveBefore n x s := by
  rcases hfirst with ⟨rfl, hall⟩ | ⟨f, hf, hfirst, htomb, hall⟩
  · refine ⟨j, Nat.le_refl j, by rwa [if_neg (not_not_intro rfl)], fun k hk => ?_, hall⟩
    cases hk.symm.trans hempty
  · have hne : firstTomb ≠ npos := h.ne_npos (hfirst ▸ Probing.walk_lt h.pos)
    refine ⟨f, hf.le, by rwa [if_pos hne], fun k hk => ?_, hall⟩
    cases hk.symm.trans htomb

end

theorem Inv.findOrInsertLoop_spec {id : UInt64} {x J : ℕ}
    (hbefore : ∀ m < J, t.cells (Probing.walk n x m) ≠ .empty ∧
      t.cells (Probing.walk n x m) ≠ .live id) :
    ∀ (fuel j : ℕ) (idx firstTomb : UInt64), j ≤ J → J < j + fuel →
      idx.toNat = Probing.walk n x j → t.FirstTomb n x j firstTomb →
      (t.cells (Probing.walk n x J) = .live id →
        ∃ r, t.findOrInsertLoop id fuel idx firstTomb = some (t, r) ∧
          r.toNat = Probing.walk n x J) ∧
      (t.cells (Probing.walk n x J) = .empty →
        ∃ s ≤ J, ∃ r, t.findOrInsertLoop id fuel idx firstTomb = some (t.place r id, r) ∧
          r.toNat = Probing.walk n x s ∧ (∀ k, t.cells (Probing.walk n x s) ≠ .live k) ∧
          t.LiveBefore n x s)
  | 0, j, idx, _, hjJ, hfuel, _, _ => by omega
  | fuel + 1, j, idx, firstTomb, hjJ, hfuel, hidx, hfirst => by
      have hlt : idx.toNat < n := hidx ▸ Probing.walk_lt h.pos
      obtain ⟨k, hk, hcell⟩ := h.key hlt
      rw [hidx] at hcell
      simp only [findOrInsertLoop, hk, Option.bind_eq_bind, Option.bind_some]
      rcases Nat.eq_or_lt_of_le hjJ with rfl | hjJ
      · constructor
        · intro hlive
          rw [hcell, decode_eq_live] at hlive
          obtain ⟨hempty, htomb, rfl⟩ := hlive
          exact ⟨idx, by simp [hempty, htomb], hidx⟩
        · intro hempty
          rw [if_pos (decode_eq_empty.mp (hcell.symm.trans hempty))]
          obtain ⟨s, hs, hslot, hfree, hall⟩ := h.firstTomb_slot hfirst hidx hempty
          exact ⟨s, hs, _, rfl, hslot, hfree, hall⟩
      · obtain ⟨hempty, hlive⟩ := hbefore j hjJ
        rw [hcell, ne_eq, decode_eq_empty] at hempty
        rw [hcell, ne_eq, decode_eq_live] at hlive
        have hnext : ((idx + 1) &&& t.mask).toNat = Probing.walk n x (j + 1) := by
          rw [h.next hlt, hidx, Probing.walk_succ]
        rw [if_neg hempty]
        by_cases htomb : k = kTomb
        · rw [if_pos htomb]
          exact Inv.findOrInsertLoop_spec hbefore fuel (j + 1) _ _ hjJ (by omega) hnext
            (h.firstTomb_tomb hfirst hidx (hcell.trans (decode_eq_tomb.mpr htomb)))
        · -- another id: the walk goes on as before
          rw [if_neg htomb, if_neg (fun hid => hlive ⟨hempty, htomb, hid⟩)]
          exact Inv.findOrInsertLoop_spec hbefore fuel (j + 1) _ _ hjJ (by omega) hnext
            (hfirst.step_live (hcell.trans (decode_eq_live.mpr ⟨hempty, htomb, rfl⟩)))

/-- **`findOrInsert`** returns the slot of a live id and leaves the table alone;
any other id it places at a free slot that is reached over live slots only. -/
theorem Inv.findOrInsert_spec (id : UInt64) :
    (∃ idx : UInt64, t.findOrInsert hash id = some (t, idx) ∧ idx.toNat < n ∧
        t.cells idx.toNat = .live id) ∨
      (¬ Probing.Live n t.cells id ∧ ∃ s < n, ∃ idx : UInt64,
        t.findOrInsert hash id = some (t.place idx id, idx) ∧
        idx.toNat = Probing.walk n (home hash n id) s ∧
        (∀ k, t.cells (Probing.walk n (home hash n id) s) ≠ .live k) ∧
        t.LiveBefore n (home hash n id) s) := by
  obtain ⟨c, hp⟩ := h.probing
  obtain ⟨J, hJ, hbefore, hstop⟩ := hp.exists_stop h.home_lt id
  obtain ⟨hfound, hnew⟩ := h.findOrInsertLoop_spec hbefore n 0 (t.probe hash id) npos (by omega)
    (by omega) (by rw [Probing.walk_zero (h.home_lt id)]; exact h.and_mask _)
    (Or.inl ⟨rfl, fun m hm => absurd hm (Nat.not_lt_zero m)⟩)
  rw [findOrInsert, h.keys_length]
  rcases hstop with hlive | ⟨hempty, hnot⟩
  · obtain ⟨r, hr, hwalk⟩ := hfound hlive
    exact Or.inl ⟨r, hr, hwalk ▸ Probing.walk_lt h.pos, hwalk ▸ hlive⟩
  · obtain ⟨s, hs, r, hr, hwalk, hfree, hall⟩ := hnew hempty
    exact Or.inr ⟨hnot, s, by omega, r, hr, hwalk, hfree, hall⟩

/-! ## Writing -/

omit h in
theorem cells_of_keys_set {t' : FlatTable P} {i : ℕ} {k : UInt64} (hi : i < t.keys.length)
    (hkeys : t'.keys = t.keys.set i k) : t'.cells = Function.update t.cells i (decode k) := by
  funext i'
  by_cases hi' : i' = i
  · subst hi'
    simp [cells, hkeys, hi]
  · simp [cells, hkeys, Function.update_of_ne hi', List.getElem?_set_ne (Ne.symm hi')]

theorem Inv.place {id : UInt64} (hid : id ∈ D) (hnot : ¬ Probing.Live n t.cells id) {s : ℕ}
    (hs : s < n) {idx : UInt64} (hidx : idx.toNat = Probing.walk n (home hash n id) s)
    (hall : t.LiveBefore n (home hash n id) s) :
    Inv hash n D (t.place idx id) ∧
      (t.place idx id).cells = Function.update t.cells idx.toNat (.live id) := by
  have hlt : idx.toNat < n := hidx ▸ Probing.walk_lt h.pos
  have hdec : decode id = .live id := decode_eq_live.mpr ⟨(h.ids id hid).1, (h.ids id hid).2, rfl⟩
  have hcells : (t.place idx id).cells = Function.update t.cells idx.toNat (.live id) := by
    rw [cells_of_keys_set (by rw [h.keys_length]; exact hlt) rfl, hdec]
  refine ⟨⟨h.pow, ?_, ?_, ?_, h.mask, ?_, h.ids, ?_⟩, hcells⟩
  · simp [FlatTable.place, h.keys_length]
  · simp [FlatTable.place, h.entries_length]
  · simp [FlatTable.place, h.used_length]
  · intro i hi
    rw [hcells]
    by_cases hi' : i = idx.toNat
    · subst hi'
      simp [FlatTable.place, h.used_length, hlt]
    · simpa [FlatTable.place, Function.update_of_ne hi', List.getElem?_set_ne (Ne.symm hi')]
        using h.used i hi
  · obtain ⟨c, hp⟩ := h.probing
    rw [hcells, hidx]
    exact ⟨c, hp.insert h.home_lt hid hnot hall hs⟩

theorem Inv.setEntry {idx : UInt64} {ent : HeapEntry P} : Inv hash n D (t.setEntry idx ent) :=
  ⟨h.pow, h.keys_length, by simp [FlatTable.setEntry, h.entries_length], h.used_length, h.mask,
    h.used, h.ids, h.probing⟩

theorem Inv.eraseAt {idx : UInt64} {id : UInt64} (hlt : idx.toNat < n)
    (hlive : t.cells idx.toNat = .live id) :
    Inv hash n D (t.eraseAt idx) ∧
      (t.eraseAt idx).cells = Function.update t.cells idx.toNat .tomb := by
  have hcells : (t.eraseAt idx).cells = Function.update t.cells idx.toNat .tomb := by
    rw [cells_of_keys_set (by rw [h.keys_length]; exact hlt) rfl, decode_eq_tomb.mpr rfl]
  refine ⟨⟨h.pow, ?_, ?_, ?_, h.mask, ?_, h.ids, ?_⟩, hcells⟩
  · simp [FlatTable.eraseAt, h.keys_length]
  · simp [FlatTable.eraseAt, h.entries_length]
  · simp [FlatTable.eraseAt, h.used_length]
  · intro i hi
    rw [hcells]
    by_cases hi' : i = idx.toNat
    · subst hi'
      simp [FlatTable.eraseAt, h.used_length, hlt]
    · simpa [FlatTable.eraseAt, Function.update_of_ne hi', List.getElem?_set_ne (Ne.symm hi')]
        using h.used i hi
  · obtain ⟨c, hp⟩ := h.probing
    rw [hcells]
    exact ⟨c, hp.erase hlive⟩

/-! ## Looking up -/

theorem Inv.lookup_eq_some {id : UInt64} {ent : HeapEntry P} :
    t.lookup hash id = some ent ↔ ∃ i < n, t.cells i = .live id ∧ t.entries[i]? = some ent := by
  obtain ⟨c, hp⟩ := h.probing
  rcases h.findIndex_spec id with ⟨idx, hfind, hlt, hlive⟩ | ⟨hfind, hnot⟩
  · simp only [lookup, hfind, Option.bind_eq_bind, Option.bind_some, if_neg (h.ne_npos hlt)]
    constructor
    · intro hent; exact ⟨idx.toNat, hlt, hlive, hent⟩
    · rintro ⟨i, hi, hik, hent⟩
      rw [← hp.unique i hi idx.toNat hlt id hik hlive]
      exact hent
  · simp only [lookup, hfind, Option.bind_eq_bind, Option.bind_some, if_true]
    constructor
    · intro hent; cases hent
    · rintro ⟨i, hi, hik, _⟩; exact absurd ⟨i, hi, hik⟩ hnot

theorem Inv.live_iff {id : UInt64} : Probing.Live n t.cells id ↔ (t.lookup hash id).isSome := by
  rw [Option.isSome_iff_exists]
  constructor
  · rintro ⟨i, hi, hik⟩
    obtain ⟨ent, hent⟩ := h.entry hi
    exact ⟨ent, h.lookup_eq_some.mpr ⟨i, hi, hik, hent⟩⟩
  · rintro ⟨ent, hent⟩
    obtain ⟨i, hi, hik, _⟩ := h.lookup_eq_some.mp hent
    exact ⟨i, hi, hik⟩

theorem Inv.lookup_update {t' : FlatTable P} (h' : Inv hash n D t') {i : ℕ} {id : UInt64} (hi : i < n)
    (hsame : ∀ i', i' ≠ i → t'.cells i' = t.cells i' ∧ t'.entries[i']? = t.entries[i']?)
    (hthere : ∀ k, t.cells i = .live k → k = id) (helse : ∀ i' < n, t.cells i' = .live id → i' = i)
    {new : Option (HeapEntry P)}
    (hnew : (∃ ent, new = some ent ∧ t'.cells i = .live id ∧ t'.entries[i]? = some ent) ∨
      (new = none ∧ ∀ k, t'.cells i ≠ .live k)) :
    t'.lookup hash = Function.update (t.lookup hash) id new := by
  funext id'
  apply Option.ext
  intro ent
  rw [h'.lookup_eq_some]
  by_cases hid : id' = id
  · subst hid
    rw [Function.update_self]
    have hat : ∀ i' < n, t'.cells i' = .live id' → i' = i := by
      intro i' hi' hlive
      by_contra hne
      rw [(hsame i' hne).1] at hlive
      exact hne (helse i' hi' hlive)
    rcases hnew with ⟨e, rfl, hlive, hent⟩ | ⟨rfl, hnone⟩
    · constructor
      · rintro ⟨i', hi', hlive', hent'⟩
        rw [hat i' hi' hlive'] at hent'
        exact hent.symm.trans hent'
      · intro heq
        exact ⟨i, hi, hlive, hent.trans heq⟩
    · constructor
      · rintro ⟨i', hi', hlive', _⟩
        rw [hat i' hi' hlive'] at hlive'
        exact absurd hlive' (hnone id')
      · intro heq; cases heq
  · rw [Function.update_of_ne hid, h.lookup_eq_some]
    have hne : ∀ i', t'.cells i' = .live id' ∨ t.cells i' = .live id' → i' ≠ i := by
      rintro i' hor rfl
      rcases hor with hlive | hlive
      · rcases hnew with ⟨_, _, hlive', _⟩ | ⟨_, hnone⟩
        · rw [hlive'] at hlive
          injection hlive with heq
          exact hid heq.symm
        · exact hnone id' hlive
      · exact hid (hthere id' hlive)
    constructor
    · rintro ⟨i', hi', hlive, hent⟩
      obtain ⟨hc, he⟩ := hsame i' (hne i' (Or.inl hlive))
      exact ⟨i', hi', hc ▸ hlive, he ▸ hent⟩
    · rintro ⟨i', hi', hlive, hent⟩
      obtain ⟨hc, he⟩ := hsame i' (hne i' (Or.inr hlive))
      exact ⟨i', hi', hc ▸ hlive, he ▸ hent⟩

theorem Inv.lookup_update_live {t' : FlatTable P} (h' : Inv hash n D t') {i : ℕ} {id : UInt64} (hi : i < n)
    (hlive : t.cells i = .live id)
    (hsame : ∀ i', i' ≠ i → t'.cells i' = t.cells i' ∧ t'.entries[i']? = t.entries[i']?)
    {new : Option (HeapEntry P)}
    (hnew : (∃ ent, new = some ent ∧ t'.cells i = .live id ∧ t'.entries[i]? = some ent) ∨
      (new = none ∧ ∀ k, t'.cells i ≠ .live k)) :
    t'.lookup hash = Function.update (t.lookup hash) id new := by
  obtain ⟨c, hp⟩ := h.probing
  refine h.lookup_update h' hi hsame ?_ (fun i' hi' hlive' => hp.unique i' hi' i hi id hlive' hlive) hnew
  intro k hk
  rw [hlive] at hk
  injection hk with hk
  exact hk.symm

theorem Inv.lookup_eq_none {id : UInt64} (hnot : ¬ ∃ i < n, t.cells i = .live id) :
    t.lookup hash id = none := by
  rw [← Option.not_isSome_iff_eq_none, ← h.live_iff]
  exact hnot

/-- **`findOrInsert` and the write through its reference.**  The reference shows
the id's entry, or a fresh one, and writing through it updates the map at the id. -/
theorem Inv.findOrInsert_lookup {id : UInt64} (hid : id ∈ D) :
    ∃ t' idx, t.findOrInsert hash id = some (t', idx) ∧
      t'.entries[idx.toNat]? = some ((t.lookup hash id).getD {}) ∧
      ∀ ent, Inv hash n D (t'.setEntry idx ent) ∧
        (t'.setEntry idx ent).lookup hash = Function.update (t.lookup hash) id (some ent) := by
  rcases h.findOrInsert_spec id with ⟨idx, hfind, hlt, hlive⟩ | ⟨hnot, s, hs, idx, hfind, hidx, hfree, hall⟩
  · refine ⟨t, idx, hfind, ?_, fun ent => ⟨h.setEntry, ?_⟩⟩
    · obtain ⟨ent, hent⟩ := h.entry hlt
      rw [hent, h.lookup_eq_some.mpr ⟨idx.toNat, hlt, hlive, hent⟩]
      rfl
    · refine h.lookup_update_live h.setEntry hlt hlive (fun i' hne => ⟨rfl, ?_⟩)
        (Or.inl ⟨ent, rfl, hlive, ?_⟩)
      · exact List.getElem?_set_ne (Ne.symm hne)
      · simp [FlatTable.setEntry, h.entries_length, hlt]
  · have hlt : idx.toNat < n := hidx ▸ Probing.walk_lt h.pos
    obtain ⟨hinv, hcells⟩ := h.place hid hnot hs hidx hall
    refine ⟨t.place idx id, idx, hfind, ?_, fun ent => ⟨hinv.setEntry, ?_⟩⟩
    · simp [FlatTable.place, h.entries_length, hlt, h.lookup_eq_none hnot]
    · have hcells' : ((t.place idx id).setEntry idx ent).cells =
          Function.update t.cells idx.toNat (.live id) := hcells
      refine h.lookup_update hinv.setEntry hlt (fun i' hne => ⟨?_, ?_⟩) ?_
        (fun i' hi' hlive' => absurd ⟨i', hi', hlive'⟩ hnot) (Or.inl ⟨ent, rfl, ?_, ?_⟩)
      · rw [hcells', Function.update_of_ne hne]
      · simp [FlatTable.setEntry, FlatTable.place, List.getElem?_set_ne (Ne.symm hne)]
      · intro k hk
        rw [hidx] at hk
        exact absurd hk (hfree k)
      · rw [hcells', Function.update_self]
      · simp [FlatTable.setEntry, FlatTable.place, h.entries_length, hlt]

/-- **Erasing under a test** is `evict` on the map. -/
theorem Inv.eraseIf (test : HeapEntry P → Bool) (id : UInt64) :
    ∃ t', t.eraseIf hash test id = some t' ∧ Inv hash n D t' ∧
      t'.lookup hash = evict test id (t.lookup hash) := by
  rcases h.findIndex_spec id with ⟨idx, hfind, hlt, hlive⟩ | ⟨hfind, hnot⟩
  · obtain ⟨ent, hent⟩ := h.entry hlt
    have hlook := h.lookup_eq_some.mpr ⟨idx.toNat, hlt, hlive, hent⟩
    have hused := (h.used idx.toNat hlt).mpr ⟨id, hlive⟩
    simp only [FlatTable.eraseIf, hfind, Option.bind_eq_bind, Option.bind_some,
      if_neg (h.ne_npos hlt), hused, hent, Bool.true_and]
    have hent' : ∀ ent', t.lookup hash id = some ent' → ent = ent' :=
      fun ent' h' => Option.some.inj (hlook.symm.trans h')
    cases htest : test ent with
    | true =>
        obtain ⟨hinv, hcells⟩ := h.eraseAt hlt hlive
        refine ⟨t.eraseAt idx, rfl, hinv, ?_⟩
        rw [evict_eq_update fun ent' h' => hent' ent' h' ▸ htest]
        refine h.lookup_update_live hinv hlt hlive (fun i' hne => ⟨?_, ?_⟩) (Or.inr ⟨rfl, ?_⟩)
        · rw [hcells, Function.update_of_ne hne]
        · exact List.getElem?_set_ne (Ne.symm hne)
        · intro k
          rw [hcells, Function.update_self]
          intro hlive
          cases hlive
    | false =>
        refine ⟨t, rfl, h, ?_⟩
        rw [evict_eq_self fun ent' h' => hent' ent' h' ▸ htest]
  · refine ⟨t, by simp [FlatTable.eraseIf, hfind], h, ?_⟩
    rw [evict_eq_self]
    intro ent hent
    rw [h.lookup_eq_none hnot] at hent
    cases hent

end

/-! ## What the invariant says about the vectors -/

/-- A slot holds an id if it is used under this key. -/
def Holds (t : FlatTable P) (i : ℕ) (id : UInt64) : Prop :=
  t.keys[i]? = some id ∧ t.used[i]? = some true

/-- Probing is sound: at most `bound` slots are claimed, the `live` ids sit in one
slot each that their walk reaches over claimed slots only, and both loops return. -/
structure Sound (bound : ℕ) (live : UInt64 → Prop) (t : FlatTable P) : Prop where
  claimed_le : ((Finset.range t.keys.length).filter fun i => t.keys[i]? ≠ some kEmpty).card ≤ bound
  slot : ∀ id, live id → ∃! i, t.Holds i id
  live_of_holds : ∀ i id, t.Holds i id → live id
  path : ∀ i id, t.Holds i id → ∃ j < t.keys.length,
    ((t.probe hash id).toNat + j) % t.keys.length = i ∧
      ∀ m < j, t.keys[((t.probe hash id).toNat + m) % t.keys.length]? ≠ some kEmpty
  findIndex_live : ∀ id, live id → ∃ idx, t.findIndex hash id = some idx ∧ t.Holds idx.toNat id
  findIndex_npos : ∀ id, t.findIndex hash id = some npos ↔ ¬ live id
  findOrInsert_live : ∀ id, live id →
    ∃ idx, t.findOrInsert hash id = some (t, idx) ∧ t.Holds idx.toNat id
  findOrInsert_new : ∀ id, ¬ live id → ∃ idx, t.findOrInsert hash id = some (t.place idx id, idx) ∧
    (t.keys[idx.toNat]? = some kEmpty ∨ t.keys[idx.toNat]? = some kTomb)

section
variable {hash} {n : ℕ} {D : Finset UInt64} {t : FlatTable P} (h : Inv hash n D t)
include h

theorem Inv.holds_iff {i : ℕ} {id : UInt64} : t.Holds i id ↔ i < n ∧ t.cells i = .live id := by
  constructor
  · rintro ⟨hkey, hused⟩
    have hi : i < n := by
      have := (List.getElem?_eq_some_iff.mp hkey).1
      rwa [h.keys_length] at this
    obtain ⟨k, hk⟩ := (h.used i hi).mp hused
    obtain ⟨k', hk', hcell⟩ := h.key hi
    obtain rfl : k' = id := Option.some.inj (hk'.symm.trans hkey)
    obtain ⟨-, -, rfl⟩ := decode_eq_live.mp (hcell.symm.trans hk)
    exact ⟨hi, hk⟩
  · rintro ⟨hi, hlive⟩
    obtain ⟨k, hk, hcell⟩ := h.key hi
    have hid := (decode_eq_live.mp (hcell.symm.trans hlive)).2.2
    exact ⟨hid ▸ hk, (h.used i hi).mpr ⟨id, hlive⟩⟩

theorem Inv.key_eq_empty {i : ℕ} (hi : i < n) : t.keys[i]? = some kEmpty ↔ t.cells i = .empty := by
  obtain ⟨k, hk, hcell⟩ := h.key hi
  rw [hk, hcell, decode_eq_empty, Option.some.injEq]

theorem Inv.sound : t.Sound hash D.card fun id => (t.lookup hash id).isSome := by
  obtain ⟨c, hp⟩ := h.probing
  have hprobe : ∀ id, (t.probe hash id).toNat = home hash n id := fun id => h.and_mask _
  have hholds : ∀ id, (t.lookup hash id).isSome → ∃ i, t.Holds i id := by
    intro id hlive
    obtain ⟨i, hi, hik⟩ := h.live_iff.mpr hlive
    exact ⟨i, h.holds_iff.mpr ⟨hi, hik⟩⟩
  have hlive : ∀ {i id}, t.Holds i id → (t.lookup hash id).isSome := by
    intro i id hi
    exact h.live_iff.mp ⟨i, h.holds_iff.mp hi⟩
  have hunique : ∀ {i j id}, t.Holds i id → t.Holds j id → i = j := by
    intro i j id hi hj
    obtain ⟨hi, hik⟩ := h.holds_iff.mp hi
    obtain ⟨hj, hjk⟩ := h.holds_iff.mp hj
    exact hp.unique i hi j hj id hik hjk
  refine ⟨?_, ?_, fun i id => hlive, ?_, ?_, ?_, ?_, ?_⟩
  · rw [h.keys_length]
    refine le_trans (Finset.card_le_card fun i hi => ?_) hp.card_filled_le
    simp only [Finset.mem_filter, Finset.mem_range] at hi ⊢
    exact ⟨hi.1, fun hempty => hi.2 ((h.key_eq_empty hi.1).mpr hempty)⟩
  · intro id hid
    obtain ⟨i, hi⟩ := hholds id hid
    exact ⟨i, hi, fun j hj => hunique hj hi⟩
  · intro i id hi
    obtain ⟨hi, hik⟩ := h.holds_iff.mp hi
    obtain ⟨j, hj, hwalk, hne⟩ := hp.path i hi id hik
    rw [h.keys_length, hprobe]
    exact ⟨j, hj, hwalk, fun m hm hempty =>
      hne m hm ((h.key_eq_empty (Nat.mod_lt _ h.pos)).mp hempty)⟩
  · intro id hid
    rcases h.findIndex_spec id with ⟨idx, hfind, hlt, hlive⟩ | ⟨_, hnot⟩
    · exact ⟨idx, hfind, h.holds_iff.mpr ⟨hlt, hlive⟩⟩
    · exact absurd (h.live_iff.mpr hid) hnot
  · intro id
    rcases h.findIndex_spec id with ⟨idx, hfind, hlt, hlive⟩ | ⟨hfind, hnot⟩
    · rw [hfind, Option.some.injEq]
      exact iff_of_false (h.ne_npos hlt) (not_not.mpr (h.live_iff.mp ⟨_, hlt, hlive⟩))
    · exact iff_of_true hfind (fun hid => hnot (h.live_iff.mpr hid))
  · intro id hid
    rcases h.findOrInsert_spec id with ⟨idx, hfind, hlt, hlive⟩ | ⟨hnot, _⟩
    · exact ⟨idx, hfind, h.holds_iff.mpr ⟨hlt, hlive⟩⟩
    · exact absurd (h.live_iff.mpr hid) hnot
  · intro id hid
    rcases h.findOrInsert_spec id with ⟨idx, hfind, hlt, hlive⟩ | ⟨_, s, hs, idx, hfind, hidx, hfree, _⟩
    · exact absurd (h.live_iff.mp ⟨_, hlt, hlive⟩) hid
    · refine ⟨idx, hfind, ?_⟩
      obtain ⟨k, hk, hcell⟩ := h.key (i := idx.toNat) (hidx ▸ Probing.walk_lt h.pos)
      rw [hk, Option.some.injEq, Option.some.injEq]
      by_contra hne
      rw [not_or] at hne
      exact hfree k (hidx ▸ hcell.trans (decode_eq_live.mpr ⟨hne.1, hne.2, rfl⟩))

end

/-! ## The constructor -/

theorem capLoop_spec {target : UInt64} (htarget : target.toNat ≤ 2 ^ 63) :
    ∀ (fuel b : ℕ) (cap : UInt64), b ≤ 63 → 64 ≤ fuel + b → cap.toNat = 2 ^ b →
      ∃ b' ≤ 63, ∃ cap' : UInt64, capLoop target fuel cap = some cap' ∧ cap'.toNat = 2 ^ b' ∧
        target.toNat ≤ 2 ^ b'
  | 0, b, _, hb, hfuel, _ => by omega
  | fuel + 1, b, cap, hb, hfuel, hcap => by
      unfold capLoop
      by_cases hlt : cap < target
      · rw [if_pos hlt]
        rw [UInt64.lt_iff_toNat_lt, hcap] at hlt
        have hb' : b < 63 := (Nat.pow_lt_pow_iff_right (by omega)).mp (lt_of_lt_of_le hlt htarget)
        have hle : 2 ^ (b + 1) ≤ 2 ^ 63 := Nat.pow_le_pow_right (by omega) hb'
        refine capLoop_spec htarget fuel (b + 1) _ hb' (by omega) ?_
        rw [UInt64.toNat_shiftLeft, hcap, Nat.shiftLeft_eq]
        exact Nat.mod_eq_of_lt (show 2 ^ b * 2 < 2 ^ 64 by rw [← Nat.pow_succ]; omega)
      · rw [if_neg hlt]
        rw [UInt64.lt_iff_toNat_lt, hcap, Nat.not_lt] at hlt
        exact ⟨b, hb, cap, rfl, hcap, hlt⟩

/-- **The constructor.**  The table is empty, and has more slots than ids are expected. -/
theorem construct_spec (P : Type) {expectedIds : UInt64} (hexp : expectedIds.toNat < 2 ^ 62) :
    ∃ (t : FlatTable P) (n : ℕ), construct P expectedIds = some t ∧ expectedIds.toNat < n ∧
      ∀ (hash : UInt64 → UInt64) (D : Finset UInt64), D.card ≤ expectedIds.toNat →
        (∀ id ∈ D, id ≠ kEmpty ∧ id ≠ kTomb) →
        Inv hash n D t ∧ t.lookup hash = fun _ => none := by
  have htarget : (expectedIds * 2).toNat = expectedIds.toNat * 2 := by
    rw [UInt64.toNat_mul]
    exact Nat.mod_eq_of_lt (show expectedIds.toNat * 2 < 2 ^ 64 by omega)
  obtain ⟨b, hb, cap, hcap, hcapNat, hle⟩ :=
    capLoop_spec (by omega : (expectedIds * 2).toNat ≤ 2 ^ 63) 65 0 1 (by omega) (by omega) rfl
  have hpos : 0 < 2 ^ b := Nat.two_pow_pos b
  have hlt : 2 ^ b ≤ 2 ^ 63 := Nat.pow_le_pow_right (by omega) hb
  refine ⟨ofCap P cap, 2 ^ b, by simp [construct, capacity, hcap], by omega, ?_⟩
  intro hash D hcard hids
  have hcells : ∀ i, (ofCap P cap).cells i = .empty := by
    intro i
    simp only [cells, ofCap, List.getElem?_replicate]
    split <;> rfl
  have hinv : Inv hash (2 ^ b) D (ofCap P cap) := by
    refine ⟨⟨b, hb, rfl⟩, by simp [ofCap, hcapNat], by simp [ofCap, hcapNat],
      by simp [ofCap, hcapNat], ?_, ?_, hids, ?_⟩
    · have hone : (1 : UInt64) ≤ cap := by
        rw [UInt64.le_iff_toNat_le, hcapNat]
        exact hpos
      rw [ofCap, UInt64.toNat_sub_of_le _ _ hone, hcapNat]
      rfl
    · intro i _
      simp only [hcells]
      constructor
      · intro h
        simp only [ofCap, List.getElem?_replicate] at h
        split at h <;> simp at h
      · rintro ⟨k, hk⟩; cases hk
    · obtain ⟨c, hcut⟩ := Probing.exists_cut D (home hash (2 ^ b)) (2 ^ b)
        (fun _ _ => Nat.mod_lt _ hpos) (by omega)
      refine ⟨c, ?_⟩
      rw [funext hcells]
      exact Probing.Inv.init hcut
  refine ⟨hinv, ?_⟩
  funext id
  rw [← Option.not_isSome_iff_eq_none, ← hinv.live_iff]
  rintro ⟨i, _, hi⟩
  rw [hcells] at hi
  cases hi

end FlatTable

end LearnCpp.Reconciler
