/-
# `LearnCpp.Lib.Wheel` — a timer wheel on a 64-bit clock

A wheel is a vector of `mod` buckets of keys.  A key is filed under its deadline
modulo `mod`; when the clock goes to `now`, the ticks up to `now` are processed
one by one, and a tick runs a body on each key of its bucket and clears the
bucket.  The bucket is cleared whatever the body did with its keys.

The body works on a store that may be partial, and is seen through a view of the
store as a map with deadlines.  A loop over the clock values up to the last one
never ends, so `now` is below it in what follows.

    ticks_rule       what a tick carries from `t` to `t + 1` holds after the loop
    ticks_expire     the loop drops what `expire now` drops
    eachTick_rule    what the invariant gives at a tick holds at every tick
-/
import Mathlib.Algebra.Group.Nat.Defs
import LearnCpp.Lib.Run
import LearnCpp.Lib.Expiry

namespace LearnCpp.Lib.Wheel

variable {κ ε σ : Type}

/-- The number of the bucket for a clock value. -/
def slot (mod t : UInt64) : ℕ := (t % mod).toNat

/-- The keys in a bucket. -/
def bucket (wheel : List (List κ)) (b : ℕ) : List κ := wheel[b]?.getD []

/-- File a key under a clock value. -/
def schedule (mod t : UInt64) (k : κ) (wheel : List (List κ)) : Option (List (List κ)) := do
  let ks ← wheel[slot mod t]?
  some (wheel.set (slot mod t) (ks ++ [k]))

/-- Run the body on the keys of the bucket, then clear it. -/
def tick (mod : UInt64) (body : UInt64 → κ → σ → Option σ) (t : UInt64) (wheel : List (List κ))
    (s : σ) : Option (List (List κ) × σ) := do
  let ks ← wheel[slot mod t]?
  let s ← ks.foldl (fun o k => o.bind (body t k)) (some s)
  some (wheel.set (slot mod t) [], s)

/-- The ticks from `t` to `now`. -/
def ticks (mod : UInt64) (body : UInt64 → κ → σ → Option σ) (now : UInt64) :
    ℕ → UInt64 → List (List κ) → σ → Option (List (List κ) × σ)
  | 0, _, _, _ => none
  | fuel + 1, t, wheel, s =>
      if t ≤ now then do
        let (wheel, s) ← tick mod body t wheel s
        ticks mod body now fuel (t + 1) wheel s
      else some (wheel, s)

/-- `Q` holds at the start of every tick from `t` to `now`. -/
def EachTick (mod : UInt64) (body : UInt64 → κ → σ → Option σ) (now : UInt64)
    (Q : UInt64 → List (List κ) → σ → Prop) : ℕ → UInt64 → List (List κ) → σ → Prop
  | 0, _, _, _ => True
  | fuel + 1, t, wheel, s =>
      t ≤ now → Q t wheel s ∧
        ∀ wheel' s', tick mod body t wheel s = some (wheel', s') →
          EachTick mod body now Q fuel (t + 1) wheel' s'

/-! ## The rules of the loop -/

section
variable {mod : UInt64} {body : UInt64 → κ → σ → Option σ} {now : UInt64}
variable (J : ℕ → List (List κ) → σ → Prop)

theorem toNat_succ {t now : UInt64} (hnow : now.toNat < 2 ^ 64 - 1) (hle : t ≤ now) :
    (t + 1).toNat = t.toNat + 1 := by
  rw [UInt64.le_iff_toNat_le] at hle
  rw [UInt64.toNat_add, show UInt64.toNat 1 = 1 from rfl, Nat.mod_eq_of_lt (by omega)]

theorem ticks_rule (hnow : now.toNat < 2 ^ 64 - 1)
    (hstep : ∀ t wheel s, t ≤ now → J t.toNat wheel s →
      ∃ wheel' s', tick mod body t wheel s = some (wheel', s') ∧ J (t.toNat + 1) wheel' s') :
    ∀ (fuel : ℕ) (t : UInt64) (wheel : List (List κ)) (s : σ),
      now.toNat + 1 < t.toNat + fuel → 0 < fuel → J t.toNat wheel s →
      ∃ wheel' s', ticks mod body now fuel t wheel s = some (wheel', s') ∧
        J (max t.toNat (now.toNat + 1)) wheel' s'
  | 0, _, _, _, _, hfuel, _ => absurd hfuel (Nat.lt_irrefl 0)
  | fuel + 1, t, wheel, s, hfuel, _, hJ => by
      unfold ticks
      by_cases hle : t ≤ now
      · have hle' := UInt64.le_iff_toNat_le.mp hle
        have hsucc := toNat_succ hnow hle
        obtain ⟨wheel₁, s₁, htick, hJ₁⟩ := hstep t wheel s hle hJ
        obtain ⟨wheel', s', hticks, hJ'⟩ :=
          ticks_rule hnow hstep fuel (t + 1) wheel₁ s₁ (by omega) (by omega) (hsucc ▸ hJ₁)
        refine ⟨wheel', s', ?_, ?_⟩
        · rw [if_pos hle, htick]; exact hticks
        · rw [hsucc] at hJ'
          rwa [show max t.toNat (now.toNat + 1) = max (t.toNat + 1) (now.toNat + 1) by omega]
      · have hlt := Nat.lt_of_not_le (UInt64.le_iff_toNat_le.not.mp hle)
        refine ⟨wheel, s, if_neg hle, ?_⟩
        rwa [Nat.max_eq_left hlt]

theorem eachTick_rule {Q : UInt64 → List (List κ) → σ → Prop} (hnow : now.toNat < 2 ^ 64 - 1)
    (hstep : ∀ t wheel s wheel' s', t ≤ now → J t.toNat wheel s →
      tick mod body t wheel s = some (wheel', s') → J (t.toNat + 1) wheel' s')
    (hQ : ∀ t wheel s, t ≤ now → J t.toNat wheel s → Q t wheel s) :
    ∀ (fuel : ℕ) (t : UInt64) (wheel : List (List κ)) (s : σ), J t.toNat wheel s →
      EachTick mod body now Q fuel t wheel s
  | 0, _, _, _, _ => trivial
  | fuel + 1, t, wheel, s, hJ => by
      intro hle
      refine ⟨hQ t wheel s hle hJ, ?_⟩
      intro wheel' s' htick
      have hJ' := hstep t wheel s wheel' s' hle hJ htick
      rw [← toNat_succ hnow hle] at hJ'
      exact eachTick_rule hnow hstep hQ fuel (t + 1) wheel' s' hJ'

theorem EachTick.imp {body : UInt64 → κ → σ → Option σ} {now : UInt64}
    {Q Q' : UInt64 → List (List κ) → σ → Prop} (hQ : ∀ t wheel s, Q t wheel s → Q' t wheel s) :
    ∀ {fuel : ℕ} {t : UInt64} {wheel : List (List κ)} {s : σ},
      EachTick mod body now Q fuel t wheel s → EachTick mod body now Q' fuel t wheel s
  | 0, _, _, _, _ => trivial
  | _ + 1, _, _, _, h => fun hle =>
      ⟨hQ _ _ _ (h hle).1, fun wheel' s' htick => EachTick.imp hQ ((h hle).2 wheel' s' htick)⟩

end

/-! ## The loop as expiry -/

variable (deadline : ε → ℕ)

/-- The wheel is ready for tick `t`: every entry has its key filed, and its
deadline in the turn that starts at `t`. -/
structure Ready (mod : UInt64) (t : ℕ) (wheel : List (List κ)) (m : κ → Option ε) : Prop where
  length : wheel.length = mod.toNat
  covers : WheelCovers deadline mod.toNat (bucket wheel) m
  turn : WithinTurn deadline mod.toNat t m

variable {deadline} {mod : UInt64} {wheel : List (List κ)} {m : κ → Option ε}

theorem slot_lt (hmod : 0 < mod.toNat) (t : UInt64) : slot mod t < mod.toNat := by
  rw [slot, UInt64.toNat_mod]
  exact Nat.mod_lt _ hmod

theorem bucket_set_self {b : ℕ} (hb : b < wheel.length) (ks : List κ) :
    bucket (wheel.set b ks) b = ks := by
  simp [bucket, hb]

theorem bucket_set_ne {b b' : ℕ} (h : b' ≠ b) (ks : List κ) :
    bucket (wheel.set b ks) b' = bucket wheel b' := by
  rw [bucket, bucket, List.getElem?_set_ne h.symm]

/-- Filing a key with the deadline of its new entry keeps the wheel ready. -/
theorem Ready.schedule [DecidableEq κ] {t : ℕ} (h : Ready deadline mod t wheel m)
    (hmod : 0 < mod.toNat) (at' : UInt64) {k : κ} {e : ε} (hat : at'.toNat = deadline e)
    (hturn : t ≤ deadline e ∧ deadline e < t + mod.toNat) :
    ∃ wheel', Wheel.schedule mod at' k wheel = some wheel' ∧
      (∀ b, bucket wheel' b = if b = slot mod at' then bucket wheel b ++ [k] else bucket wheel b) ∧
      Ready deadline mod t wheel' (Function.update m k (some e)) := by
  have hlt : slot mod at' < wheel.length := h.length ▸ slot_lt hmod at'
  have hget : wheel[slot mod at']? = some (bucket wheel (slot mod at')) := by
    simp [bucket, hlt]
  refine ⟨_, by rw [Wheel.schedule, hget]; rfl, ?_, ?_⟩
  · intro b
    by_cases hb : b = slot mod at'
    · subst hb; rw [bucket_set_self hlt, if_pos rfl]
    · rw [bucket_set_ne hb, if_neg hb]
  · refine ⟨by simpa using h.length, ?_, ?_⟩
    · intro k' e' he'
      rcases update_eq_some.mp he' with ⟨rfl, rfl⟩ | ⟨-, hold⟩
      · rw [show deadline e' % mod.toNat = slot mod at' by rw [slot, UInt64.toNat_mod, hat],
          bucket_set_self hlt]
        exact List.mem_append_right _ List.mem_cons_self
      · have hmem := h.covers k' e' hold
        by_cases hb : deadline e' % mod.toNat = slot mod at'
        · rw [hb, bucket_set_self hlt]
          exact List.mem_append_left _ (hb ▸ hmem)
        · rwa [bucket_set_ne hb]
    · intro k' e' he'
      rcases update_eq_some.mp he' with ⟨rfl, rfl⟩ | ⟨-, hold⟩
      · exact hturn
      · exact h.turn k' e' hold

theorem Ready.update [DecidableEq κ] {t : ℕ} (h : Ready deadline mod t wheel m) {k : κ} {e e' : ε}
    (hk : m k = some e) (he : deadline e' = deadline e) :
    Ready deadline mod t wheel (Function.update m k (some e')) := by
  have key : ∀ k' e₁, Function.update m k (some e') k' = some e₁ →
      ∃ e₀, m k' = some e₀ ∧ deadline e₁ = deadline e₀ := by
    intro k' e₁ he₁
    rcases update_eq_some.mp he₁ with ⟨rfl, rfl⟩ | ⟨-, hold⟩
    · exact ⟨e, hk, he⟩
    · exact ⟨e₁, hold, rfl⟩
  refine ⟨h.length, ?_, ?_⟩
  · intro k' e₁ he₁
    obtain ⟨e₀, he₀, hd⟩ := key k' e₁ he₁
    exact hd ▸ h.covers k' e₀ he₀
  · intro k' e₁ he₁
    obtain ⟨e₀, he₀, hd⟩ := key k' e₁ he₁
    exact hd ▸ h.turn k' e₀ he₀

/-! ## No stale keys

When a key is filed only as its entry is made, and an entry goes only when its
own tick comes, every filed key has an entry of that bucket. -/

/-- Every filed key has an entry whose deadline belongs to its bucket. -/
def Filed (deadline : ε → ℕ) (mod : UInt64) (wheel : List (List κ)) (m : κ → Option ε) : Prop :=
  ∀ b k, k ∈ bucket wheel b → ∃ e, m k = some e ∧ deadline e % mod.toNat = b

theorem Filed.due {t : UInt64} (h : Filed deadline mod wheel m)
    (hready : Ready deadline mod t.toNat wheel m) {k : κ} (hk : k ∈ bucket wheel (slot mod t)) :
    ∃ e, m k = some e ∧ deadline e = t.toNat := by
  obtain ⟨e, he, hmod⟩ := h _ k hk
  rw [slot, UInt64.toNat_mod] at hmod
  exact ⟨e, he, hready.turn.eq_of_mod deadline he hmod⟩

theorem Filed.schedule [DecidableEq κ] (h : Filed deadline mod wheel m) {at' : UInt64} {k : κ} {e : ε}
    {wheel' : List (List κ)} (hnone : m k = none) (hat : at'.toNat = deadline e)
    (hbucket : ∀ b, bucket wheel' b =
      if b = slot mod at' then bucket wheel b ++ [k] else bucket wheel b) :
    Filed deadline mod wheel' (Function.update m k (some e)) := by
  intro b k' hk'
  -- either it was filed before, or it is the new key
  have hor : k' ∈ bucket wheel b ∨ (b = slot mod at' ∧ k' = k) := by
    rw [hbucket] at hk'
    by_cases hb : b = slot mod at'
    · rw [if_pos hb, List.mem_append, List.mem_singleton] at hk'
      exact hk'.imp id fun hk => ⟨hb, hk⟩
    · rw [if_neg hb] at hk'
      exact Or.inl hk'
  rcases hor with hmem | ⟨rfl, rfl⟩
  · obtain ⟨e', he', hmod⟩ := h b k' hmem
    have hne : k' ≠ k := fun hk => by rw [hk, hnone] at he'; cases he'
    exact ⟨e', by rw [Function.update_of_ne hne, he'], hmod⟩
  · exact ⟨e, Function.update_self .., by rw [slot, UInt64.toNat_mod, hat]⟩

theorem Filed.update [DecidableEq κ] (h : Filed deadline mod wheel m) {k : κ} {e e' : ε}
    (hk : m k = some e) (he : deadline e' = deadline e) :
    Filed deadline mod wheel (Function.update m k (some e')) := by
  intro b k' hk'
  obtain ⟨e₁, he₁, hmod⟩ := h b k' hk'
  by_cases hkk : k' = k
  · subst hkk
    rw [hk, Option.some.injEq] at he₁
    exact ⟨e', Function.update_self .., by rw [he, he₁, hmod]⟩
  · exact ⟨e₁, by rw [Function.update_of_ne hkk, he₁], hmod⟩

theorem Filed.tick {t : UInt64} (h : Filed deadline mod wheel m)
    (hready : Ready deadline mod t.toNat wheel m) :
    Filed deadline mod (wheel.set (slot mod t) []) (expire deadline t.toNat m) := by
  intro b k hk
  by_cases hb : b = slot mod t
  · subst hb
    rw [bucket] at hk
    by_cases hlt : slot mod t < wheel.length <;> simp [hlt] at hk
  · rw [bucket_set_ne hb] at hk
    obtain ⟨e, he, hmod⟩ := h b k hk
    refine ⟨e, (expire_eq_some deadline).mpr ⟨he, ?_⟩, hmod⟩
    -- it lies in this turn but not at this tick
    refine Nat.lt_of_le_of_ne (hready.turn k e he).1 fun heq => hb ?_
    rw [← hmod, ← heq, slot, UInt64.toNat_mod]

/-! ### Ticks -/

section
variable [DecidableEq κ] {body : UInt64 → κ → σ → Option σ}
variable (Inv : σ → Prop) (view : σ → κ → Option ε)

/-- What the body of a tick must do: drop the entry of the key if it is due. -/
def EvictsDue (deadline : ε → ℕ) (body : UInt64 → κ → σ → Option σ) : Prop :=
  ∀ t k s, Inv s → ∃ s', body t k s = some s' ∧ Inv s' ∧
    view s' = evict (fun e => decide (deadline e ≤ t.toNat)) k (view s)

/-- **One tick** drops what is due, and leaves the wheel ready for the next. -/
theorem tick_spec (hmod : 0 < mod.toNat) (hbody : EvictsDue Inv view deadline body) {t : UInt64}
    {s : σ} (hs : Inv s) (h : Ready deadline mod t.toNat wheel (view s)) :
    ∃ s', tick mod body t wheel s = some (wheel.set (slot mod t) [], s') ∧ Inv s' ∧
      view s' = expire deadline t.toNat (view s) ∧
      Ready deadline mod (t.toNat + 1) (wheel.set (slot mod t) []) (view s') := by
  have hslot : slot mod t = t.toNat % mod.toNat := UInt64.toNat_mod ..
  have hget : wheel[slot mod t]? = some (bucket wheel (slot mod t)) := by
    have : slot mod t < wheel.length := h.length ▸ slot_lt hmod t
    simp [bucket, this]
  obtain ⟨s', hfold, hs', hview⟩ := foldl_bind_refines Inv view
    (fun k => evict (fun e => decide (deadline e ≤ t.toNat)) k) (bucket wheel (slot mod t))
    (fun k _ => hbody t k) s hs
  obtain ⟨hexp, hcov, hturn⟩ := tick_eq_expire deadline
    (bucket (wheel.set (slot mod t) [])) h.covers h.turn
    (fun b hb => bucket_set_ne (hslot ▸ hb) [])
  rw [← hslot] at hexp
  rw [hexp] at hview
  refine ⟨s', ?_, hs', hview, by simpa using h.length, hview ▸ hcov, hview ▸ hturn⟩
  simp only [tick, hget, hfold, Option.bind_eq_bind, Option.bind_some]

/-- **The loop over the ticks is a full scan**, and leaves the wheel ready for the
tick after `now`, without stale keys if it had none. -/
theorem ticks_expire (hmod : 0 < mod.toNat) (hbody : EvictsDue Inv view deadline body)
    {t now : UInt64} (hnow : now.toNat < 2 ^ 64 - 1) (ht : t.toNat ≤ now.toNat + 1) {s : σ}
    (hs : Inv s) (h : Ready deadline mod t.toNat wheel (view s)) :
    ∃ wheel' s', ticks mod body now (2 ^ 64) t wheel s = some (wheel', s') ∧ Inv s' ∧
      view s' = expire deadline now.toNat (view s) ∧
      Ready deadline mod (now.toNat + 1) wheel' (view s') ∧
      (Filed deadline mod wheel (view s) → Filed deadline mod wheel' (view s')) := by
  -- what is left to drop by `now` stays the same
  obtain ⟨wheel', s', hticks, ⟨hs', hready, hfiled, hview⟩⟩ := ticks_rule
    (fun t wheel' s' => Inv s' ∧ Ready deadline mod t wheel' (view s') ∧
      (Filed deadline mod wheel (view s) → Filed deadline mod wheel' (view s')) ∧
      expire deadline now.toNat (view s') = expire deadline now.toNat (view s)) hnow
    (by
      rintro t wheel₁ s₁ hle ⟨hs₁, hready, hfiled, hview⟩
      obtain ⟨s', htick, hs', hexp, hready'⟩ := tick_spec Inv view hmod hbody hs₁ hready
      refine ⟨_, s', htick, hs', hready', fun h => hexp ▸ (hfiled h).tick hready, ?_⟩
      rw [hexp, expire_expire deadline (UInt64.le_iff_toNat_le.mp hle), hview])
    (2 ^ 64) t wheel s (by omega) (by omega) ⟨hs, h, id, rfl⟩
  rw [Nat.max_eq_right ht] at hready
  refine ⟨wheel', s', hticks, hs', ?_, hready, hfiled⟩
  rw [← hview, expire_of_lt deadline]
  intro k e he
  have := (hready.turn k e he).1
  omega

/-- Without stale keys, every key in the bucket of a tick is due at that tick. -/
theorem eachTick_due (hmod : 0 < mod.toNat) (hbody : EvictsDue Inv view deadline body)
    {t now : UInt64} (hnow : now.toNat < 2 ^ 64 - 1) {s : σ} (hs : Inv s)
    (h : Ready deadline mod t.toNat wheel (view s)) (hfiled : Filed deadline mod wheel (view s))
    (fuel : ℕ) :
    EachTick mod body now
      (fun t wheel s => ∀ k ∈ bucket wheel (slot mod t), ∃ e, view s k = some e ∧ deadline e = t.toNat)
      fuel t wheel s := by
  refine eachTick_rule (fun t wheel s => Inv s ∧ Ready deadline mod t wheel (view s) ∧
    Filed deadline mod wheel (view s)) hnow ?_ ?_ fuel t wheel s ⟨hs, h, hfiled⟩
  · rintro t wheel s wheel' s' - ⟨hs, hready, hfiled⟩ htick
    obtain ⟨s₁, htick₁, hs₁, hexp, hready'⟩ := tick_spec Inv view hmod hbody hs hready
    obtain ⟨rfl, rfl⟩ := Prod.mk.inj (Option.some.inj (htick₁.symm.trans htick))
    exact ⟨hs₁, hready', hexp ▸ hfiled.tick hready⟩
  · rintro t wheel s - ⟨-, hready, hfiled⟩ k hk
    exact hfiled.due hready hk

end

theorem bucket_replicate (n b : ℕ) : bucket (List.replicate n ([] : List κ)) b = [] := by
  rw [bucket]
  cases hb : (List.replicate n ([] : List κ))[b]? with
  | none => rfl
  | some ks => exact List.eq_of_mem_replicate (List.mem_of_getElem? hb)

theorem tick_empty {body : UInt64 → κ → σ → Option σ} (hmod : 0 < mod.toNat) (t : UInt64) (s : σ) :
    tick mod body t (List.replicate mod.toNat []) s = some (List.replicate mod.toNat [], s) := by
  simp [tick, slot_lt hmod]

theorem ticks_empty (mod : UInt64) (body : UInt64 → κ → σ → Option σ) (hmod : 0 < mod.toNat)
    {now : UInt64} (hnow : now.toNat < 2 ^ 64 - 1) (t : UInt64) (s : σ) :
    ticks mod body now (2 ^ 64) t (List.replicate mod.toNat []) s =
      some (List.replicate mod.toNat [], s) := by
  obtain ⟨wheel', s', hticks, rfl, rfl⟩ := ticks_rule
    (fun _ wheel' s' => wheel' = List.replicate mod.toNat ([] : List κ) ∧ s' = s) hnow
    (by rintro t _ _ hle ⟨rfl, rfl⟩; exact ⟨_, _, tick_empty hmod t _, rfl, rfl⟩)
    (2 ^ 64) t _ s (by omega) (by omega) ⟨rfl, rfl⟩
  exact hticks

theorem eachTick_empty (body : UInt64 → κ → σ → Option σ) (hmod : 0 < mod.toNat) {now : UInt64}
    (hnow : now.toNat < 2 ^ 64 - 1) (fuel : ℕ) (t : UInt64) (s : σ) :
    EachTick mod body now (fun t wheel _ => bucket wheel (slot mod t) = []) fuel t
      (List.replicate mod.toNat []) s := by
  refine eachTick_rule (fun _ wheel _ => wheel = List.replicate mod.toNat ([] : List κ)) hnow
    ?_ ?_ fuel t _ s rfl
  · rintro t _ s wheel' s' - rfl htick
    rw [tick_empty hmod] at htick
    exact (Prod.mk.inj (Option.some.inj htick)).1.symm
  · rintro t _ s - rfl
    exact bucket_replicate ..

end LearnCpp.Lib.Wheel
