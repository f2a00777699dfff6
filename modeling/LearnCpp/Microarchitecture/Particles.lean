/-
# `LearnCpp.Microarchitecture.Particles` — two layouts of a particle system

`topics/microarchitecture/aos_vs_soa_particles.cpp`.  The object-oriented system
is a vector of particles, the data-oriented one a vector for each field, whose
loops go by the index and read and write one element of each.  Nothing is
assumed of the float operations, so that the two agree only because they do the
same ones in the same order.

    Same ps s   —  a pass over both   ⟶   Same ps' s',  and the same rendered sum
-/
import LearnCpp.Lib.Run
import LearnCpp.Lib.Vector

namespace LearnCpp.Microarchitecture.Particles

open Lib

/-- The float literals of the program. -/
class FloatLits (F : Type) where
  /-- `0.0f` -/
  zero : F
  /-- `0.1f` -/
  tenth : F
  /-- `0.2f` -/
  fifth : F
  /-- `0.3f` -/
  threeTenths : F

/-- `Particle_OOP`, without the components that no system touches. -/
structure ParticleOop (F : Type) where
  x : F
  y : F
  z : F
  vx : F
  vy : F
  vz : F
  ax : F
  ay : F
  az : F
deriving DecidableEq

structure ParticleSystemDop (F : Type) where
  x : List F
  y : List F
  z : List F
  vx : List F
  vy : List F
  vz : List F
  ax : List F
  ay : List F
  az : List F
deriving DecidableEq

variable {F : Type} [Add F] [Mul F]

/-! ## The object-oriented systems -/

def systemIntegrateVelocityOop (dt : F) (particles : List (ParticleOop F)) : List (ParticleOop F) :=
  particles.map fun p =>
    { p with vx := p.vx + p.ax * dt, vy := p.vy + p.ay * dt, vz := p.vz + p.az * dt }

def systemIntegratePositionOop (dt : F) (particles : List (ParticleOop F)) : List (ParticleOop F) :=
  particles.map fun p =>
    { p with x := p.x + p.vx * dt, y := p.y + p.vy * dt, z := p.z + p.vz * dt }

/-- What a particle at this position adds to the sum. -/
def shade [FloatLits F] (x y z : F) : F :=
  x * FloatLits.tenth + y * FloatLits.fifth + z * FloatLits.threeTenths

def systemRenderOop [FloatLits F] (particles : List (ParticleOop F)) : F :=
  particles.foldl (fun sum p => sum + shade p.x p.y p.z) FloatLits.zero

/-! ## The data-oriented systems -/

/-- `a[i] += b[i] * dt`. -/
def addScaled (dt : F) (a b : List F) (i : ℕ) : Option (List F) :=
  match a[i]?, b[i]? with
  | some u, some w => assign a i (u + w * dt)
  | _, _ => none

def velocityRound (dt : F) (i : ℕ) (s : ParticleSystemDop F) : Option (ParticleSystemDop F) :=
  (addScaled dt s.vx s.ax i).bind fun vx =>
    (addScaled dt s.vy s.ay i).bind fun vy =>
      (addScaled dt s.vz s.az i).map fun vz => { s with vx := vx, vy := vy, vz := vz }

def systemIntegrateVelocityDop (dt : F) (s : ParticleSystemDop F) : Option (ParticleSystemDop F) :=
  run (velocityRound dt) (List.range s.x.length) s

def positionRound (dt : F) (i : ℕ) (s : ParticleSystemDop F) : Option (ParticleSystemDop F) :=
  (addScaled dt s.x s.vx i).bind fun x =>
    (addScaled dt s.y s.vy i).bind fun y =>
      (addScaled dt s.z s.vz i).map fun z => { s with x := x, y := y, z := z }

def systemIntegratePositionDop (dt : F) (s : ParticleSystemDop F) : Option (ParticleSystemDop F) :=
  run (positionRound dt) (List.range s.x.length) s

def renderRound [FloatLits F] (s : ParticleSystemDop F) (i : ℕ) (sum : F) : Option F :=
  match s.x[i]?, s.y[i]?, s.z[i]? with
  | some x, some y, some z => some (sum + shade x y z)
  | _, _, _ => none

def systemRenderDop [FloatLits F] (s : ParticleSystemDop F) : Option F :=
  run (renderRound s) (List.range s.x.length) FloatLits.zero

/-! ## A column in the course of a loop -/

/-- The column `a` when the first `t` elements have been added to. -/
def column (dt : F) (a b : List F) (t : ℕ) : List F :=
  (List.zipWith (fun u w => u + w * dt) a b).take t ++ a.drop t

section
variable {dt : F} {a b : List F} {t : ℕ}

theorem column_length (hlen : a.length = b.length) :
    column dt a b a.length = List.zipWith (fun u w => u + w * dt) a b := by
  rw [column, List.drop_length, List.append_nil, List.take_of_length_le]
  rw [List.length_zipWith, hlen, min_self]

theorem addScaled_column (hlen : a.length = b.length) (ht : t < a.length) :
    addScaled dt (column dt a b t) b t = some (column dt a b (t + 1)) := by
  have htb : t < b.length := hlen ▸ ht
  have hzip : t < (List.zipWith (fun u w => u + w * dt) a b).length := by
    rw [List.length_zipWith]
    exact lt_min ht htb
  have htake : ((List.zipWith (fun u w => u + w * dt) a b).take t).length = t :=
    List.length_take_of_le hzip.le
  have hcolumn : column dt a b t =
      (List.zipWith (fun u w => u + w * dt) a b).take t ++ a[t] :: a.drop (t + 1) := by
    rw [column, List.drop_eq_getElem_cons ht]
  have hget : (column dt a b t)[t]? = some a[t] := by
    rw [hcolumn, List.getElem?_append_right htake.le, htake, Nat.sub_self, List.getElem?_cons_zero]
  have hlt : t < (column dt a b t).length := (List.getElem?_eq_some_iff.mp hget).1
  simp only [addScaled, hget, List.getElem?_eq_getElem htb]
  rw [assign_of_lt hlt, hcolumn, List.set_append_right _ _ htake.le, htake, Nat.sub_self,
    List.set_cons_zero, column, List.take_succ_eq_append_getElem hzip, List.getElem_zipWith,
    List.append_assoc]
  rfl

end

/-! ## The simulation -/

/-- The two systems hold the same positions, velocities and accelerations. -/
structure Same (particles : List (ParticleOop F)) (s : ParticleSystemDop F) : Prop where
  x : s.x = particles.map ParticleOop.x
  y : s.y = particles.map ParticleOop.y
  z : s.z = particles.map ParticleOop.z
  vx : s.vx = particles.map ParticleOop.vx
  vy : s.vy = particles.map ParticleOop.vy
  vz : s.vz = particles.map ParticleOop.vz
  ax : s.ax = particles.map ParticleOop.ax
  ay : s.ay = particles.map ParticleOop.ay
  az : s.az = particles.map ParticleOop.az

section
variable {dt : F} {particles : List (ParticleOop F)} {s : ParticleSystemDop F}

omit [Add F] [Mul F] in
theorem Same.length_x (h : Same particles s) : s.x.length = particles.length := by
  rw [h.x, List.length_map]

theorem column_map (f g : ParticleOop F → F) :
    column dt (particles.map f) (particles.map g) particles.length =
      particles.map fun p => f p + g p * dt := by
  have hcolumn : column dt (particles.map f) (particles.map g) (particles.map f).length = _ :=
    column_length (by simp)
  rwa [List.length_map, List.zipWith_map, List.zipWith_self] at hcolumn

theorem addScaled_map (f g : ParticleOop F → F) {t : ℕ} (ht : t < particles.length) :
    addScaled dt (column dt (particles.map f) (particles.map g) t) (particles.map g) t =
      some (column dt (particles.map f) (particles.map g) (t + 1)) :=
  addScaled_column (by simp) (by simpa using ht)

theorem velocity_run (h : Same particles s) :
    run (velocityRound dt) (List.range particles.length) s =
      some { s with
        vx := column dt s.vx s.ax particles.length
        vy := column dt s.vy s.ay particles.length
        vz := column dt s.vz s.az particles.length } := by
  refine run_range_eq (fun t => { s with
    vx := column dt s.vx s.ax t, vy := column dt s.vy s.ay t, vz := column dt s.vz s.az t }) ?_
  intro t ht
  simp only [velocityRound, h.vx, h.vy, h.vz, h.ax, h.ay, h.az, addScaled_map _ _ ht,
    Option.bind_some, Option.map_some]

theorem position_run (h : Same particles s) :
    run (positionRound dt) (List.range particles.length) s =
      some { s with
        x := column dt s.x s.vx particles.length
        y := column dt s.y s.vy particles.length
        z := column dt s.z s.vz particles.length } := by
  refine run_range_eq (fun t => { s with
    x := column dt s.x s.vx t, y := column dt s.y s.vy t, z := column dt s.z s.vz t }) ?_
  intro t ht
  simp only [positionRound, h.x, h.y, h.z, h.vx, h.vy, h.vz, addScaled_map _ _ ht,
    Option.bind_some, Option.map_some]

theorem Same.velocity (h : Same particles s) :
    ∃ s', systemIntegrateVelocityDop dt s = some s' ∧
      Same (systemIntegrateVelocityOop dt particles) s' := by
  refine ⟨_, (congrArg (fun n => run _ (List.range n) s) h.length_x).trans (velocity_run h), ?_⟩
  rw [systemIntegrateVelocityOop]
  constructor
  all_goals
    simp only [List.map_map, h.x, h.y, h.z, h.vx, h.vy, h.vz, h.ax, h.ay, h.az, column_map]
    rfl

theorem Same.position (h : Same particles s) :
    ∃ s', systemIntegratePositionDop dt s = some s' ∧
      Same (systemIntegratePositionOop dt particles) s' := by
  refine ⟨_, (congrArg (fun n => run _ (List.range n) s) h.length_x).trans (position_run h), ?_⟩
  rw [systemIntegratePositionOop]
  constructor
  all_goals
    simp only [List.map_map, h.x, h.y, h.z, h.vx, h.vy, h.vz, h.ax, h.ay, h.az, column_map]
    rfl

theorem Same.render [FloatLits F] (h : Same particles s) :
    systemRenderDop s = some (systemRenderOop particles) := by
  -- after `t` rounds, the sum over the first `t` particles
  have hrun : run (renderRound s) (List.range particles.length) FloatLits.zero =
      some (systemRenderOop (particles.take particles.length)) := by
    refine run_range_eq (fun t => systemRenderOop (particles.take t)) fun t ht => ?_
    rw [renderRound, h.x, h.y, h.z, List.take_succ_eq_append_getElem ht, systemRenderOop,
      systemRenderOop, List.foldl_concat]
    simp only [List.getElem?_map, List.getElem?_eq_getElem ht, Option.map_some]
  rwa [List.take_length, ← h.length_x] at hrun

end

/-! ## Any number of passes -/

/-- A pass over all particles. -/
inductive Pass where
  | velocity
  | position
deriving DecidableEq

def passOop (dt : F) (pass : Pass) (particles : List (ParticleOop F)) : List (ParticleOop F) :=
  match pass with
  | .velocity => systemIntegrateVelocityOop dt particles
  | .position => systemIntegratePositionOop dt particles

def passDop (dt : F) (pass : Pass) (s : ParticleSystemDop F) : Option (ParticleSystemDop F) :=
  match pass with
  | .velocity => systemIntegrateVelocityDop dt s
  | .position => systemIntegratePositionDop dt s

theorem Same.pass {dt : F} {particles : List (ParticleOop F)} {s : ParticleSystemDop F}
    (h : Same particles s) (pass : Pass) :
    ∃ s', passDop dt pass s = some s' ∧ Same (passOop dt pass particles) s' := by
  cases pass with
  | velocity => exact h.velocity
  | position => exact h.position

theorem Same.passes {dt : F} (passes : List Pass) :
    ∀ {particles : List (ParticleOop F)} {s : ParticleSystemDop F}, Same particles s →
      ∃ s', run (passDop dt) passes s = some s' ∧ Same (exec (passOop dt) passes particles) s' := by
  induction passes with
  | nil =>
      intro particles s h
      exact ⟨s, rfl, h⟩
  | cons pass passes ih =>
      intro particles s h
      obtain ⟨s₁, hpass, h₁⟩ : ∃ s₁, passDop dt pass s = some s₁ ∧ Same (passOop dt pass particles) s₁ :=
        h.pass pass
      obtain ⟨s', hrun, h'⟩ := ih h₁
      refine ⟨s', ?_, h'⟩
      rw [run, hpass]
      exact hrun

/-- **The two layouts agree**: systems that begin the same are the same after any passes, and
render the same sum. -/
theorem layouts_agree [FloatLits F] (dt : F) {particles : List (ParticleOop F)} {s : ParticleSystemDop F}
    (h : Same particles s) (passes : List Pass) :
    ∃ s', run (passDop dt) passes s = some s' ∧ Same (exec (passOop dt) passes particles) s' ∧
      systemRenderDop s' = some (systemRenderOop (exec (passOop dt) passes particles)) := by
  obtain ⟨s', hrun, hsame⟩ := h.passes passes
  exact ⟨s', hrun, hsame, hsame.render⟩

/-- Whole numbers, and the literals in tenths. -/
instance floatLitsInt : FloatLits ℤ := ⟨0, 1, 2, 3⟩

theorem layouts_agree_two :
    ∃ s', run (passDop 2) [.velocity, .position] ⟨[1, 4], [2, 5], [3, 6], [7, 7], [8, 8], [9, 9],
        [1, 2], [1, 2], [1, 2]⟩ = some s' ∧
      Same (exec (passOop (2 : ℤ)) [.velocity, .position]
        [⟨1, 2, 3, 7, 8, 9, 1, 1, 1⟩, ⟨4, 5, 6, 7, 8, 9, 2, 2, 2⟩]) s' ∧
      systemRenderDop s' = some (systemRenderOop (exec (passOop (2 : ℤ)) [.velocity, .position]
        [⟨1, 2, 3, 7, 8, 9, 1, 1, 1⟩, ⟨4, 5, 6, 7, 8, 9, 2, 2, 2⟩])) :=
  layouts_agree 2 ⟨rfl, rfl, rfl, rfl, rfl, rfl, rfl, rfl, rfl⟩ [.velocity, .position]

/-! ## The benchmark -/

variable [FloatLits F]

/-- The passes of `PHYSICS_STEPS` steps. -/
def physics (steps : ℕ) : List Pass := (List.replicate steps [.velocity, .position]).flatten

/-- `RENDER_STEPS` renderings, added up. -/
def checkSumOop (steps : ℕ) (particles : List (ParticleOop F)) : F :=
  (List.range steps).foldl (fun sum _ => sum + systemRenderOop particles) FloatLits.zero

def checkSumDop (steps : ℕ) (s : ParticleSystemDop F) : Option F :=
  run (fun _ sum => (systemRenderDop s).map fun r => sum + r) (List.range steps) FloatLits.zero

theorem Same.checkSum {particles : List (ParticleOop F)} {s : ParticleSystemDop F}
    (h : Same particles s) (steps : ℕ) :
    checkSumDop steps s = some (checkSumOop steps particles) := by
  refine run_range_eq (fun t => checkSumOop t particles) fun t _ => ?_
  rw [h.render, checkSumOop, checkSumOop, List.range_succ, List.foldl_concat]
  rfl

/-- **The check sums** that the benchmark prints are the same. -/
theorem checkSums_agree {dt : F} {particles : List (ParticleOop F)} {s : ParticleSystemDop F}
    (h : Same particles s) (physicsSteps renderSteps : ℕ) :
    ∃ s', run (passDop dt) (physics physicsSteps) s = some s' ∧
      checkSumDop renderSteps s' =
        some (checkSumOop renderSteps (exec (passOop dt) (physics physicsSteps) particles)) := by
  obtain ⟨s', hrun, hsame⟩ := h.passes (physics physicsSteps)
  exact ⟨s', hrun, hsame.checkSum renderSteps⟩

end LearnCpp.Microarchitecture.Particles
