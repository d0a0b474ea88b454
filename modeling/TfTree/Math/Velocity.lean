import Mathlib
import TfTree.Data.Motion
import TfTree.Math.Rigid

/-!
# Body twists as derivatives

Over the dual numbers, with `ε² = 0`, a pose that moves is a pose: the pose, then the
infinitesimal motion of its twist. This is what a body twist of a pose means, without
limits.

Results:
* `Rigid.turn_mul`: carrying an infinitesimal motion through a pose is `Iso3::adjoint`.
* `Rigid.moved`: the motions are a group of poses over the dual numbers.
* `Rigid.moved_injective`: the moved pose determines the pose and its twist.
-/

namespace TfTree

open DualNumber Data

/-! ## Change of scalars -/

section Map

variable {F K : Type} [CommRing F] [Div F] [CommRing K] [Div K]

local instance {F : Type} [CommRing F] [Div F] : Scalar F := exactScalar F

/-- The vector over other scalars. -/
def Vec3.map (f : F →+* K) (a : Vec3 F) : Vec3 K := ⟨f a.x, f a.y, f a.z⟩

/-- The quaternion over other scalars. -/
def Quat.map (f : F →+* K) (q : Quat F) : Quat K := ⟨f q.w, f q.x, f q.y, f q.z⟩

theorem Vec3.add_map (f : F →+* K) (a b : Vec3 F) : (a + b).map f = a.map f + b.map f := by
  ext <;> simp [Vec3.map]

theorem Quat.mul_map (f : F →+* K) (a b : Quat F) : (a * b).map f = a.map f * b.map f := by
  ext <;> simp [Quat.map]

theorem Quat.rotate_map (f : F →+* K) (q : Quat F) (v : Vec3 F) :
    (q.rotate v).map f = (q.map f).rotate (v.map f) := by
  have h2 : f ((2 : ℕ) : F) = ((2 : ℕ) : K) := map_natCast f 2
  ext <;> simp only [Vec3.map, Quat.map, Quat.rotate, Vec3.cross, Vec3.scale, Vec3.add,
    Quat.vector, map_add, map_sub, map_mul, h2]

theorem Quat.UnitNorm.map {q : Quat F} (h : q.UnitNorm) (f : F →+* K) : (q.map f).UnitNorm := by
  have := congrArg f h
  simpa [Quat.UnitNorm, Quat.map] using this

/-- The pose over other scalars. -/
def Iso3.map (f : F →+* K) (p : Iso3 F) : Iso3 K := ⟨p.q.map f, p.t.map f⟩

/-- The unit pose over other scalars. -/
def Rigid.map (f : F →+* K) : Rigid F →* Rigid K where
  toFun p := ⟨p.1.map f, p.2.map f⟩
  map_one' := by
    apply Subtype.ext
    apply Iso3.ext
    · show Quat.map f Quat.identity = Quat.identity
      ext <;> simp [Quat.map, Quat.identity]
    · show Vec3.map f 0 = 0
      ext <;> simp [Vec3.map]
  map_mul' a b := by
    apply Subtype.ext
    apply Iso3.ext
    · exact Quat.mul_map ..
    · show Vec3.map f (a.1.t + a.1.q.rotate b.1.t) = _
      rw [Vec3.add_map, Quat.rotate_map]
      rfl

end Map

/-! ## Infinitesimal motions -/

/-- Division of dual numbers. -/
@[reducible] noncomputable def dualDiv (F : Type) [Field F] : Div F[ε] := ⟨fun a b => a * b⁻¹⟩

section Turn

variable {F : Type} [Field F]

noncomputable local instance divDual : Div F[ε] := dualDiv F

local instance {F : Type} [CommRing F] [Div F] : Scalar F := exactScalar F

open TrivSqZeroExt

/-- The rotation at the rate `a` for the time `ε`. -/
def spin (a : Vec3 F) : Quat F[ε] := ⟨1, inr (a.x / 2), inr (a.y / 2), inr (a.z / 2)⟩

/-- The displacement at the rate `v` for the time `ε`. -/
def drift (v : Vec3 F) : Vec3 F[ε] := ⟨inr v.x, inr v.y, inr v.z⟩

theorem spin_unitNorm (a : Vec3 F) : (spin a).UnitNorm := by
  simp [Quat.UnitNorm, spin]

theorem spin_zero : spin (0 : Vec3 F) = Quat.identity := by
  ext <;> simp [spin, Quat.identity]

theorem drift_zero : drift (0 : Vec3 F) = 0 := by
  ext <;> simp [drift]

theorem spin_mul (a b : Vec3 F) : spin a * spin b = spin (a + b) := by
  ext <;> simp [spin, add_div, add_comm]

theorem drift_add (u v : Vec3 F) : drift (u + v) = drift u + drift v := by
  ext <;> simp [drift]

theorem drift_neg (u : Vec3 F) : drift (-u) = -drift u := by
  ext <;> simp [drift]

theorem spin_rotate_drift (a v : Vec3 F) : (spin a).rotate (drift v) = drift v := by
  ext <;> simp [spin, drift, Quat.rotate, Vec3.cross, Vec3.scale, Vec3.add, Quat.vector]

theorem drift_injective : Function.Injective (drift (F := F)) := by
  intro u v h
  exact Vec3.ext (inr_injective (congrArg Vec3.x h)) (inr_injective (congrArg Vec3.y h))
    (inr_injective (congrArg Vec3.z h))

theorem fst_two : fst (2 : F[ε]) = 2 := fst_natCast 2

theorem map_rotate_drift (q : Quat F) (v : Vec3 F) :
    (q.map (inlHom F F)).rotate (drift v) = drift (q.rotate v) := by
  ext <;> simp [drift, Quat.rotate, Vec3.cross, Vec3.scale, Vec3.add, Quat.vector, Quat.map,
    fst_two]
  all_goals ring

variable [NeZero (2 : F)]

theorem spin_injective : Function.Injective (spin (F := F)) := by
  intro a b h
  have h2 : (2 : F) ≠ 0 := two_ne_zero
  exact Vec3.ext ((div_left_inj' h2).mp (inr_injective (congrArg Quat.x h)))
    ((div_left_inj' h2).mp (inr_injective (congrArg Quat.y h)))
    ((div_left_inj' h2).mp (inr_injective (congrArg Quat.z h)))

/-- A point under an infinitesimal rotation. -/
theorem spin_rotate_map (a t : Vec3 F) :
    (spin a).rotate (t.map (inlHom F F)) = t.map (inlHom F F) + drift (a.cross t) := by
  have h2 : (2 : F) ≠ 0 := two_ne_zero
  ext <;> simp [spin, drift, Quat.rotate, Vec3.cross, Vec3.scale, Vec3.add, Quat.vector, Vec3.map,
    fst_two]
  all_goals field_simp

/-- An infinitesimal rotation passes through a rotation. -/
theorem spin_pass {q : Quat F} (h : q.UnitNorm) (a : Vec3 F) :
    spin (q.rotate a) * q.map (inlHom F F) = q.map (inlHom F F) * spin a := by
  have h2 : (2 : F) ≠ 0 := two_ne_zero
  rw [h.rotate_eq]
  unfold Quat.UnitNorm at h
  ext <;> simp [spin, Quat.sandwich, Quat.map]
  · field_simp
    linear_combination (-(a.x * q.x) - a.y * q.y - a.z * q.z) * h
  · field_simp
    linear_combination (q.w * a.x + q.y * a.z - q.z * a.y) * h
  · field_simp
    linear_combination (q.w * a.y - q.x * a.z + q.z * a.x) * h
  · field_simp
    linear_combination (q.w * a.z + q.x * a.y - q.y * a.x) * h

/-! ## Motions as poses over the dual numbers -/

namespace Rigid

/-- `exp (ε V)`: the motion along a twist for the time `ε`. -/
def exp : Multiplicative (Twist F) →* Rigid F[ε] where
  toFun w := ⟨⟨spin w.toAdd.omega, drift w.toAdd.v⟩, spin_unitNorm _⟩
  map_one' := by
    apply Subtype.ext
    apply Iso3.ext
    · exact spin_zero
    · exact drift_zero
  map_mul' a b := by
    apply Subtype.ext
    apply Iso3.ext
    · exact (spin_mul ..).symm
    · rw [mul_t, spin_rotate_drift]
      exact drift_add ..

/-- An infinitesimal motion passes through a pose by the adjoint. -/
theorem exp_pass (a : Rigid F) (w : Twist F) :
    exp (.ofAdd (a • w)) * a.map (inlHom F F) = a.map (inlHom F F) * exp (.ofAdd w) := by
  apply Subtype.ext
  apply Iso3.ext
  · exact spin_pass a.2 w.omega
  · show drift (a • w).v + (spin (a.1.q.rotate w.omega)).rotate (a.1.t.map _) =
      a.1.t.map _ + (a.1.q.map _).rotate (drift w.v)
    rw [spin_rotate_map, map_rotate_drift, smul_v, drift_add,
      Vec3.cross_swap (a.1.q.rotate w.omega), drift_neg]
    abel

/-- A pose that moves, as a pose over the dual numbers: `T · exp (ε V)`. -/
noncomputable def moved : Motion (Rigid F) (Twist F) →* Rigid F[ε] :=
  Motion.lift (map (inlHom F F)) exp fun g w => by rw [← exp_pass, smul_inv_smul]

/-- A pose that does not move. -/
theorem moved_still (a : Rigid F) : moved (Motion.still _ a) = map (inlHom F F) a := by
  show map (inlHom F F) a * exp 1 = _
  rw [map_one, mul_one]

/-- The part of a moved pose without `ε` is the pose. -/
theorem map_fst_moved (a : Motion (Rigid F) (Twist F)) :
    map (fstHom F F F : F[ε] →+* F) (moved a) = a.pose := by
  have hpose : map (fstHom F F F : F[ε] →+* F) (map (inlHom F F) a.pose) = a.pose := rfl
  have hexp : map (fstHom F F F : F[ε] →+* F) (exp (.ofAdd a.rate)) = 1 := by
    apply Subtype.ext
    apply Iso3.ext
    · ext <;> simp [map, Iso3.map, Quat.map, exp, spin, one_q, Quat.identity]
    · ext <;> simp [map, Iso3.map, Vec3.map, exp, drift, one_t]
  show map _ (map _ a.pose * exp _) = a.pose
  rw [map_mul, hpose, hexp, mul_one]

theorem exp_injective : Function.Injective (exp (F := F)) := by
  intro a b h
  have hq : spin a.toAdd.omega = spin b.toAdd.omega := congrArg (·.1.q) h
  have ht : drift a.toAdd.v = drift b.toAdd.v := congrArg (·.1.t) h
  exact Twist.ext (spin_injective hq) (drift_injective ht)

/-- The moved pose determines the pose and the twist. -/
theorem moved_injective : Function.Injective (moved : Motion (Rigid F) (Twist F) → Rigid F[ε]) := by
  intro a b h
  have hpose : a.pose = b.pose := by rw [← map_fst_moved a, h, map_fst_moved]
  have hexp : map (inlHom F F) a.pose * exp (.ofAdd a.rate) =
      map (inlHom F F) b.pose * exp (.ofAdd b.rate) := h
  rw [hpose] at hexp
  have hrate : Multiplicative.ofAdd a.rate = .ofAdd b.rate :=
    exp_injective (mul_left_cancel hexp)
  exact Motion.ext hpose hrate

end Rigid

end Turn

end TfTree
