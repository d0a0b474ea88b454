import Mathlib
import TfTree.Math.Rigid

/-!
# Screw motions about an axis

Over a commutative ring, a twist whose parts are orthogonal is an axis: a direction of any length,
and the moment of the line. `Twist.screw` is the motion about it that turns by an angle and slides
along it, given by the cosine and the scaled sine of half the angle and by the slide.

Results:
* `Twist.screw_mul`: motions about one axis compose as their angles and slides do.
* `Twist.conj_screw`: carrying a motion to another frame carries its axis, by `Iso3::adjoint`.
* `Twist.adjoint_screw`: a motion fixes the twists along its axis.
-/

namespace TfTree

variable {F : Type} [CommRing F] [Div F]

local instance : Scalar F := exactScalar F

namespace Vec3

@[simp] theorem scale_x (a : Vec3 F) (k : F) : (a.scale k).x = a.x * k := rfl
@[simp] theorem scale_y (a : Vec3 F) (k : F) : (a.scale k).y = a.y * k := rfl
@[simp] theorem scale_z (a : Vec3 F) (k : F) : (a.scale k).z = a.z * k := rfl
@[simp] theorem cross_x (a b : Vec3 F) : (a.cross b).x = a.y * b.z - a.z * b.y := rfl
@[simp] theorem cross_y (a b : Vec3 F) : (a.cross b).y = a.z * b.x - a.x * b.z := rfl
@[simp] theorem cross_z (a b : Vec3 F) : (a.cross b).z = a.x * b.y - a.y * b.x := rfl

/-- The inner product. -/
def inner (a b : Vec3 F) : F := a.x * b.x + a.y * b.y + a.z * b.z

theorem cross_scale (a b : Vec3 F) (k : F) : a.cross (b.scale k) = (a.cross b).scale k := by
  ext <;> simp <;> ring

end Vec3

theorem Vec3.add_scale (a b : Vec3 F) (k : F) : (a + b).scale k = a.scale k + b.scale k := by
  ext <;> simp [add_mul]

theorem Quat.rotate_scale (q : Quat F) (v : Vec3 F) (k : F) :
    q.rotate (v.scale k) = (q.rotate v).scale k := by
  ext <;> simp [rotate, Vec3.add, Vec3.scale, Vec3.cross] <;> ring

theorem Quat.rotate_sub (q : Quat F) (u v : Vec3 F) :
    q.rotate (u - v) = q.rotate u - q.rotate v := by
  rw [sub_eq_add_neg, rotate_add, rotate_neg, ← sub_eq_add_neg]

/-- A rotation keeps the inner product. -/
theorem Quat.UnitNorm.rotate_inner {q : Quat F} (h : q.UnitNorm) (u v : Vec3 F) :
    (q.rotate u).inner (q.rotate v) = u.inner v := by
  rw [h.rotate_eq, h.rotate_eq]
  unfold UnitNorm at h
  simp only [Vec3.inner, sandwich]
  linear_combination (u.x * v.x + u.y * v.y + u.z * v.z) *
    (q.w * q.w + q.x * q.x + q.y * q.y + q.z * q.z + 1) * h

namespace Twist

variable {x : Twist F} {c w p c' w' p' : F}

/-- The parts are orthogonal: the moment is that of a line. -/
def Line (x : Twist F) : Prop := x.omega.inner x.v = 0

/-- The squared length of the direction. -/
def lengthSq (x : Twist F) : F := x.omega.inner x.omega

/-- The motion about the axis: `c` is the cosine of half the angle, `w` its sine divided by the
    length of the direction, `p` half the slide with the sign of the source. -/
def screw (x : Twist F) (c w p : F) : Iso3 F :=
  ⟨⟨c, w * x.omega.x, w * x.omega.y, w * x.omega.z⟩,
    x.v.scale (2 * c * w) + (x.omega.cross x.v).scale (2 * (w * w)) - x.omega.scale (2 * p)⟩

theorem screw_q : (x.screw c w p).q = ⟨c, w * x.omega.x, w * x.omega.y, w * x.omega.z⟩ := rfl

theorem screw_t : (x.screw c w p).t =
    x.v.scale (2 * c * w) + (x.omega.cross x.v).scale (2 * (w * w)) - x.omega.scale (2 * p) := rfl

theorem screw_unitNorm (h : c * c + w * w * x.lengthSq = 1) : (x.screw c w p).q.UnitNorm := by
  simp only [Quat.UnitNorm, screw_q]
  unfold lengthSq Vec3.inner at h
  linear_combination h

/-- No motion. -/
theorem screw_one (x : Twist F) : x.screw 1 0 0 = 1 := by
  apply Iso3.ext
  · ext <;> simp [screw, Rigid.one_q, Quat.identity]
  · ext <;> simp [screw, Rigid.one_t]

/-! ## The frame of an axis -/

theorem rotate_screw (u : Vec3 F) : (x.screw c w p).q.rotate u =
    u + (x.omega.cross u).scale (2 * c * w) +
      (x.omega.cross (x.omega.cross u)).scale (2 * (w * w)) := by
  ext <;> simp [screw_q, Quat.rotate, Vec3.add, Vec3.scale, Vec3.cross, Quat.vector] <;> ring

/-- The direction stays. -/
theorem rotate_omega : (x.screw c w p).q.rotate x.omega = x.omega := by
  rw [rotate_screw]
  ext <;> simp <;> ring

/-- Across the direction and the moment. -/
theorem cross_cross (hx : x.Line) :
    x.omega.cross (x.omega.cross x.v) = x.v.scale (-x.lengthSq) := by
  unfold Line Vec3.inner at hx
  ext
  · simp [lengthSq, Vec3.inner]
    linear_combination x.omega.x * hx
  · simp [lengthSq, Vec3.inner]
    linear_combination x.omega.y * hx
  · simp [lengthSq, Vec3.inner]
    linear_combination x.omega.z * hx

theorem rotate_v (hx : x.Line) : (x.screw c w p).q.rotate x.v =
    x.v.scale (1 - 2 * (w * w) * x.lengthSq) + (x.omega.cross x.v).scale (2 * c * w) := by
  rw [rotate_screw, cross_cross hx]
  ext <;> simp <;> ring

theorem rotate_cross (hx : x.Line) : (x.screw c w p).q.rotate (x.omega.cross x.v) =
    (x.omega.cross x.v).scale (1 - 2 * (w * w) * x.lengthSq) -
      x.v.scale (2 * c * w * x.lengthSq) := by
  rw [rotate_screw, cross_cross hx, Vec3.cross_scale]
  ext <;> simp <;> ring

/-! ## Composition -/

/-- Motions about one axis compose. -/
theorem screw_mul (hx : x.Line) (h : c * c + w * w * x.lengthSq = 1)
    (h' : c' * c' + w' * w' * x.lengthSq = 1) :
    x.screw c w p * x.screw c' w' p' =
      x.screw (c * c' - w * w' * x.lengthSq) (c * w' + w * c') (p + p') := by
  apply Iso3.ext
  · show (x.screw c w p).q * (x.screw c' w' p').q = _
    ext <;> simp [screw_q, lengthSq, Vec3.inner] <;> ring
  · show (x.screw c w p).t + (x.screw c w p).q.rotate (x.screw c' w' p').t = _
    rw [screw_t, screw_t, screw_t, Quat.rotate_sub, Quat.rotate_add, Quat.rotate_scale,
      Quat.rotate_scale, Quat.rotate_scale, rotate_omega, rotate_v hx, rotate_cross hx]
    ext
    · simp
      linear_combination
        (-2 * c' * w' * x.v.x - 2 * w' * w' * (x.omega.y * x.v.z - x.omega.z * x.v.y)) * h +
          (-2 * c * w * x.v.x - 2 * w * w * (x.omega.y * x.v.z - x.omega.z * x.v.y)) * h'
    · simp
      linear_combination
        (-2 * c' * w' * x.v.y - 2 * w' * w' * (x.omega.z * x.v.x - x.omega.x * x.v.z)) * h +
          (-2 * c * w * x.v.y - 2 * w * w * (x.omega.z * x.v.x - x.omega.x * x.v.z)) * h'
    · simp
      linear_combination
        (-2 * c' * w' * x.v.z - 2 * w' * w' * (x.omega.x * x.v.y - x.omega.y * x.v.x)) * h +
          (-2 * c * w * x.v.z - 2 * w * w * (x.omega.x * x.v.y - x.omega.y * x.v.x)) * h'

/-! ## Other frames -/

theorem smul_lengthSq (g : Rigid F) (x : Twist F) : (g • x).lengthSq = x.lengthSq :=
  g.2.rotate_inner x.omega x.omega

theorem Line.smul (hx : x.Line) (g : Rigid F) : (g • x).Line := by
  have hrot := g.2.rotate_inner x.omega x.v
  rw [show x.omega.inner x.v = 0 from hx] at hrot
  unfold Line
  rw [Rigid.smul_v, Rigid.smul_omega]
  generalize g.1.q.rotate x.omega = u at hrot ⊢
  unfold Vec3.inner at hrot ⊢
  simp
  linear_combination hrot

/-- Turning the axis of a rotation. -/
theorem conj_turn {q : Quat F} (h : q.UnitNorm) (v : Vec3 F) (c w : F) :
    q * ⟨c, w * v.x, w * v.y, w * v.z⟩ * q.conjugate =
      ⟨c, w * (q.rotate v).x, w * (q.rotate v).y, w * (q.rotate v).z⟩ := by
  rw [h.rotate_eq]
  unfold Quat.UnitNorm at h
  ext
  · simp only [Quat.mul_w, Quat.mul_x, Quat.mul_y, Quat.mul_z, Quat.conjugate]
    linear_combination c * h
  all_goals
    simp only [Quat.mul_w, Quat.mul_x, Quat.mul_y, Quat.mul_z, Quat.conjugate, Quat.sandwich]
    ring

/-- Carrying a motion to another frame carries its axis. -/
theorem conj_screw (g : Rigid F) (h : c * c + w * w * x.lengthSq = 1) :
    g.1 * x.screw c w p * g.1⁻¹ = (g • x).screw c w p := by
  have hq : g.1.q * (x.screw c w p).q * g.1.q.conjugate = ((g • x).screw c w p).q :=
    conj_turn g.2 x.omega c w
  let m : Rigid F := ⟨x.screw c w p, screw_unitNorm h⟩
  show (g * m * g⁻¹).1 = _
  apply Iso3.ext
  · exact hq
  · have hback : (g * m).1.q.rotate (g⁻¹).1.t = -((g • x).screw c w p).q.rotate g.1.t := by
      rw [Rigid.inv_t, Quat.rotate_neg, ← (g * m).2.rotate_mul g.2.conjugate, ← hq]
      rfl
    have hfront : g.1.q.rotate m.1.t = (g.1.q.rotate x.v).scale (2 * c * w) +
        ((g • x).omega.cross (g.1.q.rotate x.v)).scale (2 * (w * w)) -
        (g • x).omega.scale (2 * p) := by
      show g.1.q.rotate (x.screw c w p).t = _
      rw [screw_t, Quat.rotate_sub, Quat.rotate_add, Quat.rotate_scale, Quat.rotate_scale,
        Quat.rotate_scale, g.2.rotate_cross, Rigid.smul_omega]
    rw [Rigid.mul_t, Rigid.mul_t, hback, hfront, rotate_screw, screw_t, Rigid.smul_v,
      ← Rigid.smul_omega]
    ext <;> simp <;> ring

/-- A motion fixes the twists along its axis. -/
theorem adjoint_screw (x : Twist F) (c w p a b : F) :
    (x.screw c w p).adjoint ⟨x.omega.scale a, x.v.scale a - x.omega.scale b⟩ =
      ⟨x.omega.scale a, x.v.scale a - x.omega.scale b⟩ := by
  have hmoment : (x.screw c w p).t.cross x.omega + (x.screw c w p).q.rotate x.v = x.v := by
    rw [rotate_screw, screw_t]
    ext <;> simp <;> ring
  apply Twist.ext
  · show (x.screw c w p).q.rotate (x.omega.scale a) = _
    rw [Quat.rotate_scale, rotate_omega]
  · show (x.screw c w p).t.cross ((x.screw c w p).q.rotate (x.omega.scale a)) +
      (x.screw c w p).q.rotate (x.v.scale a - x.omega.scale b) = _
    rw [Quat.rotate_sub, Quat.rotate_scale, Quat.rotate_scale, Quat.rotate_scale, rotate_omega,
      Vec3.cross_scale, ← add_sub_assoc, ← Vec3.add_scale, hmoment]

end Twist

end TfTree
