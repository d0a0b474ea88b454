import Mathlib
import TfTree.Math.Iso3

/-!
# Rigid motions over exact arithmetic

The operations of `tf_tree_math` (`quat.rs`, `iso3.rs`, `twist.rs`) where the scalars are a
commutative ring and the quaternions have norm 1.

Results:
* `Quat.UnitNorm.rotate_mul`, `Quat.UnitNorm.rotate_cross`: a unit quaternion acts as a rotation.
* `Rigid`: the unit poses, a group under the operations of the source.
* `Rigid.instAction`: `Iso3::adjoint` is its action on the twists.
* `Rigid.adjointInv_eq`: `Iso3::adjoint_inv` is the action of the inverse.
-/

namespace TfTree

/-- Exact arithmetic: the operations of a ring. -/
@[reducible] def exactScalar (F : Type) [CommRing F] [Div F] : Scalar F where

variable {F : Type} [CommRing F] [Div F]

local instance : Scalar F := exactScalar F

/-! ## Vectors -/

namespace Vec3

attribute [ext] Vec3

instance : Add (Vec3 F) := ⟨add⟩
instance : Sub (Vec3 F) := ⟨sub⟩
instance : Zero (Vec3 F) := ⟨zero⟩
instance : Neg (Vec3 F) := ⟨fun a => a.scale (-1)⟩

@[simp] theorem add_x (a b : Vec3 F) : (a + b).x = a.x + b.x := rfl
@[simp] theorem add_y (a b : Vec3 F) : (a + b).y = a.y + b.y := rfl
@[simp] theorem add_z (a b : Vec3 F) : (a + b).z = a.z + b.z := rfl
@[simp] theorem sub_x (a b : Vec3 F) : (a - b).x = a.x - b.x := rfl
@[simp] theorem sub_y (a b : Vec3 F) : (a - b).y = a.y - b.y := rfl
@[simp] theorem sub_z (a b : Vec3 F) : (a - b).z = a.z - b.z := rfl
@[simp] theorem zero_x : (0 : Vec3 F).x = 0 := rfl
@[simp] theorem zero_y : (0 : Vec3 F).y = 0 := rfl
@[simp] theorem zero_z : (0 : Vec3 F).z = 0 := rfl
@[simp] theorem neg_x (a : Vec3 F) : (-a).x = -a.x := mul_neg_one _
@[simp] theorem neg_y (a : Vec3 F) : (-a).y = -a.y := mul_neg_one _
@[simp] theorem neg_z (a : Vec3 F) : (-a).z = -a.z := mul_neg_one _

instance : AddCommGroup (Vec3 F) where
  add_assoc a b c := by ext <;> simp [add_assoc]
  zero_add a := by ext <;> simp
  add_zero a := by ext <;> simp
  add_comm a b := by ext <;> simp [add_comm]
  neg_add_cancel a := by ext <;> simp
  sub_eq_add_neg a b := by ext <;> simp [sub_eq_add_neg]
  nsmul := nsmulRec
  zsmul := zsmulRec

theorem cross_add (a b c : Vec3 F) : a.cross (b + c) = a.cross b + a.cross c := by
  ext <;> simp [cross] <;> ring

theorem add_cross (a b c : Vec3 F) : (a + b).cross c = a.cross c + b.cross c := by
  ext <;> simp [cross] <;> ring

theorem cross_zero (a : Vec3 F) : a.cross 0 = 0 := by
  ext <;> simp [cross]

theorem zero_cross (a : Vec3 F) : Vec3.cross 0 a = 0 := by
  ext <;> simp [cross]

theorem cross_swap (a b : Vec3 F) : a.cross b = -b.cross a := by
  ext <;> simp [cross, mul_comm]

theorem neg_cross (a b : Vec3 F) : (-a).cross b = -a.cross b := by
  ext <;> simp [cross] <;> ring

end Vec3

/-! ## Rotations -/

namespace Quat

attribute [ext] Quat

/-- A quaternion of norm 1. -/
def UnitNorm (q : Quat F) : Prop := q.w * q.w + q.x * q.x + q.y * q.y + q.z * q.z = 1

/-- The rotation `q v q*`, homogeneous in the quaternion. -/
def sandwich (q : Quat F) (v : Vec3 F) : Vec3 F :=
  ⟨(q.w * q.w + q.x * q.x - q.y * q.y - q.z * q.z) * v.x +
      2 * (q.x * q.y - q.w * q.z) * v.y + 2 * (q.x * q.z + q.w * q.y) * v.z,
    2 * (q.x * q.y + q.w * q.z) * v.x +
      (q.w * q.w - q.x * q.x + q.y * q.y - q.z * q.z) * v.y + 2 * (q.y * q.z - q.w * q.x) * v.z,
    2 * (q.x * q.z - q.w * q.y) * v.x + 2 * (q.y * q.z + q.w * q.x) * v.y +
      (q.w * q.w - q.x * q.x - q.y * q.y + q.z * q.z) * v.z⟩

@[simp] theorem mul_w (a b : Quat F) :
    (a * b).w = a.w * b.w - a.x * b.x - a.y * b.y - a.z * b.z := rfl

@[simp] theorem mul_x (a b : Quat F) :
    (a * b).x = a.w * b.x + a.x * b.w + a.y * b.z - a.z * b.y := rfl

@[simp] theorem mul_y (a b : Quat F) :
    (a * b).y = a.w * b.y - a.x * b.z + a.y * b.w + a.z * b.x := rfl

@[simp] theorem mul_z (a b : Quat F) :
    (a * b).z = a.w * b.z + a.x * b.y - a.y * b.x + a.z * b.w := rfl

protected theorem mul_assoc (a b c : Quat F) : a * b * c = a * (b * c) := by
  ext <;> simp only [mul_w, mul_x, mul_y, mul_z] <;> ring

theorem identity_mul (q : Quat F) : identity * q = q := by
  ext <;> simp [identity]

theorem mul_identity (q : Quat F) : q * identity = q := by
  ext <;> simp [identity]

theorem conjugate_conjugate (q : Quat F) : q.conjugate.conjugate = q := by
  ext <;> simp [conjugate]

theorem rotate_add (q : Quat F) (u v : Vec3 F) : q.rotate (u + v) = q.rotate u + q.rotate v := by
  ext <;> simp [rotate, Vec3.add, Vec3.scale, Vec3.cross] <;> ring

theorem rotate_neg (q : Quat F) (v : Vec3 F) : q.rotate (-v) = -q.rotate v := by
  ext <;> simp [rotate, Vec3.add, Vec3.scale, Vec3.cross] <;> ring

theorem rotate_zero (q : Quat F) : q.rotate 0 = 0 := by
  ext <;> simp [rotate, Vec3.add, Vec3.scale, Vec3.cross]

theorem rotate_identity (v : Vec3 F) : (identity : Quat F).rotate v = v := by
  ext <;> simp [rotate, identity, vector, Vec3.add, Vec3.scale, Vec3.cross]

namespace UnitNorm

variable {a b q : Quat F}

/-- For a unit quaternion the two forms of the rotation agree. -/
theorem rotate_eq (h : q.UnitNorm) (v : Vec3 F) : q.rotate v = q.sandwich v := by
  unfold UnitNorm at h
  ext
  · simp only [rotate, sandwich, Vec3.add, Vec3.scale, Vec3.cross, vector]
    push_cast
    linear_combination -v.x * h
  · simp only [rotate, sandwich, Vec3.add, Vec3.scale, Vec3.cross, vector]
    push_cast
    linear_combination -v.y * h
  · simp only [rotate, sandwich, Vec3.add, Vec3.scale, Vec3.cross, vector]
    push_cast
    linear_combination -v.z * h

theorem identity : (Quat.identity : Quat F).UnitNorm := by simp [UnitNorm, Quat.identity]

theorem conjugate (h : q.UnitNorm) : q.conjugate.UnitNorm := by
  simpa [UnitNorm, Quat.conjugate] using h

theorem mul (ha : a.UnitNorm) (hb : b.UnitNorm) : (a * b).UnitNorm := by
  unfold UnitNorm at *
  simp only [mul_w, mul_x, mul_y, mul_z]
  linear_combination (b.w * b.w + b.x * b.x + b.y * b.y + b.z * b.z) * ha + hb

theorem mul_conjugate (h : q.UnitNorm) : q * q.conjugate = Quat.identity := by
  unfold UnitNorm at h
  ext
  · simp only [mul_w, Quat.conjugate, Quat.identity]
    linear_combination h
  · simp only [mul_x, Quat.conjugate, Quat.identity]
    ring
  · simp only [mul_y, Quat.conjugate, Quat.identity]
    ring
  · simp only [mul_z, Quat.conjugate, Quat.identity]
    ring

theorem conjugate_mul (h : q.UnitNorm) : q.conjugate * q = Quat.identity := by
  have := h.conjugate.mul_conjugate
  rwa [conjugate_conjugate] at this

/-- Rotations compose. -/
theorem rotate_mul (ha : a.UnitNorm) (hb : b.UnitNorm) (v : Vec3 F) :
    (a * b).rotate v = a.rotate (b.rotate v) := by
  rw [(ha.mul hb).rotate_eq, ha.rotate_eq, hb.rotate_eq]
  ext <;> simp only [sandwich, mul_w, mul_x, mul_y, mul_z] <;> ring

/-- A rotation keeps the cross product. -/
theorem rotate_cross (h : q.UnitNorm) (u v : Vec3 F) :
    q.rotate (u.cross v) = (q.rotate u).cross (q.rotate v) := by
  have hnorm : (q.sandwich u).cross (q.sandwich v) =
      (q.sandwich (u.cross v)).scale (q.w * q.w + q.x * q.x + q.y * q.y + q.z * q.z) := by
    ext <;> simp only [sandwich, Vec3.cross, Vec3.scale] <;> ring
  rw [h.rotate_eq, h.rotate_eq, h.rotate_eq, hnorm, h]
  ext <;> simp [Vec3.scale]

end UnitNorm

end Quat

/-! ## Rigid motions -/

attribute [ext] Iso3

attribute [ext] Twist

/-- The poses whose quaternion has norm 1. -/
abbrev Rigid (F : Type) [CommRing F] [Div F] := {p : Iso3 F // p.q.UnitNorm}

namespace Rigid

instance : Mul (Rigid F) := ⟨fun a b => ⟨a.1 * b.1, a.2.mul b.2⟩⟩
instance : One (Rigid F) := ⟨⟨1, .identity⟩⟩
instance : Inv (Rigid F) := ⟨fun a => ⟨a.1⁻¹, a.2.conjugate⟩⟩
instance : Div (Rigid F) := ⟨fun a b => ⟨a.1 / b.1, a.2.mul b.2.conjugate⟩⟩

@[simp] theorem coe_mul (a b : Rigid F) : (a * b).1 = a.1 * b.1 := rfl
@[simp] theorem coe_one : (1 : Rigid F).1 = 1 := rfl
@[simp] theorem coe_inv (a : Rigid F) : (a⁻¹).1 = a.1⁻¹ := rfl
@[simp] theorem coe_div (a b : Rigid F) : (a / b).1 = a.1 / b.1 := rfl

theorem one_q : (1 : Iso3 F).q = Quat.identity := rfl

theorem one_t : (1 : Iso3 F).t = 0 := rfl

theorem mul_q (a b : Rigid F) : (a * b).1.q = a.1.q * b.1.q := rfl

theorem mul_t (a b : Rigid F) : (a * b).1.t = a.1.t + a.1.q.rotate b.1.t := rfl

theorem inv_q (a : Rigid F) : (a⁻¹).1.q = a.1.q.conjugate := rfl

theorem inv_t (a : Rigid F) : (a⁻¹).1.t = -a.1.q.conjugate.rotate a.1.t := rfl

instance instGroup : Group (Rigid F) where
  mul_assoc a b c := by
    apply Subtype.ext
    apply Iso3.ext
    · exact Quat.mul_assoc ..
    · rw [mul_t, mul_t, mul_t, mul_t, mul_q, a.2.rotate_mul b.2, Quat.rotate_add, add_assoc]
  one_mul a := by
    apply Subtype.ext
    apply Iso3.ext
    · exact Quat.identity_mul _
    · exact (zero_add _).trans (Quat.rotate_identity _)
  mul_one a := by
    apply Subtype.ext
    apply Iso3.ext
    · exact Quat.mul_identity _
    · rw [mul_t]
      show a.1.t + a.1.q.rotate 0 = a.1.t
      rw [Quat.rotate_zero, add_zero]
  inv_mul_cancel a := by
    apply Subtype.ext
    apply Iso3.ext
    · exact a.2.conjugate_mul
    · rw [mul_t, inv_t, inv_q]
      exact neg_add_cancel _
  div_eq_mul_inv a b := by
    apply Subtype.ext
    apply Iso3.ext
    · rfl
    · rw [mul_t, inv_t, Quat.rotate_neg, ← a.2.rotate_mul b.2.conjugate, ← sub_eq_add_neg]
      rfl

end Rigid

/-! ## Twists -/

namespace Twist

instance : Add (Twist F) := ⟨add⟩
instance : Sub (Twist F) := ⟨sub⟩
instance : Zero (Twist F) := ⟨zero⟩
instance : Neg (Twist F) := ⟨fun a => a.scale (-1)⟩

@[simp] theorem add_omega (a b : Twist F) : (a + b).omega = a.omega + b.omega := rfl
@[simp] theorem add_v (a b : Twist F) : (a + b).v = a.v + b.v := rfl
@[simp] theorem sub_omega (a b : Twist F) : (a - b).omega = a.omega - b.omega := rfl
@[simp] theorem sub_v (a b : Twist F) : (a - b).v = a.v - b.v := rfl
@[simp] theorem zero_omega : (0 : Twist F).omega = 0 := rfl
@[simp] theorem zero_v : (0 : Twist F).v = 0 := rfl
@[simp] theorem neg_omega (a : Twist F) : (-a).omega = -a.omega := rfl
@[simp] theorem neg_v (a : Twist F) : (-a).v = -a.v := rfl

instance : AddCommGroup (Twist F) where
  add_assoc a b c := by apply Twist.ext <;> simp [add_assoc]
  zero_add a := by apply Twist.ext <;> simp
  add_zero a := by apply Twist.ext <;> simp
  add_comm a b := by apply Twist.ext <;> simp [add_comm]
  neg_add_cancel a := by apply Twist.ext <;> simp
  sub_eq_add_neg a b := by apply Twist.ext <;> simp [sub_eq_add_neg]
  nsmul := nsmulRec
  zsmul := zsmulRec

end Twist

namespace Rigid

/-- `Ad(T)` of the source. -/
instance : SMul (Rigid F) (Twist F) := ⟨fun a x => a.1.adjoint x⟩

theorem smul_omega (a : Rigid F) (x : Twist F) : (a • x).omega = a.1.q.rotate x.omega := rfl

theorem smul_v (a : Rigid F) (x : Twist F) :
    (a • x).v = a.1.t.cross (a.1.q.rotate x.omega) + a.1.q.rotate x.v := rfl

/-- `Iso3::adjoint` is an action of the unit poses on the twists. -/
instance instAction : DistribMulAction (Rigid F) (Twist F) where
  one_smul x := by
    apply Twist.ext
    · exact Quat.rotate_identity _
    · rw [smul_v]
      show Vec3.cross 0 _ + Quat.identity.rotate x.v = x.v
      rw [Quat.rotate_identity, Vec3.zero_cross, zero_add]
  mul_smul a b x := by
    apply Twist.ext
    · exact a.2.rotate_mul b.2 _
    · simp only [smul_v, smul_omega, mul_t, mul_q, a.2.rotate_mul b.2, Vec3.add_cross,
        Quat.rotate_add, a.2.rotate_cross, add_assoc]
  smul_zero a := by
    apply Twist.ext
    · exact Quat.rotate_zero _
    · rw [smul_v, Twist.zero_omega, Twist.zero_v, Quat.rotate_zero, Vec3.cross_zero, add_zero]
  smul_add a x y := by
    apply Twist.ext
    · exact Quat.rotate_add ..
    · simp only [smul_v, Twist.add_v, Twist.add_omega, Quat.rotate_add,
        Vec3.cross_add]
      exact add_add_add_comm ..

/-- `Iso3::adjoint_inv` is the action of the inverse. -/
theorem adjointInv_eq (a : Rigid F) (x : Twist F) : a.1.adjointInv x = a⁻¹ • x := by
  apply Twist.ext
  · rfl
  · rw [smul_v, inv_t, inv_q, Vec3.neg_cross, ← a.2.conjugate.rotate_cross]
    show a.1.q.conjugate.rotate (x.v - a.1.t.cross x.omega) = _
    rw [sub_eq_add_neg, Quat.rotate_add, Quat.rotate_neg, add_comm]

end Rigid

end TfTree
