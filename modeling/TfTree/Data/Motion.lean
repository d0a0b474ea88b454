import Mathlib
import TfTree.Data.Numerals

/-!
# Motions

A pose in a group together with the rate at which it moves, seen from the frame the pose
leads to. The group acts on the rates. Where one pose carries another, the rate of the
carrier is seen through the carried pose: with this product the motions are a group.

Results:
* `Motion.instGroup`: composing motions is associative, and every motion has an inverse.
* `Motion.div_rate`: the rate of a quotient takes one transport.
* `Motion.lift`: a group that holds the poses, and a copy of the rates the poses pass by
  the action, holds the motions.
-/

namespace TfTree.Data

/-- A pose and its rate. -/
@[ext] structure Motion (G W : Type*) where
  pose : G
  rate : W

namespace Motion

variable {G W H : Type*} [Group G] [AddCommGroup W]

instance : One (Motion G W) := ⟨⟨1, 0⟩⟩

@[simp] theorem one_pose : (1 : Motion G W).pose = 1 := rfl

@[simp] theorem one_rate : (1 : Motion G W).rate = 0 := rfl

variable [DistribMulAction G W]

instance : Mul (Motion G W) := ⟨fun a b => ⟨a.pose * b.pose, b.pose⁻¹ • a.rate + b.rate⟩⟩

instance : Inv (Motion G W) := ⟨fun a => ⟨a.pose⁻¹, -(a.pose • a.rate)⟩⟩

@[simp] theorem mul_pose (a b : Motion G W) : (a * b).pose = a.pose * b.pose := rfl

@[simp] theorem mul_rate (a b : Motion G W) :
    (a * b).rate = b.pose⁻¹ • a.rate + b.rate := rfl

@[simp] theorem inv_pose (a : Motion G W) : a⁻¹.pose = a.pose⁻¹ := rfl

@[simp] theorem inv_rate (a : Motion G W) : a⁻¹.rate = -(a.pose • a.rate) := rfl

instance instGroup : Group (Motion G W) := by
  refine Group.ofLeftAxioms (fun a b c => ?_) (fun a => ?_) (fun a => ?_)
  · apply Motion.ext
    · exact mul_assoc ..
    · simp only [mul_rate, mul_pose, smul_add, mul_inv_rev, mul_smul, add_assoc]
  · apply Motion.ext
    · exact one_mul _
    · simp
  · apply Motion.ext
    · exact inv_mul_cancel _
    · simp

@[simp] theorem div_pose (a b : Motion G W) : (a / b).pose = a.pose / b.pose := by
  rw [div_eq_mul_inv, div_eq_mul_inv, mul_pose, inv_pose]

/-- The rate of a quotient, in one transport. -/
@[simp] theorem div_rate (a b : Motion G W) : (a / b).rate = b.pose • (a.rate - b.rate) := by
  rw [div_eq_mul_inv, mul_rate, inv_pose, inv_inv, inv_rate, smul_sub, sub_eq_add_neg]

/-- A pose that does not move. -/
def still (W : Type*) [AddCommGroup W] [DistribMulAction G W] : G →* Motion G W where
  toFun g := ⟨g, 0⟩
  map_one' := rfl
  map_mul' a b := by
    apply Motion.ext
    · rfl
    · simp

@[simp] theorem still_pose (g : G) : (still W g).pose = g := rfl

@[simp] theorem still_rate (g : G) : (still W g).rate = 0 := rfl

/-- The pose of a motion. -/
def toPose : Motion G W →* G where
  toFun := pose
  map_one' := rfl
  map_mul' _ _ := rfl

/-- The motions in a group that holds the poses as `f` and the rates as `e`: a pose and
    then the infinitesimal step of its rate. -/
def lift [Group H] (f : G →* H) (e : Multiplicative W →* H)
    (hfe : ∀ g w, e (.ofAdd w) * f g = f g * e (.ofAdd (g⁻¹ • w))) : Motion G W →* H where
  toFun a := f a.pose * e (.ofAdd a.rate)
  map_one' := by rw [one_pose, one_rate, ofAdd_zero, map_one, map_one, one_mul]
  map_mul' a b := by
    rw [mul_pose, mul_rate, map_mul, ofAdd_add, map_mul]
    calc f a.pose * f b.pose * (e (.ofAdd (b.pose⁻¹ • a.rate)) * e (.ofAdd b.rate))
        = f a.pose * (f b.pose * e (.ofAdd (b.pose⁻¹ • a.rate))) * e (.ofAdd b.rate) := by
          simp only [mul_assoc]
      _ = f a.pose * (e (.ofAdd a.rate) * f b.pose) * e (.ofAdd b.rate) := by rw [hfe]
      _ = f a.pose * e (.ofAdd a.rate) * (f b.pose * e (.ofAdd b.rate)) := by
          simp only [mul_assoc]

end Motion

end TfTree.Data
