import TfTree.Math.Iso3
import Mathlib.Algebra.Field.Rat

/-!
# Interpolation policies

`tf_tree_math/src/interp.rs`. The kernels evaluate square roots and
trigonometric functions of the scalars, so they are operations of the scalar
type: results about the rings hold for every choice of them.
-/

namespace TfTree

/-- The kernels of `interp.rs`. -/
class Kernels (F : Type) extends Scalar F where
  /-- `ScLerp::eval`. -/
  scLerp : Iso3 F → Iso3 F → F → Iso3 F
  /-- `LerpSlerp::eval`. -/
  lerpSlerp : Iso3 F → Iso3 F → F → Iso3 F
  /-- `ScLerp::eval_with_twist`. -/
  scLerpWithTwist : Iso3 F → Iso3 F → F → Iso3 F × Twist F

/-- `InterpPolicy` (`plan.rs`). -/
inductive InterpPolicy where
  | scLerp
  | lerpSlerp
  deriving DecidableEq, Repr

/-- `InterpPolicy::from_u8`: any byte but `1` is the default. -/
def InterpPolicy.fromU8 (v : ℕ) : InterpPolicy := if v = 1 then .lerpSlerp else .scLerp

/-- `Interp::eval` of a policy. -/
def InterpPolicy.eval {F : Type} [Kernels F] : InterpPolicy → Iso3 F → Iso3 F → F → Iso3 F
  | .scLerp => Kernels.scLerp
  | .lerpSlerp => Kernels.lerpSlerp

/-- Exact kernels for poses without rotation, over the rationals: the screw motion
    between two of them is the straight line. -/
instance translationKernels : Kernels ℚ where
  scLerp a b s := ⟨a.q, ⟨a.t.x + (b.t.x - a.t.x) * s, a.t.y + (b.t.y - a.t.y) * s,
    a.t.z + (b.t.z - a.t.z) * s⟩⟩
  lerpSlerp a b s := ⟨a.q, ⟨a.t.x + (b.t.x - a.t.x) * s, a.t.y + (b.t.y - a.t.y) * s,
    a.t.z + (b.t.z - a.t.z) * s⟩⟩
  scLerpWithTwist a b s := (⟨a.q, ⟨a.t.x + (b.t.x - a.t.x) * s, a.t.y + (b.t.y - a.t.y) * s,
    a.t.z + (b.t.z - a.t.z) * s⟩⟩,
    ⟨⟨0, 0, 0⟩, ⟨b.t.x - a.t.x, b.t.y - a.t.y, b.t.z - a.t.z⟩⟩)

end TfTree
