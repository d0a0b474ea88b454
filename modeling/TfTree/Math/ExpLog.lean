import Mathlib
import TfTree.Math.Iso3

/-!
# Exponential and logarithm

The norms of `quat.rs` and `iso3.rs` (`tf_tree_math`) and the maps `exp_so3`,
`log_so3`, `exp_se3` and `log_se3`, over the functions of `libm`. The bodies are the
native ones of the source; nothing is assumed about the scalars.
-/

namespace TfTree

/-- The scalars with the functions of `libm`, the comparisons and the decimal literals
    of the source. -/
class Libm (F : Type) extends Scalar F, OfScientific F where
  sqrt : F → F
  sin : F → F
  cos : F → F
  acos : F → F
  atan2 : F → F → F
  /-- `a < b`; false when one of them is not a number. -/
  lt : F → F → Bool
  /-- `a <= b`. -/
  le : F → F → Bool
  /-- `a == b`. -/
  eq : F → F → Bool

variable {F : Type} [Libm F]

open Libm

/-! ## Norms -/

namespace Vec3

/-- `Vec3::dot`. -/
def dot (a b : Vec3 F) : F := a.x * b.x + a.y * b.y + a.z * b.z

/-- `Vec3::norm_squared`. -/
def normSquared (a : Vec3 F) : F := a.dot a

/-- `Vec3::norm`. -/
def norm (a : Vec3 F) : F := sqrt a.normSquared

end Vec3

namespace Quat

/-- `Quat::norm_squared`. -/
def normSquared (q : Quat F) : F := q.w * q.w + q.x * q.x + q.y * q.y + q.z * q.z

/-- `Quat::norm`. -/
def norm (q : Quat F) : F := sqrt q.normSquared

/-- `Quat::scale`. -/
def scale (q : Quat F) (k : F) : Quat F := ⟨q.w * k, q.x * k, q.y * k, q.z * k⟩

/-- `Quat::normalize`: a norm below `1e-300` is left alone. -/
def normalize (q : Quat F) : Quat F :=
  let n := q.norm
  if lt n 1e-300 then q
  else
    let inv := 1 / n
    ⟨q.w * inv, q.x * inv, q.y * inv, q.z * inv⟩

/-- `Quat::dot`. -/
def dot (a b : Quat F) : F := a.w * b.w + a.x * b.x + a.y * b.y + a.z * b.z

/-- `Quat::neg`. -/
def neg (q : Quat F) : Quat F := ⟨-q.w, -q.x, -q.y, -q.z⟩

/-- `Quat::add`. -/
def add (a b : Quat F) : Quat F := ⟨a.w + b.w, a.x + b.x, a.y + b.y, a.z + b.z⟩

/-- `Quat::sub`. -/
def sub (a b : Quat F) : Quat F := ⟨a.w - b.w, a.x - b.x, a.y - b.y, a.z - b.z⟩

end Quat

/-! ## Rotations -/

/-- `exp_so3_theta` (`quat.rs`, lines 247–263). -/
def expSo3Theta (w : Vec3 F) (theta : F) : Quat F :=
  let half := 0.5 * theta
  let scale :=
    if lt 1e-8 theta then sin half / theta
    else
      let theta2 := theta * theta
      0.5 - theta2 / 48.0 + theta2 * theta2 / 3840.0
  ⟨cos half, scale * w.x, scale * w.y, scale * w.z⟩

/-- `log_so3_native` (`quat.rs`, lines 286–307). -/
def logSo3 (q : Quat F) : Vec3 F :=
  let q := if lt q.w 0.0 then q.neg else q
  let n := sqrt (q.x * q.x + q.y * q.y + q.z * q.z)
  if eq n 0.0 then Vec3.zero
  else
    let theta := 2.0 * atan2 n q.w
    let scale := theta / n
    ⟨scale * q.x, scale * q.y, scale * q.z⟩

/-! ## Rigid transforms -/

/-- `horner` (`iso3.rs`). -/
def horner (c0 c1 c2 c3 theta2 : F) : F := c0 + theta2 * (c1 + theta2 * (c2 + theta2 * c3))

/-- `THETA_SMALL`. -/
def thetaSmall : F := 0.1

/-- `v_coeffs` (`iso3.rs`), with the series `C1` and `C2`. -/
def vCoeffs (theta : F) : F × F :=
  let theta2 := theta * theta
  if lt theta thetaSmall then
    (horner (1.0 / 2.0) (-1.0 / 24.0) (1.0 / 720.0) (-1.0 / 40320.0) theta2,
      horner (1.0 / 6.0) (-1.0 / 120.0) (1.0 / 5040.0) (-1.0 / 362880.0) theta2)
  else
    let sh := sin (0.5 * theta)
    let ch := cos (0.5 * theta)
    (2.0 * sh * sh / theta2, (theta - 2.0 * sh * ch) / (theta2 * theta))

/-- `vinv_c3` (`iso3.rs`), with the series `C3`. -/
def vinvC3 (theta : F) : F :=
  let theta2 := theta * theta
  if lt theta thetaSmall then
    horner (1.0 / 12.0) (1.0 / 720.0) (1.0 / 30240.0) (1.0 / 1209600.0) theta2
  else
    let sh := sin (0.5 * theta)
    let ch := cos (0.5 * theta)
    1.0 / theta2 - (ch / sh) / (2.0 * theta)

/-- `exp_se3` (`iso3.rs`); the twist is `[ω, v]`. -/
def expSe3 (xi : Twist F) : Iso3 F :=
  let theta := xi.omega.norm
  let (c1, c2) := vCoeffs theta
  let wxv := xi.omega.cross xi.v
  let wxwxv := xi.omega.cross wxv
  ⟨expSo3Theta xi.omega theta, (xi.v.add (wxv.scale c1)).add (wxwxv.scale c2)⟩

/-- `log_se3` (`iso3.rs`). -/
def logSe3 (p : Iso3 F) : Twist F :=
  let w := logSo3 p.q
  let c3 := vinvC3 w.norm
  let wxt := w.cross p.t
  let wxwxt := w.cross wxt
  ⟨w, (p.t.sub (wxt.scale 0.5)).add (wxwxt.scale c3)⟩

end TfTree
