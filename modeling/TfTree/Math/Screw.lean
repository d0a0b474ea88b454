import Mathlib
import TfTree.Math.ExpLog
import TfTree.Math.Interp

/-!
# The interpolation kernels

`dualquat.rs` and `interp.rs` (`tf_tree_math`) over the functions of `libm`: the power
of a screw motion, `ScLerp` and `LerpSlerp`. The rotation kernels are the native bodies
of the source. `Libm.toKernels` makes the interpolation policies of the rings these.
-/

namespace TfTree

variable {F : Type} [Libm F]

open Libm

/-! ## Weights -/

/-- `theta_sq_from_chord` (`interp.rs`, lines 217–233). -/
def thetaSqFromChord (h : F) : F :=
  let c : List F := [1.0, 1.0 / 6.0, 2.0 / 45.0, 1.0 / 70.0, 8.0 / 1575.0, 4.0 / 2079.0,
    16.0 / 21021.0]
  2.0 * h * c.foldr (fun c acc => c + h * acc) (2.0 / 6435.0)

/-- `slerp_weight` (`interp.rs`, lines 252–261). -/
def slerpWeight (a u : F) : F :=
  let x := a * a
  let k := 1.0 - x
  let c1 := 1.0 / 6.0
  let c2 := (7.0 - 3.0 * x) / 360.0
  let c3 := (31.0 + x * (-18.0 + 3.0 * x)) / 15120.0
  let c4 := (381.0 + x * (-239.0 + x * (55.0 - 5.0 * x))) / 1814400.0
  let c5 := (2555.0 + x * (-1636.0 + x * (410.0 + x * (-52.0 + 3.0 * x)))) / 119750400.0
  a * (1.0 + k * u * (c1 + u * (c2 + u * (c3 + u * (c4 + u * c5)))))

/-! ## The screw power -/

/-- `SIN_HALF_THETA_SMALL_SQ`. -/
def sinHalfThetaSmallSq : F := 0.02233175543719699

/-- `SCREW_DEGENERATE_SQ`. -/
def screwDegenerateSq : F := 1e-290

/-- `ScrewParts`. -/
structure ScrewParts (F : Type) where
  qV : Vec3 F
  sh2 : F
  ch : F
  qD : Quat F
  k : F
  mSh : Vec3 F

/-- `Screw`. -/
inductive Screw (F : Type) where
  | degenerate (rel : Iso3 F)
  | regular (parts : ScrewParts F)

/-- The regular arm of `screw_parts` (lines 62–84), for a transform with `w ≥ 0`. -/
def screwGroups (q : Quat F) (t : Vec3 F) : ScrewParts F :=
  let qV := q.vector
  let sh2 := qV.normSquared
  let qD := (Quat.mk (-(t.x * q.x) - t.y * q.y - t.z * q.z)
    (t.x * q.w + t.y * q.z - t.z * q.y)
    (-(t.x * q.z) + t.y * q.w + t.z * q.x)
    (t.x * q.y - t.y * q.x + t.z * q.w)).scale 0.5
  let k := qD.w / sh2
  ⟨qV, sh2, q.w, qD, k, qD.vector.add (qV.scale (k * q.w))⟩

/-- `screw_parts` (lines 47–85). -/
def screwParts (rel : Iso3 F) : Screw F :=
  let q := if lt rel.q.w 0.0 then rel.q.neg else rel.q
  if lt q.vector.normSquared screwDegenerateSq then .degenerate ⟨q, rel.t⟩
  else .regular (screwGroups q rel.t)

namespace ScrewParts

variable (p : ScrewParts F)

/-- `cos(sφ)` and `sin(sφ)/sin φ` in `ScrewParts::pow` (lines 93–106): truncated series
    below the threshold of the angle, the closed form above it. -/
def weights (s : F) : F × F :=
  if le p.sh2 sinHalfThetaSmallSq then
    let phiSq := thetaSqFromChord (p.sh2 / (1.0 + p.ch))
    let wa := slerpWeight (1.0 - s) phiSq
    let wb := slerpWeight s phiSq
    (wa + wb * p.ch, wb)
  else
    let sh := sqrt p.sh2
    let phi := atan2 sh p.ch
    (cos (s * phi), sin (s * phi) / sh)

/-- `ScrewParts::pow` (lines 90–115). -/
def pow (s : F) : Iso3 F :=
  let (cosSh, w) := p.weights s
  let qR2 : Quat F := ⟨cosSh, w * p.qV.x, w * p.qV.y, w * p.qV.z⟩
  let qD2V := (p.mSh.scale w).add (p.qV.scale (-s * p.k * cosSh))
  let qD2 : Quat F := ⟨s * p.qD.w * w, qD2V.x, qD2V.y, qD2V.z⟩
  let t2q := qD2 * qR2.conjugate
  ⟨qR2, ⟨2.0 * t2q.x, 2.0 * t2q.y, 2.0 * t2q.z⟩⟩

/-- `ScrewParts::twist` (lines 122–134). -/
def twist : Twist F :=
  let sh := sqrt p.sh2
  let phi :=
    if le p.sh2 sinHalfThetaSmallSq then sqrt (thetaSqFromChord (p.sh2 / (1.0 + p.ch)))
    else atan2 sh p.ch
  let c := 2.0 * phi / sh
  ⟨p.qV.scale c, (p.mSh.scale c).sub (p.qV.scale (2.0 * p.k))⟩

end ScrewParts

/-- `scaled_exp` (lines 139–148). -/
def scaledExp (xi : Twist F) (s : F) : Iso3 F :=
  expSe3 ⟨⟨s * xi.omega.x, s * xi.omega.y, s * xi.omega.z⟩, ⟨s * xi.v.x, s * xi.v.y, s * xi.v.z⟩⟩

/-- `screw_pow` (lines 156–161). -/
def screwPow (rel : Iso3 F) (s : F) : Iso3 F :=
  match screwParts rel with
  | .degenerate c => scaledExp (logSe3 c) s
  | .regular p => p.pow s

/-- `screw_twist` (lines 167–172). -/
def screwTwist (rel : Iso3 F) : Twist F :=
  match screwParts rel with
  | .degenerate c => logSe3 c
  | .regular p => p.twist

/-- `screw_pow_with_twist` (lines 179–187). -/
def screwPowWithTwist (rel : Iso3 F) (s : F) : Iso3 F × Twist F :=
  match screwParts rel with
  | .degenerate c =>
    let xi := logSe3 c
    (scaledExp xi s, xi)
  | .regular p => (p.pow s, p.twist)

/-- `Iso3::inv_mul` (`interp.rs`): `a⁻¹ · b`. -/
def Iso3.invMul (a b : Iso3 F) : Iso3 F :=
  let qi := a.q.conjugate
  ⟨qi * b.q, qi.rotate (b.t.sub a.t)⟩

/-! ## `interp.rs` -/

/-- `lerp_norm`. -/
def lerpNorm (qa qb : Quat F) (s : F) : Quat F :=
  ((qa.scale (1.0 - s)).add (qb.scale s)).normalize

/-- `THETA_SLERP_SMALL`. -/
def thetaSlerpSmall : F := 0.15

/-- `SLERP_LERP_FALLBACK`. -/
def slerpLerpFallback : F := 1e-6

/-- `slerp_native` (lines 176–207). -/
def slerp (qa qb : Quat F) (s : F) : Quat F :=
  let dot := qa.dot qb
  let qb := if lt dot 0.0 then qb.neg else qb
  let h := 0.5 * (qa.sub qb).normSquared
  if le h 0.0 then qa
  else
    let thetaSq := thetaSqFromChord h
    if le thetaSq (thetaSlerpSmall * thetaSlerpSmall) then
      if lt thetaSq (slerpLerpFallback * slerpLerpFallback) then lerpNorm qa qb s
      else
        let wa := slerpWeight (1.0 - s) thetaSq
        let wb := slerpWeight s thetaSq
        (qa.scale wa).add (qb.scale wb)
    else
      let abs := if lt dot 0.0 then -dot else dot
      let angle := acos (if lt abs 1.0 then abs else 1.0)
      let sinAngle := sin angle
      let wa := sin ((1.0 - s) * angle) / sinAngle
      let wb := sin (s * angle) / sinAngle
      (qa.scale wa).add (qb.scale wb)

/-- `ScLerp::eval`. -/
def ScLerp.eval (a b : Iso3 F) (s : F) : Iso3 F :=
  if eq s 0.0 then a
  else if eq s 1.0 then b
  else a * screwPow (a.invMul b) s

/-- `ScLerp::eval_with_twist`. -/
def ScLerp.evalWithTwist (a b : Iso3 F) (s : F) : Iso3 F × Twist F :=
  let rel := a.invMul b
  if eq s 0.0 then (a, screwTwist rel)
  else if eq s 1.0 then (b, screwTwist rel)
  else
    let (relPow, xi) := screwPowWithTwist rel s
    (a * relPow, xi)

/-- `LerpSlerp::eval`. -/
def LerpSlerp.eval (a b : Iso3 F) (s : F) : Iso3 F :=
  if eq s 0.0 then a
  else if eq s 1.0 then b
  else ⟨slerp a.q b.q s, (a.t.scale (1.0 - s)).add (b.t.scale s)⟩

/-- The interpolation policies over the functions of `libm`. -/
instance Libm.toKernels : Kernels F where
  scLerp := ScLerp.eval
  lerpSlerp := LerpSlerp.eval
  scLerpWithTwist := ScLerp.evalWithTwist

/-- The pose of `eval_with_twist` is the pose of `eval`. -/
theorem ScLerp.evalWithTwist_fst (a b : Iso3 F) (s : F) :
    (ScLerp.evalWithTwist a b s).1 = ScLerp.eval a b s := by
  unfold ScLerp.evalWithTwist ScLerp.eval screwPowWithTwist screwPow
  split_ifs
  · rfl
  · rfl
  · dsimp only
    cases screwParts (a.invMul b) <;> rfl

end TfTree
