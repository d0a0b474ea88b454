import Mathlib
import TfTree.Math.Reference
import TfTree.Math.ScrewAxis

/-!
# The closed form of the screw power

`screw_pow` and `screw_twist` (`tf_tree_math/src/dualquat.rs`) over the real numbers, above the
threshold of the series. The regrouped parts of the source are an axis: the direction `q_v`, the
moment `m_sh` and the slide `k`.

Results:
* `ScrewParts.pow_eq`: the power is the motion about that axis.
* `screwGroups_one`, `screwGroups_screw`: the axis of a transform, and the transform of an axis.
* `screwPow_group`: the powers of a transform are a one-parameter group about its twist.
-/

namespace TfTree

noncomputable local instance screwPowerLibm : Libm ℝ := exactLibm

/-! ## The axis of the parts -/

/-- The direction and the moment of the regrouped parts. -/
def ScrewParts.axis (p : ScrewParts ℝ) : Twist ℝ := ⟨p.qV, p.mSh⟩

section Groups

variable {q : Quat ℝ} {t : Vec3 ℝ} {s : ℝ}

theorem screwGroups_qD (q : Quat ℝ) (t : Vec3 ℝ) : (screwGroups q t).qD =
    ⟨-(t.x * q.x + t.y * q.y + t.z * q.z) / 2, (t.x * q.w + t.y * q.z - t.z * q.y) / 2,
      (t.y * q.w + t.z * q.x - t.x * q.z) / 2, (t.z * q.w + t.x * q.y - t.y * q.x) / 2⟩ := by
  ext <;> simp only [screwGroups, Quat.scale] <;> norm_num <;> ring

theorem screwGroups_axis (q : Quat ℝ) (t : Vec3 ℝ) : (screwGroups q t).axis =
    ⟨q.vector, ⟨(screwGroups q t).qD.x + q.x * ((screwGroups q t).k * q.w),
      (screwGroups q t).qD.y + q.y * ((screwGroups q t).k * q.w),
      (screwGroups q t).qD.z + q.z * ((screwGroups q t).k * q.w)⟩⟩ := rfl

theorem screwGroups_k (hn : q.vector.normSquared ≠ 0) :
    (screwGroups q t).k * q.vector.normSquared = (screwGroups q t).qD.w :=
  div_mul_cancel₀ _ hn

/-- The moment is orthogonal to the direction. -/
theorem screwGroups_line (hn : q.vector.normSquared ≠ 0) : (screwGroups q t).axis.Line := by
  have hk := screwGroups_k (t := t) hn
  rw [Twist.Line, screwGroups_axis]
  rw [screwGroups_qD] at hk ⊢
  simp only [Quat.vector, Vec3.normSquared, Vec3.dot, Vec3.inner] at hk ⊢
  linear_combination q.w * hk

/-- The power is a motion about the axis, for any two weights on the circle. -/
theorem pow_of_weights (hn : q.vector.normSquared ≠ 0) {c w : ℝ}
    (hw : (screwGroups q t).weights s = (c, w)) (h : c * c + w * w * q.vector.normSquared = 1) :
    (screwGroups q t).pow s = (screwGroups q t).axis.screw c w (s * (screwGroups q t).k) := by
  have hk := screwGroups_k (t := t) hn
  have htwo : (2.0 : ℝ) = 2 := by norm_num
  have hv : (screwGroups q t).qV = q.vector := rfl
  unfold ScrewParts.pow
  rw [hw]
  simp only [Vec3.normSquared, Vec3.dot] at hk h
  apply Iso3.ext
  · rfl
  · rw [Twist.screw_t]
    ext
    · simp [ScrewParts.axis, Quat.conjugate, Vec3.add, hv, htwo]
      linear_combination (2 * s * (w * w) * q.vector.x) * hk -
        2 * s * (screwGroups q t).k * q.vector.x * h
    · simp [ScrewParts.axis, Quat.conjugate, Vec3.add, hv, htwo]
      linear_combination (2 * s * (w * w) * q.vector.y) * hk -
        2 * s * (screwGroups q t).k * q.vector.y * h
    · simp [ScrewParts.axis, Quat.conjugate, Vec3.add, hv, htwo]
      linear_combination (2 * s * (w * w) * q.vector.z) * hk -
        2 * s * (screwGroups q t).k * q.vector.z * h

/-- The motion about the axis of a transform, by its whole angle, is the transform. -/
theorem screwGroups_one (hq : q.UnitNorm) (hn : q.vector.normSquared ≠ 0) :
    (screwGroups q t).axis.screw q.w 1 (screwGroups q t).k = ⟨q, t⟩ := by
  have hk := screwGroups_k (t := t) hn
  unfold Quat.UnitNorm at hq
  apply Iso3.ext
  · ext <;> simp [Twist.screw, ScrewParts.axis, screwGroups, Quat.vector]
  · rw [Twist.screw_t, screwGroups_axis]
    rw [screwGroups_qD] at hk ⊢
    simp only [Vec3.normSquared, Vec3.dot, Quat.vector] at hk
    generalize (screwGroups q t).k = k at hk ⊢
    ext
    · simp [Quat.vector]
      linear_combination t.x * hq - 2 * q.x * hk + 2 * k * q.x * hq
    · simp [Quat.vector]
      linear_combination t.y * hq - 2 * q.y * hk + 2 * k * q.y * hq
    · simp [Quat.vector]
      linear_combination t.z * hq - 2 * q.z * hk + 2 * k * q.z * hq

/-- The parts of a motion about an axis are the axis and the slide. -/
theorem screwGroups_screw {x : Twist ℝ} (hx : x.Line) (hn : x.lengthSq ≠ 0) {c k : ℝ}
    (h : c * c + x.lengthSq = 1) :
    (screwGroups (x.screw c 1 k).q (x.screw c 1 k).t).axis = x ∧
      (screwGroups (x.screw c 1 k).q (x.screw c 1 k).t).k = k := by
  have hvec : (x.screw c 1 k).q.vector = x.omega := by
    ext <;> simp [Twist.screw_q, Quat.vector]
  have hlen : (x.screw c 1 k).q.vector.normSquared = x.lengthSq := by
    rw [hvec]
    rfl
  have hk : (screwGroups (x.screw c 1 k).q (x.screw c 1 k).t).k = k := by
    have hmul := screwGroups_k (t := (x.screw c 1 k).t) (hlen.trans_ne hn)
    rw [screwGroups_qD, hlen] at hmul
    apply mul_right_cancel₀ hn
    unfold Twist.Line Vec3.inner at hx
    rw [hmul]
    simp [Twist.screw_q, Twist.screw_t, Twist.lengthSq, Vec3.inner]
    linear_combination -c * hx
  refine ⟨?_, hk⟩
  unfold Twist.Line Vec3.inner at hx
  unfold Twist.lengthSq Vec3.inner at h
  rw [screwGroups_axis, hk, screwGroups_qD, hvec]
  apply Twist.ext
  · rfl
  · ext
    · simp [Twist.screw_q, Twist.screw_t]
      linear_combination x.v.x * h - x.omega.x * hx
    · simp [Twist.screw_q, Twist.screw_t]
      linear_combination x.v.y * h - x.omega.y * hx
    · simp [Twist.screw_q, Twist.screw_t]
      linear_combination x.v.z * h - x.omega.z * hx

end Groups

/-! ## The powers of a transform -/

section Powers

variable {rel : Iso3 ℝ} {s t : ℝ}

/-- The axis of a transform. -/
noncomputable def Iso3.axis (rel : Iso3 ℝ) : Twist ℝ := (screwGroups rel.q.canonical rel.t).axis

/-- The slide of a transform along its axis. -/
noncomputable def Iso3.slide (rel : Iso3 ℝ) : ℝ := (screwGroups rel.q.canonical rel.t).k

/-- The cosine of a part of the half angle. -/
noncomputable def Quat.partCos (q : Quat ℝ) (s : ℝ) : ℝ := Real.cos (s * q.halfAngle)

/-- Its sine, divided by that of the half angle. -/
noncomputable def Quat.partSin (q : Quat ℝ) (s : ℝ) : ℝ :=
  Real.sin (s * q.halfAngle) / √q.vector.normSquared

variable {q : Quat ℝ}

theorem Quat.normSquared_pos (hlarge : ¬ q.SmallArc) : 0 < q.vector.normSquared := by
  have hpos : (0 : ℝ) < sinHalfThetaSmallSq := by
    rw [sinHalfThetaSmallSq_real]
    norm_num
  exact hpos.trans (not_le.mp hlarge)

theorem Quat.canonical_normSquared_ne (hlarge : ¬ q.SmallArc) :
    q.canonical.vector.normSquared ≠ 0 := by
  rw [vector_normSquared_canonical]
  exact (normSquared_pos hlarge).ne'

theorem Quat.not_degenerate (hlarge : ¬ q.SmallArc) :
    ¬ q.vector.normSquared < screwDegenerateSq := by
  have hle : (screwDegenerateSq : ℝ) ≤ sinHalfThetaSmallSq := by
    have hcast : (screwDegenerateSq : ℝ) = ((1e-290 : ℚ) : ℝ) :=
      (Rat.cast_ofScientific _ _ _).symm
    have hcast' : (sinHalfThetaSmallSq : ℝ) = ((0.02233175543719699 : ℚ) : ℝ) :=
      (Rat.cast_ofScientific _ _ _).symm
    rw [hcast, hcast', Rat.cast_le]
    decide +kernel
  exact not_lt.mpr (hle.trans (not_le.mp hlarge).le)

/-- The weights are on the circle. -/
theorem Quat.partCos_sq (hlarge : ¬ q.SmallArc) (s : ℝ) :
    q.partCos s * q.partCos s + q.partSin s * q.partSin s * q.vector.normSquared = 1 := by
  have hpos := normSquared_pos hlarge
  have hsq := Real.mul_self_sqrt hpos.le
  have hne : √q.vector.normSquared ≠ 0 := (Real.sqrt_pos.mpr hpos).ne'
  have hsin : q.partSin s * √q.vector.normSquared = Real.sin (s * q.halfAngle) :=
    div_mul_cancel₀ _ hne
  have hone := Real.sin_sq_add_cos_sq (s * q.halfAngle)
  rw [← hsin] at hone
  unfold partCos
  rw [← hsq]
  linear_combination hone

theorem Quat.partCos_add (hlarge : ¬ q.SmallArc) (s t : ℝ) : q.partCos (s + t) =
    q.partCos s * q.partCos t - q.partSin s * q.partSin t * q.vector.normSquared := by
  have hpos := normSquared_pos hlarge
  have hsq := Real.sq_sqrt hpos.le
  have hne : √q.vector.normSquared ≠ 0 := (Real.sqrt_pos.mpr hpos).ne'
  unfold partCos partSin
  rw [add_mul, Real.cos_add]
  nth_rewrite 3 [← hsq]
  field_simp

theorem Quat.partSin_add (s t : ℝ) : q.partSin (s + t) =
    q.partCos s * q.partSin t + q.partSin s * q.partCos t := by
  unfold partCos partSin
  rw [add_mul, Real.sin_add]
  ring

/-- Above the threshold the closed form is taken. -/
theorem Quat.UnitNorm.weights_largeArc (h : q.UnitNorm) (hlarge : ¬ q.SmallArc) (t : Vec3 ℝ)
    (s : ℝ) : (screwGroups q.canonical t).weights s = (q.partCos s, q.partSin s) := by
  have hsh : (screwGroups q.canonical t).sh2 = q.vector.normSquared :=
    q.vector_normSquared_canonical
  have hch : (screwGroups q.canonical t).ch = |q.w| := q.canonical_w
  have hlarge' : ¬ q.vector.normSquared ≤ sinHalfThetaSmallSq := hlarge
  unfold ScrewParts.weights
  simp only [hsh, hch, exact_le, exact_sqrt, exact_atan2, exact_cos, exact_sin, if_neg hlarge',
    h.arg_eq]
  rfl

theorem Iso3.axis_lengthSq (rel : Iso3 ℝ) : rel.axis.lengthSq = rel.q.vector.normSquared :=
  rel.q.vector_normSquared_canonical

theorem Iso3.axis_line (hlarge : ¬ rel.q.SmallArc) : rel.axis.Line :=
  screwGroups_line (Quat.canonical_normSquared_ne hlarge)

theorem screwParts_largeArc (hlarge : ¬ rel.q.SmallArc) :
    screwParts rel = .regular (screwGroups rel.q.canonical rel.t) := by
  rw [screwParts_real, if_neg (Quat.not_degenerate hlarge)]

/-- A power is the motion about the axis by a part of the angle and of the slide. -/
theorem screwPow_eq (h : rel.q.UnitNorm) (hlarge : ¬ rel.q.SmallArc) (s : ℝ) :
    screwPow rel s = rel.axis.screw (rel.q.partCos s) (rel.q.partSin s) (s * rel.slide) := by
  unfold screwPow
  rw [screwParts_largeArc hlarge]
  apply pow_of_weights (Quat.canonical_normSquared_ne hlarge) (h.weights_largeArc hlarge _ _)
  rw [Quat.vector_normSquared_canonical]
  exact Quat.partCos_sq hlarge s

theorem screwPow_unitNorm (h : rel.q.UnitNorm) (hlarge : ¬ rel.q.SmallArc) (s : ℝ) :
    (screwPow rel s).q.UnitNorm := by
  rw [screwPow_eq h hlarge]
  apply Twist.screw_unitNorm
  rw [rel.axis_lengthSq]
  exact Quat.partCos_sq hlarge s

theorem screwPow_mul (h : rel.q.UnitNorm) (hlarge : ¬ rel.q.SmallArc) (s t : ℝ) :
    screwPow rel s * screwPow rel t = screwPow rel (s + t) := by
  have hcircle : ∀ s, rel.q.partCos s * rel.q.partCos s +
      rel.q.partSin s * rel.q.partSin s * rel.axis.lengthSq = 1 := by
    intro s
    rw [rel.axis_lengthSq]
    exact Quat.partCos_sq hlarge s
  rw [screwPow_eq h hlarge, screwPow_eq h hlarge, screwPow_eq h hlarge,
    Twist.screw_mul (Iso3.axis_line hlarge) (hcircle s) (hcircle t), rel.axis_lengthSq,
    ← Quat.partCos_add hlarge, ← Quat.partSin_add, ← add_mul]

theorem screwPow_zero (h : rel.q.UnitNorm) (hlarge : ¬ rel.q.SmallArc) :
    screwPow rel 0 = 1 := by
  have hcos : rel.q.partCos 0 = 1 := by simp [Quat.partCos]
  have hsin : rel.q.partSin 0 = 0 := by simp [Quat.partSin]
  rw [screwPow_eq h hlarge, hcos, hsin, zero_mul]
  exact Twist.screw_one _

/-- By the whole angle and slide, the motion about the axis is the transform. -/
theorem axis_screw_one (h : rel.q.UnitNorm) (hlarge : ¬ rel.q.SmallArc) :
    rel.axis.screw |rel.q.w| 1 rel.slide = ⟨rel.q.canonical, rel.t⟩ := by
  rw [← rel.q.canonical_w]
  exact screwGroups_one h.canonical (Quat.canonical_normSquared_ne hlarge)

theorem screwPow_one (h : rel.q.UnitNorm) (hlarge : ¬ rel.q.SmallArc) :
    screwPow rel 1 = ⟨rel.q.canonical, rel.t⟩ := by
  have hne : √rel.q.vector.normSquared ≠ 0 :=
    (Real.sqrt_pos.mpr (Quat.normSquared_pos hlarge)).ne'
  have hcos : rel.q.partCos 1 = |rel.q.w| := by
    rw [Quat.partCos, one_mul, h.cos_halfAngle]
  have hsin : rel.q.partSin 1 = 1 := by
    rw [Quat.partSin, one_mul, h.sin_halfAngle, div_self hne]
  rw [screwPow_eq h hlarge, hcos, hsin, one_mul, axis_screw_one h hlarge]

/-- The twist is along the axis. -/
theorem screwTwist_eq (hlarge : ¬ rel.q.SmallArc) : ∃ c, screwTwist rel =
    ⟨rel.axis.omega.scale c, rel.axis.v.scale c - rel.axis.omega.scale (2 * rel.slide)⟩ := by
  have htwo : (2.0 : ℝ) = 2 := by norm_num
  unfold screwTwist
  rw [screwParts_largeArc hlarge]
  unfold ScrewParts.twist
  rw [htwo]
  exact ⟨_, rfl⟩

theorem adjoint_screwPow (h : rel.q.UnitNorm) (hlarge : ¬ rel.q.SmallArc) (s : ℝ) :
    (screwPow rel s).adjoint (screwTwist rel) = screwTwist rel := by
  obtain ⟨c, hc⟩ := screwTwist_eq hlarge
  rw [screwPow_eq h hlarge, hc]
  exact Twist.adjoint_screw ..

/-- The same transform: the quaternions may differ in sign. -/
def Iso3.SameTransform (a b : Iso3 ℝ) : Prop := (a.q = b.q ∨ a.q = b.q.neg) ∧ a.t = b.t

/-- **Main theorem.** Above the threshold of the series, the powers of a transform are a
    one-parameter group of unit transforms through it, which fixes its twist. -/
theorem screwPow_group (h : rel.q.UnitNorm) (hlarge : ¬ rel.q.SmallArc) :
    (∀ s t, screwPow rel s * screwPow rel t = screwPow rel (s + t)) ∧
      screwPow rel 0 = 1 ∧ (screwPow rel 1).SameTransform rel ∧
      (∀ s, (screwPow rel s).q.UnitNorm) ∧
      ∀ s, (screwPow rel s).adjoint (screwTwist rel) = screwTwist rel := by
  refine ⟨screwPow_mul h hlarge, screwPow_zero h hlarge, ?_, screwPow_unitNorm h hlarge,
    adjoint_screwPow h hlarge⟩
  rw [screwPow_one h hlarge]
  refine ⟨?_, rfl⟩
  show rel.q.canonical = rel.q ∨ rel.q.canonical = rel.q.neg
  unfold Quat.canonical
  split_ifs
  · exact .inr rfl
  · exact .inl rfl

/-- A half turn, with a slide along its axis. -/
theorem screwPow_group_halfTurn :
    screwPow ⟨⟨0, 0, 0, 1⟩, ⟨1, 0, 1⟩⟩ (1 / 2 : ℝ) * screwPow ⟨⟨0, 0, 0, 1⟩, ⟨1, 0, 1⟩⟩ (1 / 2) =
        screwPow ⟨⟨0, 0, 0, 1⟩, ⟨1, 0, 1⟩⟩ (1 / 2 + 1 / 2) ∧
      (screwPow ⟨⟨0, 0, 0, 1⟩, ⟨1, 0, 1⟩⟩ (1 : ℝ)).SameTransform ⟨⟨0, 0, 0, 1⟩, ⟨1, 0, 1⟩⟩ := by
  have h : (⟨0, 0, 0, 1⟩ : Quat ℝ).UnitNorm := by norm_num [Quat.UnitNorm]
  have hlarge : ¬ (⟨0, 0, 0, 1⟩ : Quat ℝ).SmallArc := by
    rw [Quat.SmallArc, sinHalfThetaSmallSq_real]
    norm_num [Quat.vector, Vec3.normSquared, Vec3.dot]
  have hgroup := @screwPow_group ⟨⟨0, 0, 0, 1⟩, ⟨1, 0, 1⟩⟩ h hlarge
  exact ⟨hgroup.1 _ _, hgroup.2.2.1⟩

end Powers

end TfTree
