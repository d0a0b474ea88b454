import Mathlib
import TfTree.Math.Series

/-!
# The reference screw motion

`sclerp` of `tf_tree_math/src/reference.rs`, and how close the rotation of `ScLerp::eval`
stays to it over the real numbers. Both are `a · q` for a rotation `q` about the axis of
`a⁻¹ · b`, so that only the cosine and the sine of the angle are to be compared.

Results:
* `sclerp_rotation`: the reference turns by `s` times the angle between the samples.
* `eval_tracks`: so does `ScLerp::eval`, if the closed form is taken or that angle is at
  most `3`.
-/

namespace TfTree

/-- `sclerp` (`reference.rs`, lines 15–27). -/
def sclerp {F : Type} [Libm F] (a b : Iso3 F) (s : F) : Iso3 F :=
  let rel := a⁻¹ * b
  let xi := logSe3 rel
  let scaled : Twist F := ⟨⟨s * xi.omega.x, s * xi.omega.y, s * xi.omega.z⟩,
    ⟨s * xi.v.x, s * xi.v.y, s * xi.v.z⟩⟩
  a * expSe3 scaled

noncomputable local instance : Libm ℝ := exactLibm

/-! ## Quaternions -/

namespace Quat

variable {p q r : Quat ℝ}

theorem normSquared_mul (p q : Quat ℝ) :
    (p * q).normSquared = p.normSquared * q.normSquared := by
  simp only [normSquared, mul_w, mul_x, mul_y, mul_z]
  ring

theorem mul_sub (p q r : Quat ℝ) : (p * q).sub (p * r) = p * q.sub r := by
  ext <;> simp only [sub, mul_w, mul_x, mul_y, mul_z] <;> ring

theorem UnitNorm.normSquared (h : q.UnitNorm) : q.normSquared = 1 := h

/-- A turn about an axis that is given by a vector of any length. -/
def turn (c w : ℝ) (v : Vec3 ℝ) : Quat ℝ := ⟨c, w * v.x, w * v.y, w * v.z⟩

theorem normSquared_turn (c w : ℝ) (v : Vec3 ℝ) :
    (turn c w v).normSquared = c ^ 2 + w ^ 2 * v.normSquared := by
  simp only [turn, Quat.normSquared, Vec3.normSquared, Vec3.dot]
  ring

theorem turn_sub (c w c' w' : ℝ) (v : Vec3 ℝ) :
    (turn c w v).sub (turn c' w' v) = turn (c - c') (w - w') v := by
  ext <;> simp only [turn, sub] <;> ring

/-- The sign `logSo3` and `screw_parts` give a quaternion. -/
noncomputable def canonical (q : Quat ℝ) : Quat ℝ := if q.w < 0 then q.neg else q

theorem canonical_w (q : Quat ℝ) : q.canonical.w = |q.w| := by
  unfold canonical
  split_ifs with h
  · exact (abs_of_neg h).symm
  · exact (abs_of_nonneg (not_lt.mp h)).symm

theorem UnitNorm.canonical (h : q.UnitNorm) : q.canonical.UnitNorm := by
  unfold Quat.canonical
  split_ifs
  · simpa [UnitNorm, neg] using h
  · exact h

theorem canonical_canonical (q : Quat ℝ) : q.canonical.canonical = q.canonical := by
  have hw : ¬ q.canonical.w < 0 := by
    rw [canonical_w]
    exact not_lt.mpr (abs_nonneg _)
  rw [Quat.canonical, if_neg hw]

theorem vector_normSquared_canonical (q : Quat ℝ) :
    q.canonical.vector.normSquared = q.vector.normSquared := by
  unfold canonical
  split_ifs
  · simp only [vector, neg, Vec3.normSquared, Vec3.dot]
    ring
  · rfl

end Quat

/-! ## Half the angle of a rotation -/

section Angle

variable {q : Quat ℝ}

/-- Half the angle of the rotation, in `[0, π/2]`. -/
noncomputable def Quat.halfAngle (q : Quat ℝ) : ℝ := Real.arccos |q.w|

/-- `sin²` of the half angle. -/
theorem Quat.UnitNorm.vector_eq (h : q.UnitNorm) : q.vector.normSquared = 1 - |q.w| ^ 2 := by
  rw [sq_abs]
  unfold UnitNorm at h
  simp only [vector, Vec3.normSquared, Vec3.dot]
  linarith

theorem Quat.UnitNorm.abs_w_le (h : q.UnitNorm) : |q.w| ≤ 1 := by
  have hv := h.vector_eq
  have hnn : 0 ≤ q.vector.normSquared := by
    simp only [Quat.vector, Vec3.normSquared, Vec3.dot]
    nlinarith [mul_self_nonneg q.x, mul_self_nonneg q.y, mul_self_nonneg q.z]
  nlinarith [abs_nonneg q.w]

theorem Quat.UnitNorm.cos_halfAngle (h : q.UnitNorm) : Real.cos q.halfAngle = |q.w| :=
  Real.cos_arccos (by linarith [abs_nonneg q.w]) h.abs_w_le

theorem Quat.UnitNorm.sin_halfAngle (h : q.UnitNorm) :
    Real.sin q.halfAngle = √q.vector.normSquared := by
  rw [Quat.halfAngle, Real.sin_arccos, h.vector_eq]

theorem Quat.halfAngle_nonneg (q : Quat ℝ) : 0 ≤ q.halfAngle := Real.arccos_nonneg _

/-- `atan2` of the two sides. -/
theorem Quat.UnitNorm.arg_eq (h : q.UnitNorm) :
    Complex.arg ⟨|q.w|, √q.vector.normSquared⟩ = q.halfAngle := by
  have hnorm : ‖(⟨|q.w|, √q.vector.normSquared⟩ : ℂ)‖ = 1 := by
    rw [Complex.norm_def, Complex.normSq_mk, Real.mul_self_sqrt, h.vector_eq]
    · rw [← sq, add_sub_cancel, Real.sqrt_one]
    · rw [h.vector_eq, sub_nonneg]
      exact pow_le_one₀ (abs_nonneg _) h.abs_w_le
  have hne : (⟨|q.w|, √q.vector.normSquared⟩ : ℂ) ≠ 0 := by
    intro h0
    rw [h0, norm_zero] at hnorm
    exact zero_ne_one hnorm
  rw [Complex.arg_of_im_nonneg_of_ne_zero (Real.sqrt_nonneg _) hne, hnorm, div_one]
  rfl

theorem Quat.halfAngle_canonical (q : Quat ℝ) : q.canonical.halfAngle = q.halfAngle := by
  rw [Quat.halfAngle, Quat.canonical_w, abs_abs, Quat.halfAngle]

/-! ## The exponential of the logarithm -/

theorem exact_sqrt (x : ℝ) : Libm.sqrt x = √x := rfl

theorem exact_sin (x : ℝ) : Libm.sin x = Real.sin x := rfl

theorem exact_cos (x : ℝ) : Libm.cos x = Real.cos x := rfl

theorem exact_atan2 (y x : ℝ) : Libm.atan2 y x = Complex.arg ⟨x, y⟩ := rfl

theorem exact_lt (a b : ℝ) : (Libm.lt a b = true) = (a < b) := decide_eq_true_eq

theorem exact_le (a b : ℝ) : (Libm.le a b = true) = (a ≤ b) := decide_eq_true_eq

theorem exact_eq (a b : ℝ) : (Libm.eq a b = true) = (a = b) := decide_eq_true_eq

/-- The sign test of the source. -/
theorem ite_lt_zero_eq (q : Quat ℝ) :
    (if Libm.lt q.w 0.0 = true then q.neg else q) = q.canonical := by
  have hzero : (0.0 : ℝ) = 0 := by norm_num
  simp only [exact_lt, hzero, Quat.canonical]

/-- The axis, with twice the half angle. -/
theorem Quat.UnitNorm.logSo3_eq (h : q.UnitNorm) : logSo3 q =
    if √q.vector.normSquared = 0 then Vec3.zero
    else ⟨2 * q.halfAngle / √q.vector.normSquared * q.canonical.x,
      2 * q.halfAngle / √q.vector.normSquared * q.canonical.y,
      2 * q.halfAngle / √q.vector.normSquared * q.canonical.z⟩ := by
  have hn : q.canonical.x * q.canonical.x + q.canonical.y * q.canonical.y +
      q.canonical.z * q.canonical.z = q.vector.normSquared := by
    rw [← q.vector_normSquared_canonical]
    rfl
  have hzero : (0.0 : ℝ) = 0 := by norm_num
  have htwo : (2.0 : ℝ) = 2 := by norm_num
  unfold logSo3
  simp only [ite_lt_zero_eq]
  simp only [exact_sqrt, exact_atan2, exact_eq, hn, q.canonical_w, h.arg_eq, hzero, htwo]

theorem expSo3Theta_real (w : Vec3 ℝ) (theta : ℝ) : expSo3Theta w theta =
    Quat.turn (Real.cos (theta / 2)) (if 1e-8 < theta then Real.sin (theta / 2) / theta
      else 1 / 2 - theta ^ 2 / 48 + theta ^ 4 / 3840) w := by
  have hhalf : (0.5 : ℝ) * theta = theta / 2 := by ring
  have hseries : (0.5 : ℝ) - theta * theta / 48.0 + theta * theta * (theta * theta) / 3840.0 =
      1 / 2 - theta ^ 2 / 48 + theta ^ 4 / 3840 := by
    norm_num
    ring
  unfold expSo3Theta
  simp only [exact_lt, exact_sin, exact_cos, hhalf, hseries]
  rfl

/-- The scale of `exp_so3_theta` times the angle. -/
theorem expScale_close {theta : ℝ} (h0 : 0 ≤ theta) :
    |(if 1e-8 < theta then Real.sin (theta / 2) / theta
      else 1 / 2 - theta ^ 2 / 48 + theta ^ 4 / 3840) * theta - Real.sin (theta / 2)| ≤ 2e-8 := by
  split_ifs with hlt
  · have hne : theta ≠ 0 := by
      rintro rfl
      norm_num at hlt
    rw [div_mul_cancel₀ _ hne, sub_self, abs_zero]
    norm_num
  · have hle := not_lt.mp hlt
    have hpi := Real.pi_gt_three
    have hsin := Real.sin_le (by linarith : 0 ≤ theta / 2)
    have hsin0 := Real.sin_nonneg_of_nonneg_of_le_pi (by linarith : 0 ≤ theta / 2) (by linarith)
    have hsq : theta ^ 2 ≤ 1 := by nlinarith
    have hlow : 0 ≤ 1 / 2 - theta ^ 2 / 48 + theta ^ 4 / 3840 := by
      have hfour : 0 ≤ theta ^ 4 := by positivity
      linarith
    have hhigh : 1 / 2 - theta ^ 2 / 48 + theta ^ 4 / 3840 ≤ 1 := by
      have hfour : theta ^ 4 ≤ 1 := by nlinarith [sq_nonneg theta]
      linarith [sq_nonneg theta]
    have hprod0 := mul_nonneg hlow h0
    have hprod := mul_le_mul_of_nonneg_right hhigh h0
    rw [abs_le]
    constructor <;> linarith

/-- The exponential of `s` times the logarithm turns by `s` times the angle. -/
theorem Quat.UnitNorm.scaledExp_log (h : q.UnitNorm) {s : ℝ} (hs : 0 ≤ s) (v : Vec3 ℝ) :
    ∃ w, (scaledExp ⟨logSo3 q, v⟩ s).q =
      Quat.turn (Real.cos (s * q.halfAngle)) w q.canonical.vector ∧
      |w * √q.vector.normSquared - Real.sin (s * q.halfAngle)| ≤ 2e-8 := by
  have hexp : (scaledExp ⟨logSo3 q, v⟩ s).q = expSo3Theta ⟨s * (logSo3 q).x, s * (logSo3 q).y,
      s * (logSo3 q).z⟩ (Vec3.norm ⟨s * (logSo3 q).x, s * (logSo3 q).y, s * (logSo3 q).z⟩) := rfl
  have hphi0 := q.halfAngle_nonneg
  rw [hexp, expSo3Theta_real, h.logSo3_eq]
  by_cases hn : √q.vector.normSquared = 0
  · -- no rotation
    have hpi := Real.pi_pos
    have hphi : q.halfAngle = 0 := by
      rw [← h.sin_halfAngle] at hn
      have hhi : q.halfAngle ≤ Real.pi / 2 := Real.arccos_le_pi_div_two.mpr (abs_nonneg _)
      exact (Real.sin_eq_zero_iff_of_lt_of_lt (by linarith) (by linarith)).mp hn
    refine ⟨0, ?_, ?_⟩
    · rw [if_pos hn, hphi]
      simp [Quat.turn, Vec3.zero, Vec3.norm, Vec3.normSquared, Vec3.dot, exact_sqrt]
    · rw [hphi]
      norm_num
  · rw [if_neg hn]
    have hn0 : 0 < √q.vector.normSquared := lt_of_le_of_ne (Real.sqrt_nonneg _) (Ne.symm hn)
    set k := 2 * q.halfAngle / √q.vector.normSquared with hk
    have hk0 : 0 ≤ k := by positivity
    have hkn : k * √q.vector.normSquared = 2 * q.halfAngle := div_mul_cancel₀ _ hn
    have hnorm : Vec3.norm (⟨s * (k * q.canonical.x), s * (k * q.canonical.y),
        s * (k * q.canonical.z)⟩ : Vec3 ℝ) = 2 * (s * q.halfAngle) := by
      have hsq : Vec3.normSquared (⟨s * (k * q.canonical.x), s * (k * q.canonical.y),
          s * (k * q.canonical.z)⟩ : Vec3 ℝ) = (s * k) ^ 2 * q.vector.normSquared := by
        rw [← q.vector_normSquared_canonical]
        simp only [Vec3.normSquared, Vec3.dot, Quat.vector]
        ring
      rw [Vec3.norm, exact_sqrt, hsq, Real.sqrt_mul (sq_nonneg _),
        Real.sqrt_sq (mul_nonneg hs hk0), mul_assoc, hkn]
      ring
    have hclose := expScale_close (by positivity : 0 ≤ 2 * (s * q.halfAngle))
    have hhalf : 2 * (s * q.halfAngle) / 2 = s * q.halfAngle := by ring
    rw [hnorm]
    rw [hhalf] at hclose ⊢
    generalize (if 1e-8 < 2 * (s * q.halfAngle) then Real.sin (s * q.halfAngle) /
      (2 * (s * q.halfAngle)) else 1 / 2 - (2 * (s * q.halfAngle)) ^ 2 / 48 +
      (2 * (s * q.halfAngle)) ^ 4 / 3840) = scale at hclose ⊢
    refine ⟨scale * s * k, ?_, ?_⟩
    · ext <;> simp only [Quat.turn, Quat.vector] <;> ring
    · have hprod : scale * s * k * √q.vector.normSquared =
          scale * (2 * (s * q.halfAngle)) := by
        rw [mul_assoc, hkn]
        ring
      rwa [hprod]

/-! ## The screw power -/

/-- The arm of `ScrewParts::pow` that evaluates the truncated series. -/
def Quat.SmallArc (q : Quat ℝ) : Prop := q.vector.normSquared ≤ sinHalfThetaSmallSq

theorem sinHalfThetaSmallSq_real : (sinHalfThetaSmallSq : ℝ) = 0.02233175543719699 := rfl

theorem screwParts_real (rel : Iso3 ℝ) : screwParts rel =
    if rel.q.vector.normSquared < screwDegenerateSq then .degenerate ⟨rel.q.canonical, rel.t⟩
    else .regular (screwGroups rel.q.canonical rel.t) := by
  unfold screwParts
  simp only [ite_lt_zero_eq]
  simp only [exact_lt, Quat.vector_normSquared_canonical]

theorem ScrewParts.pow_q (p : ScrewParts ℝ) (s : ℝ) :
    (p.pow s).q = Quat.turn (p.weights s).1 (p.weights s).2 p.qV := rfl

/-- On a small arc the angle is small. -/
theorem Quat.UnitNorm.halfAngle_le (h : q.UnitNorm) (hsmall : q.SmallArc) :
    q.halfAngle ≤ 0.1501 := by
  have hpi := Real.pi_gt_three
  by_contra hlt
  have hlt := not_le.mp hlt
  have hhi : q.halfAngle ≤ Real.pi / 2 := Real.arccos_le_pi_div_two.mpr (abs_nonneg _)
  have hmono := Real.sin_le_sin_of_le_of_le_pi_div_two (by linarith) hhi hlt.le
  have hcube := Real.sin_gt_sub_cube (x := 0.1501) (by norm_num)
  have hsin : Real.sin q.halfAngle ^ 2 ≤ 0.02233175543719699 := by
    rw [h.sin_halfAngle, Real.sq_sqrt]
    · exact hsmall
    · rw [h.vector_eq, sub_nonneg]
      exact pow_le_one₀ (abs_nonneg _) h.abs_w_le
  have hge : 0.1495 ≤ Real.sin q.halfAngle := by
    norm_num at hcube
    linarith
  nlinarith

/-- The weights on a small arc. -/
theorem Quat.UnitNorm.weights_smallArc (h : q.UnitNorm) (t : Vec3 ℝ) (s : ℝ) (hsmall : q.SmallArc) :
    (screwGroups q.canonical t).weights s =
      (slerpWeight (1 - s) (thetaSqFromChord (1 - Real.cos q.halfAngle)) +
        slerpWeight s (thetaSqFromChord (1 - Real.cos q.halfAngle)) * Real.cos q.halfAngle,
        slerpWeight s (thetaSqFromChord (1 - Real.cos q.halfAngle))) := by
  have hsh : (screwGroups q.canonical t).sh2 = q.vector.normSquared :=
    q.vector_normSquared_canonical
  have hch : (screwGroups q.canonical t).ch = |q.w| := q.canonical_w
  have hone : (1.0 : ℝ) = 1 := by norm_num
  have hchord : q.vector.normSquared / (1.0 + |q.w|) = 1 - Real.cos q.halfAngle := by
    have hden : (1.0 : ℝ) + |q.w| ≠ 0 := by
      have habs := abs_nonneg q.w
      rw [hone]
      linarith
    rw [h.cos_halfAngle, h.vector_eq, div_eq_iff hden, hone]
    ring
  have hsmall' : q.vector.normSquared ≤ sinHalfThetaSmallSq := hsmall
  unfold ScrewParts.weights
  simp only [hsh, hch, exact_le, if_pos hsmall', hchord]
  rw [hone, h.cos_halfAngle]

theorem Quat.UnitNorm.halfAngle_pos (h : q.UnitNorm) (hpos : 0 < q.vector.normSquared) :
    0 < q.halfAngle := by
  rcases q.halfAngle_nonneg.eq_or_lt with hzero | hlt
  · have hsin := h.sin_halfAngle
    rw [← hzero, Real.sin_zero, eq_comm, Real.sqrt_eq_zero hpos.le] at hsin
    exact absurd hsin hpos.ne'
  · exact hlt

/-- The weights of the screw power are close to the cosine and the sine. -/
theorem Quat.UnitNorm.weights_close (h : q.UnitNorm) (t : Vec3 ℝ) {s : ℝ} (hs : 1 < s)
    (hpos : 0 < q.vector.normSquared) (hcond : ¬ q.SmallArc ∨ s * q.halfAngle ≤ 3 / 2) :
    |((screwGroups q.canonical t).weights s).1 - Real.cos (s * q.halfAngle)| ≤ 3.8e-7 ∧
      |((screwGroups q.canonical t).weights s).2 * √q.vector.normSquared -
        Real.sin (s * q.halfAngle)| ≤ 6e-8 := by
  by_cases hsmall : q.SmallArc
  · have hy := hcond.resolve_left (not_not_intro hsmall)
    obtain ⟨hsin, hcos⟩ := TfTree.weights_close (h.halfAngle_pos hpos) (h.halfAngle_le hsmall)
      hs.le hy
    rw [h.weights_smallArc t s hsmall, ← h.sin_halfAngle]
    exact ⟨hcos, hsin⟩
  · have hsh : (screwGroups q.canonical t).sh2 = q.vector.normSquared :=
      q.vector_normSquared_canonical
    have hch : (screwGroups q.canonical t).ch = |q.w| := q.canonical_w
    have hsmall' : ¬ q.vector.normSquared ≤ sinHalfThetaSmallSq := hsmall
    have hn : √q.vector.normSquared ≠ 0 := (Real.sqrt_pos.mpr hpos).ne'
    unfold ScrewParts.weights
    simp only [hsh, hch, exact_le, exact_sqrt, exact_atan2, exact_cos, exact_sin, if_neg hsmall',
      h.arg_eq]
    rw [div_mul_cancel₀ _ hn, sub_self, sub_self, abs_zero]
    norm_num

theorem screwDegenerateSq_pos : (0 : ℝ) < screwDegenerateSq := by
  have hcast : (screwDegenerateSq : ℝ) = ((1e-290 : ℚ) : ℝ) := (Rat.cast_ofScientific _ _ _).symm
  rw [hcast]
  exact Rat.cast_pos.mpr (by decide +kernel)

/-- The screw power is close to a turn by `s` times the angle. -/
theorem screwPow_close {rel : Iso3 ℝ} (h : rel.q.UnitNorm) {s : ℝ} (hs : 1 < s)
    (hcond : ¬ rel.q.SmallArc ∨ s * rel.q.halfAngle ≤ 3 / 2) :
    ∃ c w, (screwPow rel s).q = Quat.turn c w rel.q.canonical.vector ∧
      |c - Real.cos (s * rel.q.halfAngle)| ≤ 3.8e-7 ∧
      |w * √rel.q.vector.normSquared - Real.sin (s * rel.q.halfAngle)| ≤ 6e-8 := by
  unfold screwPow
  rw [screwParts_real]
  by_cases hdeg : rel.q.vector.normSquared < screwDegenerateSq
  · rw [if_pos hdeg]
    obtain ⟨w, hq, hw⟩ := h.canonical.scaledExp_log (zero_le_one.trans hs.le)
      (logSe3 ⟨rel.q.canonical, rel.t⟩).v
    rw [Quat.halfAngle_canonical, Quat.canonical_canonical] at hq
    rw [Quat.halfAngle_canonical, Quat.vector_normSquared_canonical] at hw
    refine ⟨_, w, hq, ?_, hw.trans (by norm_num)⟩
    rw [sub_self, abs_zero]
    norm_num
  · rw [if_neg hdeg]
    have hpos := screwDegenerateSq_pos.trans_le (not_lt.mp hdeg)
    obtain ⟨hc, hw⟩ := h.weights_close rel.t hs hpos hcond
    exact ⟨_, _, ScrewParts.pow_q _ s, hc, hw⟩

end Angle

/-! ## The rotation of `ScLerp` -/

/-- The rotation of the pose is a unit quaternion within `1e-6`, and within `1e-6` of the
    rotation of the reference screw motion. -/
structure TracksScrew (p a b : Iso3 ℝ) (s : ℝ) : Prop where
  unit : |p.q.normSquared - 1| ≤ 1e-6
  near : (p.q.sub (sclerp a b s).q).norm ≤ 1e-6

section Tracks

variable {a b : Iso3 ℝ} {s : ℝ}

/-- The reference turns by `s` times the angle. -/
theorem sclerp_rotation (ha : a.q.UnitNorm) (hb : b.q.UnitNorm) (hs : 0 ≤ s) :
    ∃ w, (sclerp a b s).q = a.q * Quat.turn (Real.cos (s * (a.invMul b).q.halfAngle)) w
        (a.invMul b).q.canonical.vector ∧
      |w * √(a.invMul b).q.vector.normSquared -
        Real.sin (s * (a.invMul b).q.halfAngle)| ≤ 2e-8 := by
  have hrel : (a.invMul b).q.UnitNorm := ha.conjugate.mul hb
  obtain ⟨w, hq, hw⟩ := hrel.scaledExp_log hs (logSe3 (a⁻¹ * b)).v
  exact ⟨w, congrArg (a.q * ·) hq, hw⟩

/-- `ScLerp::eval` turns as the screw power does. -/
theorem eval_rotation (hs : 1 < s) :
    (ScLerp.eval a b s).q = a.q * (screwPow (a.invMul b) s).q := by
  have h0 : ¬ s = 0.0 := by norm_num; linarith
  have h1 : ¬ s = 1.0 := by norm_num; linarith
  unfold ScLerp.eval
  simp only [exact_eq, if_neg h0, if_neg h1]
  rfl

/-- **Main lemma.** Where the closed form is taken or the angle is at most `3/2`, the
    extrapolated rotation follows the reference. -/
theorem eval_tracks (ha : a.q.UnitNorm) (hb : b.q.UnitNorm) (hs : 1 < s)
    (hcond : ¬ (a.invMul b).q.SmallArc ∨ s * (a.invMul b).q.halfAngle ≤ 3 / 2) :
    TracksScrew (ScLerp.eval a b s) a b s := by
  have hrel : (a.invMul b).q.UnitNorm := ha.conjugate.mul hb
  obtain ⟨c, w, hq, hc, hw⟩ := screwPow_close hrel hs hcond
  obtain ⟨w', hq', hw'⟩ := sclerp_rotation ha hb (zero_le_one.trans hs.le)
  have hpose : (ScLerp.eval a b s).q = a.q * Quat.turn c w (a.invMul b).q.canonical.vector := by
    rw [eval_rotation hs, hq]
  have hn : √(a.invMul b).q.vector.normSquared ^ 2 =
      (a.invMul b).q.canonical.vector.normSquared := by
    rw [Quat.vector_normSquared_canonical, Real.sq_sqrt]
    rw [hrel.vector_eq, sub_nonneg]
    exact pow_le_one₀ (abs_nonneg _) hrel.abs_w_le
  have hone := Real.sin_sq_add_cos_sq (s * (a.invMul b).q.halfAngle)
  have hcos1 := Real.abs_cos_le_one (s * (a.invMul b).q.halfAngle)
  have hsin1 := Real.abs_sin_le_one (s * (a.invMul b).q.halfAngle)
  generalize √(a.invMul b).q.vector.normSquared = n at hw hw' hn
  generalize Real.cos (s * (a.invMul b).q.halfAngle) = x at *
  generalize Real.sin (s * (a.invMul b).q.halfAngle) = y at *
  constructor
  · rw [hpose, Quat.normSquared_mul, ha.normSquared, one_mul, Quat.normSquared_turn, ← hn]
    have hsplit : c ^ 2 + w ^ 2 * n ^ 2 - 1 =
        x * (2 * (c - x)) + y * (2 * (w * n - y)) + (c - x) ^ 2 + (w * n - y) ^ 2 := by
      linear_combination hone
    have hx : |x * (2 * (c - x))| ≤ 7.6e-7 := by
      rw [abs_mul, abs_mul, abs_two]
      nlinarith [abs_nonneg x, abs_nonneg (c - x)]
    have hy : |y * (2 * (w * n - y))| ≤ 1.2e-7 := by
      rw [abs_mul, abs_mul, abs_two]
      nlinarith [abs_nonneg y, abs_nonneg (w * n - y)]
    have hx2 := sq_le_sq' (abs_le.mp hc).1 (abs_le.mp hc).2
    have hy2 := sq_le_sq' (abs_le.mp hw).1 (abs_le.mp hw).2
    rw [hsplit, abs_le]
    rw [abs_le] at hx hy
    constructor <;> linarith [sq_nonneg (c - x), sq_nonneg (w * n - y)]
  · rw [hpose, hq', Quat.mul_sub, Quat.norm, Quat.normSquared_mul, ha.normSquared, one_mul,
      Quat.turn_sub, Quat.normSquared_turn, ← hn, exact_sqrt]
    have hdiff : |w * n - w' * n| ≤ 8e-8 := by
      have htri := abs_sub_le (w * n) y (w' * n)
      rw [abs_sub_comm y] at htri
      linarith
    have hx2 := sq_le_sq' (abs_le.mp hc).1 (abs_le.mp hc).2
    have hy2 := sq_le_sq' (abs_le.mp hdiff).1 (abs_le.mp hdiff).2
    refine Real.sqrt_le_iff.mpr ⟨by norm_num, ?_⟩
    linarith

/-- On a small arc that is not degenerate, beyond the angle `2.1`, it does not. -/
theorem eval_strays (ha : a.q.UnitNorm) (hb : b.q.UnitNorm) (hs : 1 < s)
    (hsmall : (a.invMul b).q.SmallArc)
    (hdeg : screwDegenerateSq ≤ (a.invMul b).q.vector.normSquared)
    (hy : 21 / 10 ≤ s * (a.invMul b).q.halfAngle) : ¬ TracksScrew (ScLerp.eval a b s) a b s := by
  intro htracks
  have hrel : (a.invMul b).q.UnitNorm := ha.conjugate.mul hb
  have hpos := screwDegenerateSq_pos.trans_le hdeg
  have hpow : screwPow (a.invMul b) s =
      (screwGroups (a.invMul b).q.canonical (a.invMul b).t).pow s := by
    unfold screwPow
    rw [screwParts_real, if_neg (not_lt.mpr hdeg)]
  obtain ⟨w', hq', hw'⟩ := sclerp_rotation ha hb (zero_le_one.trans hs.le)
  have hfar := weights_far (hrel.halfAngle_pos hpos) (hrel.halfAngle_le hsmall) hs.le hy
  have hnear := htracks.near
  rw [eval_rotation hs, hq', hpow, ScrewParts.pow_q, hrel.weights_smallArc _ s hsmall,
    hrel.sin_halfAngle] at *
  have hqV : (screwGroups (a.invMul b).q.canonical (a.invMul b).t).qV =
      (a.invMul b).q.canonical.vector := rfl
  rw [hqV, Quat.mul_sub, Quat.norm, Quat.normSquared_mul, ha.normSquared, one_mul, Quat.turn_sub,
    Quat.normSquared_turn, exact_sqrt, Quat.vector_normSquared_canonical] at hnear
  generalize slerpWeight s (thetaSqFromChord (1 - Real.cos (a.invMul b).q.halfAngle)) = w at *
  have hsq := (Real.sqrt_le_iff.mp hnear).2
  have hn := Real.sq_sqrt hpos.le
  generalize √(a.invMul b).q.vector.normSquared = n at *
  have hdiff : ((w - w') * n) ^ 2 ≤ 1e-6 ^ 2 := by
    rw [mul_pow, hn]
    refine le_trans ?_ hsq
    linarith [sq_nonneg (slerpWeight (1 - s) (thetaSqFromChord
      (1 - Real.cos (a.invMul b).q.halfAngle)) + w * Real.cos (a.invMul b).q.halfAngle -
      Real.cos (s * (a.invMul b).q.halfAngle))]
  have habs := abs_le_of_sq_le_sq hdiff (by norm_num)
  have htri := abs_sub_le (w * n) (w' * n) (Real.sin (s * (a.invMul b).q.halfAngle))
  have hmul : |w * n - w' * n| ≤ 1e-6 := by
    rw [← sub_mul]
    exact habs
  linarith

end Tracks

end TfTree
