import Mathlib
import TfTree.Math.ScrewPower

/-!
# Interpolation seen from other frames

`ScLerp::eval` and `LerpSlerp::eval` (`tf_tree_math/src/interp.rs`) over the real numbers, on poses
that are expressed in other frames: `g` changes the frame the poses are given in, `h` the frame
they are the poses of.

Results:
* `screwPow_conj`: the power of a transform carried to another frame is the power, carried.
* `slerp_mul`: `slerp` in every branch, after a rotation.
* `interpolation_invariant`: `ScLerp` does not depend on either frame, `LerpSlerp` not on the first.
-/

namespace TfTree

noncomputable local instance invarianceLibm : Libm ℝ := exactLibm

/-! ## The relative transform in another frame -/

section Conj

variable {rel : Iso3 ℝ} {p q : Quat ℝ}

/-- A rotation of the axis keeps the cosine of the half angle. -/
theorem Quat.UnitNorm.conj_w (hp : p.UnitNorm) (q : Quat ℝ) :
    (p * q * p.conjugate).w = q.w := by
  unfold UnitNorm at hp
  simp only [mul_w, mul_x, mul_y, mul_z, Quat.conjugate]
  linear_combination q.w * hp

theorem Quat.mul_neg (p q : Quat ℝ) : p * q.neg = (p * q).neg := by
  ext <;> simp only [neg, mul_w, mul_x, mul_y, mul_z] <;> ring

theorem Quat.neg_mul (p q : Quat ℝ) : p.neg * q = (p * q).neg := by
  ext <;> simp only [neg, mul_w, mul_x, mul_y, mul_z] <;> ring

/-- Both signs are the same rotation. -/
theorem Quat.neg_rotate (q : Quat ℝ) (v : Vec3 ℝ) : q.neg.rotate v = q.rotate v := by
  ext <;> simp [rotate, neg, vector, Vec3.add, Vec3.scale, Vec3.cross] <;> ring

/-- The transform with the sign `screw_parts` gives it. -/
noncomputable def Iso3.canonical (a : Iso3 ℝ) : Iso3 ℝ := ⟨a.q.canonical, a.t⟩

/-- The sign is the same in every frame. -/
theorem canonical_conj (g : Rigid ℝ) (rel : Iso3 ℝ) :
    (g.1 * rel * g.1⁻¹).canonical = g.1 * rel.canonical * g.1⁻¹ := by
  have hw : (g.1 * rel * g.1⁻¹).q.w = rel.q.w := g.2.conj_w rel.q
  unfold Iso3.canonical Quat.canonical
  rw [hw]
  split_ifs
  · apply Iso3.ext
    · show (g.1.q * rel.q * g.1.q.conjugate).neg = g.1.q * rel.q.neg * g.1.q.conjugate
      rw [Quat.mul_neg, Quat.neg_mul]
    · show g.1.t + g.1.q.rotate rel.t + (g.1.q * rel.q).rotate g.1⁻¹.t =
        g.1.t + g.1.q.rotate rel.t + (g.1.q * rel.q.neg).rotate g.1⁻¹.t
      rw [Quat.mul_neg, Quat.neg_rotate]
  · rfl

theorem Quat.UnitNorm.conj_vector (hp : p.UnitNorm) (hq : q.UnitNorm) :
    (p * q * p.conjugate).vector.normSquared = q.vector.normSquared := by
  rw [((hp.mul hq).mul hp.conjugate).vector_eq, hq.vector_eq, hp.conj_w]

/-- The axis is carried, the slide stays. -/
theorem axis_conj (g : Rigid ℝ) (h : rel.q.UnitNorm) (hlarge : ¬ rel.q.SmallArc) :
    (g.1 * rel * g.1⁻¹).axis = g • rel.axis ∧ (g.1 * rel * g.1⁻¹).slide = rel.slide := by
  have hline := Iso3.axis_line hlarge
  have hlen : (g • rel.axis).lengthSq = rel.q.vector.normSquared := by
    rw [Twist.smul_lengthSq, rel.axis_lengthSq]
  have hcircle : |rel.q.w| * |rel.q.w| + rel.q.vector.normSquared = 1 := by
    rw [h.vector_eq]
    ring
  have hmotion : (g.1 * rel * g.1⁻¹).canonical = (g • rel.axis).screw |rel.q.w| 1 rel.slide := by
    have hone : |rel.q.w| * |rel.q.w| + 1 * 1 * rel.axis.lengthSq = 1 := by
      rw [rel.axis_lengthSq, mul_one, one_mul, hcircle]
    rw [canonical_conj, ← Twist.conj_screw g hone, axis_screw_one h hlarge]
    rfl
  have hparts := screwGroups_screw (k := rel.slide) (c := |rel.q.w|) (hline.smul g)
    (hlen.trans_ne (Quat.normSquared_pos hlarge).ne') (by rw [hlen, hcircle])
  rw [← hmotion] at hparts
  exact hparts

theorem smallArc_conj (g : Rigid ℝ) (h : rel.q.UnitNorm) :
    (g.1 * rel * g.1⁻¹).q.SmallArc ↔ rel.q.SmallArc := by
  have hvec : (g.1 * rel * g.1⁻¹).q.vector.normSquared = rel.q.vector.normSquared :=
    g.2.conj_vector h
  unfold Quat.SmallArc
  rw [hvec]

/-- The power of a transform carried to another frame is the power, carried. -/
theorem screwPow_conj (g : Rigid ℝ) (h : rel.q.UnitNorm) (hlarge : ¬ rel.q.SmallArc) (s : ℝ) :
    screwPow (g.1 * rel * g.1⁻¹) s = g.1 * screwPow rel s * g.1⁻¹ := by
  have h' : (g.1 * rel * g.1⁻¹).q.UnitNorm := (g.2.mul h).mul g.2.conjugate
  have hw : (g.1 * rel * g.1⁻¹).q.w = rel.q.w := g.2.conj_w rel.q
  have hvec : (g.1 * rel * g.1⁻¹).q.vector.normSquared = rel.q.vector.normSquared :=
    g.2.conj_vector h
  have hcos : (g.1 * rel * g.1⁻¹).q.partCos s = rel.q.partCos s := by
    rw [Quat.partCos, Quat.halfAngle, hw]
    rfl
  have hsin : (g.1 * rel * g.1⁻¹).q.partSin s = rel.q.partSin s := by
    rw [Quat.partSin, Quat.halfAngle, hw, hvec]
    rfl
  obtain ⟨haxis, hslide⟩ := axis_conj g h hlarge
  have hcircle : rel.q.partCos s * rel.q.partCos s +
      rel.q.partSin s * rel.q.partSin s * rel.axis.lengthSq = 1 := by
    rw [rel.axis_lengthSq]
    exact Quat.partCos_sq hlarge s
  rw [screwPow_eq h' (mt (smallArc_conj g h).mp hlarge), screwPow_eq h hlarge, hcos, hsin, haxis,
    hslide, Twist.conj_screw g hcircle]

end Conj

/-! ## `ScLerp` -/

section ScLerp

variable {a b : Rigid ℝ} {s : ℝ}

theorem Iso3.invMul_eq (a b : Rigid ℝ) : a.1.invMul b.1 = (a⁻¹ * b).1 := by
  apply Iso3.ext
  · rfl
  · show a.1.q.conjugate.rotate (b.1.t - a.1.t) = (a⁻¹).1.t + a.1.q.conjugate.rotate b.1.t
    rw [Quat.rotate_sub, Rigid.inv_t]
    abel

theorem scLerp_real (a b : Iso3 ℝ) (s : ℝ) : ScLerp.eval a b s =
    if s = 0 then a else if s = 1 then b else a * screwPow (a.invMul b) s := by
  have hzero : (0.0 : ℝ) = 0 := by norm_num
  have hone : (1.0 : ℝ) = 1 := by norm_num
  unfold ScLerp.eval
  simp only [exact_eq, hzero, hone]

/-- `ScLerp` does not depend on the frames its poses are expressed in. -/
theorem scLerp_invariant (g h : Rigid ℝ) (hlarge : ¬ (a.1.invMul b.1).q.SmallArc) (s : ℝ) :
    ScLerp.eval (g * a * h).1 (g * b * h).1 s = g.1 * ScLerp.eval a.1 b.1 s * h.1 := by
  rw [scLerp_real, scLerp_real]
  split_ifs with h0 h1
  · rfl
  · rfl
  · rw [Iso3.invMul_eq] at hlarge
    rw [Iso3.invMul_eq, Iso3.invMul_eq]
    have hrel : (g * a * h)⁻¹ * (g * b * h) = h⁻¹ * (a⁻¹ * b) * h⁻¹⁻¹ := by group
    have hconj := screwPow_conj h⁻¹ (a⁻¹ * b).2 hlarge s
    let m : Rigid ℝ := ⟨screwPow (a⁻¹ * b).1 s, screwPow_unitNorm (a⁻¹ * b).2 hlarge s⟩
    have hgroup : g * a * h * (h⁻¹ * m * h⁻¹⁻¹) = g * (a * m) * h := by group
    rw [hrel]
    show (g * a * h).1 * screwPow ((h⁻¹).1 * (a⁻¹ * b).1 * (h⁻¹).1⁻¹) s = _
    rw [hconj]
    exact congrArg Subtype.val hgroup

end ScLerp

/-! ## `LerpSlerp` -/

section LerpSlerp

variable {p : Quat ℝ}

theorem Quat.mul_scale (p q : Quat ℝ) (k : ℝ) : p * q.scale k = (p * q).scale k := by
  ext <;> simp only [scale, mul_w, mul_x, mul_y, mul_z] <;> ring

theorem Quat.mul_add (p a b : Quat ℝ) : p * a.add b = (p * a).add (p * b) := by
  ext <;> simp only [add, mul_w, mul_x, mul_y, mul_z] <;> ring

theorem Quat.UnitNorm.dot_mul (hp : p.UnitNorm) (a b : Quat ℝ) : (p * a).dot (p * b) = a.dot b := by
  unfold UnitNorm at hp
  simp only [dot, mul_w, mul_x, mul_y, mul_z]
  linear_combination (a.w * b.w + a.x * b.x + a.y * b.y + a.z * b.z) * hp

theorem Quat.UnitNorm.normSquared_mul (hp : p.UnitNorm) (q : Quat ℝ) :
    (p * q).normSquared = q.normSquared := by
  rw [Quat.normSquared_mul, hp.normSquared, one_mul]

theorem Quat.UnitNorm.normalize_mul (hp : p.UnitNorm) (q : Quat ℝ) :
    (p * q).normalize = p * q.normalize := by
  unfold Quat.normalize Quat.norm
  rw [hp.normSquared_mul]
  dsimp only
  split_ifs
  · rfl
  · exact (p.mul_scale q _).symm

/-- `slerp` after a rotation, in every branch. -/
theorem slerp_mul (hp : p.UnitNorm) (qa qb : Quat ℝ) (s : ℝ) :
    slerp (p * qa) (p * qb) s = p * slerp qa qb s := by
  have hsign : ∀ c : Prop, [Decidable c] →
      (if c then (p * qb).neg else p * qb) = p * (if c then qb.neg else qb) := by
    intro c _
    split_ifs
    · rw [Quat.mul_neg]
    · rfl
  have hdiff : ∀ q : Quat ℝ, ((p * qa).sub (p * q)).normSquared = (qa.sub q).normSquared := by
    intro q
    rw [Quat.mul_sub, hp.normSquared_mul]
  unfold slerp lerpNorm
  simp only [hp.dot_mul, hsign, hdiff]
  split_ifs
  all_goals simp only [Quat.mul_add, Quat.mul_scale, ← hp.normalize_mul]

theorem lerpSlerp_real (a b : Iso3 ℝ) (s : ℝ) : LerpSlerp.eval a b s =
    if s = 0 then a else if s = 1 then b
    else ⟨slerp a.q b.q s, a.t.scale (1 - s) + b.t.scale s⟩ := by
  have hzero : (0.0 : ℝ) = 0 := by norm_num
  have hone : (1.0 : ℝ) = 1 := by norm_num
  unfold LerpSlerp.eval
  simp only [exact_eq, hzero, hone]
  rfl

/-- `LerpSlerp` does not depend on the frame its poses are given in. -/
theorem lerpSlerp_invariant (g : Rigid ℝ) (a b : Iso3 ℝ) (s : ℝ) :
    LerpSlerp.eval (g.1 * a) (g.1 * b) s = g.1 * LerpSlerp.eval a b s := by
  rw [lerpSlerp_real, lerpSlerp_real]
  split_ifs with h0 h1
  · rfl
  · rfl
  · apply Iso3.ext
    · exact slerp_mul g.2 a.q b.q s
    · show (g.1.t + g.1.q.rotate a.t).scale (1 - s) + (g.1.t + g.1.q.rotate b.t).scale s =
        g.1.t + g.1.q.rotate (a.t.scale (1 - s) + b.t.scale s)
      rw [Quat.rotate_add, Quat.rotate_scale, Quat.rotate_scale]
      ext <;> simp <;> ring

end LerpSlerp

/-- **Main theorem.** Above the threshold of the series `ScLerp` does not depend on the frames its
    poses are expressed in, and in every branch `LerpSlerp` does not depend on the frame they are
    given in. -/
theorem interpolation_invariant (a b g h : Rigid ℝ) (s : ℝ) :
    (¬ (a.1.invMul b.1).q.SmallArc →
      ScLerp.eval (g * a * h).1 (g * b * h).1 s = g.1 * ScLerp.eval a.1 b.1 s * h.1) ∧
    LerpSlerp.eval (g * a).1 (g * b).1 s = g.1 * LerpSlerp.eval a.1 b.1 s :=
  ⟨fun hlarge => scLerp_invariant g h hlarge s, lerpSlerp_invariant g a.1 b.1 s⟩

/-- Between the identity and a half turn. -/
theorem interpolation_invariant_halfTurn :
    let b : Rigid ℝ := ⟨⟨⟨0, 0, 0, 1⟩, ⟨1, 0, 1⟩⟩, by norm_num [Quat.UnitNorm]⟩
    ¬ ((1 : Rigid ℝ).1.invMul b.1).q.SmallArc ∧ ∀ (g h : Rigid ℝ) (s : ℝ),
      ScLerp.eval (g * 1 * h).1 (g * b * h).1 s =
        g.1 * ScLerp.eval (1 : Rigid ℝ).1 b.1 s * h.1 := by
  intro b
  have hlarge : ¬ ((1 : Rigid ℝ).1.invMul b.1).q.SmallArc := by
    rw [Iso3.invMul_eq, inv_one, one_mul, Quat.SmallArc, sinHalfThetaSmallSq_real]
    norm_num [b, Quat.vector, Vec3.normSquared, Vec3.dot]
  exact ⟨hlarge, fun g h s => (interpolation_invariant 1 b g h s).1 hlarge⟩

end TfTree
