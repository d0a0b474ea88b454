import Mathlib
import TfTree.Math.Reference
import TfTree.Ring.Race
import TfTree.Ring.Window

/-!
# Extrapolation along the last twist

`ExtrapPolicy::ConstantTwist` on a ring nobody writes (`constant_twist` in
`tf_tree_core/src/sample.rs`): the last two samples, carried on at a parameter that grows
with the query.

Results:
* `Settled.run_constantTwist`: `sample`, `read_from` and `sample_with_twist` return the pose
  of `ScLerp::eval_with_twist` past the newest stamp.
* `constantTwist_tracks`: over the real numbers its rotation follows the screw motion while
  the closed form is taken or the angle that is turned is small.
* `constantTwist_strays`: a query at which it does not.
-/

namespace TfTree

open Conc

/-! ## The readers past the newest stamp -/

section Run

variable {F : Type} [Kernels F] {r : SampleRing F} {m : RingArena F}

namespace SampleRing.Settled

/-- The two samples of `constant_twist`. -/
theorem run_constantTwist (h : r.Settled m) (htwo : r.lowest m < (m r.edge).head - 1) (t : ℤ) :
    (r.constantTwist (r.lowest m) ((m r.edge).head - 1) t (r.newest m)).run.run RingOp.exec m =
      some (.ok (extendTwist (r.stampOf m ((m r.edge).head - 1 - 1)) (r.newest m) t
        (r.poseOf m ((m r.edge).head - 1 - 1)) (r.poseOf m ((m r.edge).head - 1))), m) := by
  have hlow : r.lowest m = (m r.edge).head - min (m r.edge).head r.retained := rfl
  have hnew : r.Window (m r.edge).head ((m r.edge).head - 1) := ⟨by omega, by omega⟩
  have hprev : r.Window (m r.edge).head ((m r.edge).head - 1 - 1) := ⟨by omega, by omega⟩
  unfold SampleRing.constantTwist
  rw [if_neg htwo.ne', Prog.run_bindE, Prog.run_liftE, r.run_stampAt]
  show (r.readSlot (r.slot ((m r.edge).head - 1 - 1)) >>= _ : RingM F _).run.run RingOp.exec m = _
  rw [Prog.run_bindE, h.read hprev]
  show (r.readSlot (r.slot ((m r.edge).head - 1)) >>= _ : RingM F _).run.run RingOp.exec m = _
  rw [Prog.run_bindE, h.read hnew]
  exact SampleRing.revalidated_window hprev _

/-- The arm past the newest stamp. -/
theorem run_readWith_past (h : r.Settled m) (htwo : r.lowest m < (m r.edge).head - 1) {t : ℤ}
    (ht : r.newest m < t) (interp : Iso3 F → Iso3 F → F → Iso3 F) (seek : ℕ → ℕ → RingProg F ℕ)
    (cursor : ℕ) : (r.readWith id interp seek t .constantTwist cursor).run RingOp.exec m =
      some ((.ok (extendTwist (r.stampOf m ((m r.edge).head - 1 - 1)) (r.newest m) t
        (r.poseOf m ((m r.edge).head - 1 - 1)) (r.poseOf m ((m r.edge).head - 1))).1,
        (m r.edge).head - 1), m) := by
  have hle := h.oldest_le_newest
  have hextend : (r.extrapolated (r.lowest m) ((m r.edge).head - 1) t (r.oldest m) (r.newest m)
      .constantTwist).run.run RingOp.exec m =
      some (.ok (extendTwist (r.stampOf m ((m r.edge).head - 1 - 1)) (r.newest m) t
        (r.poseOf m ((m r.edge).head - 1 - 1)) (r.poseOf m ((m r.edge).head - 1))).1, m) := by
    unfold SampleRing.extrapolated
    rw [Prog.run_bindE, h.run_constantTwist htwo t]
    rfl
  unfold SampleRing.readWith
  rw [Prog.run_seq r.run_loadHead, if_neg h.pos.ne', Prog.run_seq (r.run_stampAt _),
    Prog.run_seq (r.run_stampAt _)]
  change Prog.run RingOp.exec (if t < r.oldest m then _ else if t > r.newest m
    then _ else _) m = _
  rw [if_neg (by omega), if_pos ht]
  exact (Prog.run_seq hextend).trans rfl

theorem run_sample_past (h : r.Settled m) (htwo : r.lowest m < (m r.edge).head - 1) {t : ℤ}
    (ht : r.newest m < t) (interp : Iso3 F → Iso3 F → F → Iso3 F) :
    (r.sample interp t .constantTwist).run RingOp.exec m =
      some (.ok (extendTwist (r.stampOf m ((m r.edge).head - 1 - 1)) (r.newest m) t
        (r.poseOf m ((m r.edge).head - 1 - 1)) (r.poseOf m ((m r.edge).head - 1))).1, m) := by
  unfold SampleRing.sample
  rw [Prog.run_seq (h.run_readWith_past htwo ht interp _ 0)]
  rfl

/-- `sample_with_twist` returns the twist as well. -/
theorem run_sampleWithTwist_past (h : r.Settled m) (htwo : r.lowest m < (m r.edge).head - 1)
    {t : ℤ} (ht : r.newest m < t) : (r.sampleWithTwist t .constantTwist).run RingOp.exec m =
      some (.ok (extendTwist (r.stampOf m ((m r.edge).head - 1 - 1)) (r.newest m) t
        (r.poseOf m ((m r.edge).head - 1 - 1)) (r.poseOf m ((m r.edge).head - 1))), m) := by
  have hle := h.oldest_le_newest
  have hextend : (r.extrapolatedWithTwist (r.lowest m) ((m r.edge).head - 1) t (r.oldest m)
      (r.newest m) .constantTwist).run.run RingOp.exec m =
      some (.ok (extendTwist (r.stampOf m ((m r.edge).head - 1 - 1)) (r.newest m) t
        (r.poseOf m ((m r.edge).head - 1 - 1)) (r.poseOf m ((m r.edge).head - 1))), m) := by
    unfold SampleRing.extrapolatedWithTwist
    rw [if_neg htwo.ne']
    exact h.run_constantTwist htwo t
  unfold SampleRing.sampleWithTwist SampleRing.sampleWithTwistSeeking
  rw [Prog.run_bind, Prog.run_seq r.run_loadHead, if_neg h.pos.ne', Prog.run_seq (r.run_stampAt _),
    Prog.run_seq (r.run_stampAt _)]
  change Option.bind (Prog.run RingOp.exec (if t < r.oldest m then _ else if t > r.newest m
    then _ else _) m) _ = _
  rw [if_neg (by omega), if_pos ht]
  exact (congrArg (Option.bind · _) (Prog.run_seq hextend)).trans rfl

end SampleRing.Settled

end Run

/-! ## Over the real numbers -/

noncomputable local instance : Libm ℝ := exactLibm

/-- The parameter of the extrapolation. -/
noncomputable def screwParam (tPrev tNew t : ℤ) : ℝ :=
  ((t - tPrev : ℤ) : ℝ) / ((tNew - tPrev : ℤ) : ℝ)

theorem spanNs_stamps {start stop : ℤ} (hle : start ≤ stop) (hlo : -2 ^ 63 ≤ start)
    (hhi : stop < 2 ^ 63) : ((spanNs start stop : ℕ) : ℤ) = stop - start := by
  unfold spanNs
  omega

theorem one_lt_screwParam {tPrev tNew t : ℤ} (hprev : tPrev < tNew) (ht : tNew < t) :
    1 < screwParam tPrev tNew t := by
  have hpos : (0 : ℝ) < ((tNew - tPrev : ℤ) : ℝ) := Int.cast_pos.mpr (by omega)
  rw [screwParam, one_lt_div hpos]
  exact Int.cast_lt.mpr (by omega)

/-- The pose of `constant_twist`. -/
theorem extendTwist_eval {tPrev tNew t : ℤ} (hprev : tPrev < tNew) (ht : tNew < t)
    (hlo : -2 ^ 63 ≤ tPrev) (hhi : t < 2 ^ 63) (a b : Iso3 ℝ) :
    (SampleRing.extendTwist tPrev tNew t a b).1 = ScLerp.eval a b (screwParam tPrev tNew t) := by
  have hdt := spanNs_stamps hprev.le hlo (by omega)
  have hspan := spanNs_stamps (hprev.le.trans ht.le) hlo hhi
  have hne : ¬ spanNs tPrev tNew = 0 := by omega
  have hparam : ((spanNs tPrev t : ℕ) : ℝ) / ((spanNs tPrev tNew : ℕ) : ℝ) =
      screwParam tPrev tNew t := by
    rw [screwParam, ← hdt, ← hspan]
    rfl
  unfold SampleRing.extendTwist
  rw [if_neg hne, ← ScLerp.evalWithTwist_fst, ← hparam]
  rfl

theorem screwParam_le {tPrev tNew t : ℤ} (hprev : tPrev < tNew) (ht : tNew < t)
    (hlo : -2 ^ 63 ≤ tPrev) (hhi : t < 2 ^ 63) : screwParam tPrev tNew t ≤ 2 ^ 64 := by
  have hone : (1 : ℝ) ≤ ((tNew - tPrev : ℤ) : ℝ) := by
    have hle : (1 : ℤ) ≤ tNew - tPrev := by omega
    exact_mod_cast hle
  have hnum : ((t - tPrev : ℤ) : ℝ) ≤ 2 ^ 64 := by
    have hle : t - tPrev ≤ 2 ^ 64 := by omega
    exact_mod_cast hle
  have hnn : (0 : ℝ) ≤ ((t - tPrev : ℤ) : ℝ) := Int.cast_nonneg (by omega)
  exact (div_le_self hnn hone).trans hnum

/-- A parameter of 64 bits turns no degenerate arc far. -/
theorem not_degenerate {q : Quat ℝ} (h : q.UnitNorm) (hsmall : q.SmallArc) {s : ℝ}
    (hs : s ≤ 2 ^ 64) (hy : 21 / 10 ≤ s * q.halfAngle) :
    screwDegenerateSq ≤ q.vector.normSquared := by
  have hphi := h.halfAngle_le hsmall
  have hphi0 := q.halfAngle_nonneg
  have hge : 1e-19 ≤ q.halfAngle := by
    have hmul := mul_le_mul_of_nonneg_right hs hphi0
    linarith
  have hcube := Real.sin_gt_sub_cube (by linarith : 0 < q.halfAngle)
  have hthird := pow_succ_le_of_le hphi0 hphi 2
  have hsin : 1e-20 ≤ Real.sin q.halfAngle := by linarith
  have hbound : (screwDegenerateSq : ℝ) ≤ 1e-40 := by
    have hcast : (screwDegenerateSq : ℝ) = ((1e-290 : ℚ) : ℝ) := (Rat.cast_ofScientific _ _ _).symm
    have hcast' : (1e-40 : ℝ) = ((1e-40 : ℚ) : ℝ) := (Rat.cast_ofScientific _ _ _).symm
    rw [hcast, hcast']
    exact Rat.cast_le.mpr (by decide +kernel)
  have hv : 0 ≤ q.vector.normSquared := by
    rw [h.vector_eq, sub_nonneg]
    exact pow_le_one₀ (abs_nonneg _) h.abs_w_le
  rw [h.sin_halfAngle] at hsin
  have hsq := Real.sq_sqrt hv
  nlinarith

/-- All readers return the pose `p` at `t`. -/
def SampleRing.ExtendsTo (r : SampleRing ℝ) (m : RingArena ℝ) (t : ℤ) (p : Iso3 ℝ) : Prop :=
  (∀ interp, (r.sample interp t .constantTwist).run RingOp.exec m = some (.ok p, m)) ∧
  (∀ interp cursor, (r.readFrom id interp t .constantTwist cursor).run RingOp.exec m =
    some ((.ok p, (m r.edge).head - 1), m)) ∧
  ∃ xi, (r.sampleWithTwist t .constantTwist).run RingOp.exec m = some (.ok (p, xi), m)

section Extend

variable {r : SampleRing ℝ} {m : RingArena ℝ} {t : ℤ}

theorem SampleRing.Settled.extendsTo (h : r.Settled m)
    (htwo : r.lowest m < (m r.edge).head - 1)
    (hprev : r.stampOf m ((m r.edge).head - 1 - 1) < r.newest m) (ht : r.newest m < t)
    (hlo : -2 ^ 63 ≤ r.stampOf m ((m r.edge).head - 1 - 1)) (hhi : t < 2 ^ 63) :
    r.ExtendsTo m t (ScLerp.eval (r.poseOf m ((m r.edge).head - 1 - 1))
      (r.poseOf m ((m r.edge).head - 1))
      (screwParam (r.stampOf m ((m r.edge).head - 1 - 1)) (r.newest m) t)) := by
  rw [← extendTwist_eval hprev ht hlo hhi]
  exact ⟨h.run_sample_past htwo ht, fun interp cursor =>
    h.run_readWith_past htwo ht interp _ cursor,
    _, h.run_sampleWithTwist_past htwo ht⟩

/-- **Main theorem.** Past the newest of two samples with unit rotations, the pose that all
    readers return follows the reference screw motion where the closed form is taken, and on
    a small arc while half the angle that is turned is at most `3/2`; from `21/10` on it
    never does. -/
theorem constantTwist_tracks (h : r.Settled m) (htwo : r.lowest m < (m r.edge).head - 1)
    {a b : Iso3 ℝ} (ha : r.poseOf m ((m r.edge).head - 1 - 1) = a)
    (hb : r.poseOf m ((m r.edge).head - 1) = b) (ha1 : a.q.UnitNorm) (hb1 : b.q.UnitNorm)
    {tPrev tNew : ℤ} (hstamp : r.stampOf m ((m r.edge).head - 1 - 1) = tPrev)
    (hstamp' : r.newest m = tNew) (hprev : tPrev < tNew) (ht : tNew < t)
    (hlo : -2 ^ 63 ≤ tPrev) (hhi : t < 2 ^ 63) : ∃ p, r.ExtendsTo m t p ∧
    (¬ (a.invMul b).q.SmallArc ∨ screwParam tPrev tNew t * (a.invMul b).q.halfAngle ≤ 3 / 2 →
      TracksScrew p a b (screwParam tPrev tNew t)) ∧
    ((a.invMul b).q.SmallArc → 21 / 10 ≤ screwParam tPrev tNew t * (a.invMul b).q.halfAngle →
      ¬ TracksScrew p a b (screwParam tPrev tNew t)) := by
  subst ha hb hstamp hstamp'
  have hs := one_lt_screwParam hprev ht
  refine ⟨_, h.extendsTo htwo hprev ht hlo hhi, eval_tracks ha1 hb1 hs, fun hsmall hy => ?_⟩
  exact eval_strays ha1 hb1 hs hsmall
    (not_degenerate (ha1.conjugate.mul hb1) hsmall (screwParam_le hprev ht hlo hhi) hy) hy

end Extend

/-! ## A small arc -/

/-- A turn of about 0.2 rad in one nanosecond. -/
noncomputable def arcPoses : List (ℤ × Iso3 ℝ) :=
  [(0, ⟨⟨1, 0, 0, 0⟩, ⟨0, 0, 0⟩⟩), (1, ⟨⟨399 / 401, 40 / 401, 0, 0⟩, ⟨0, 0, 0⟩⟩)]

noncomputable def arcArena : RingArena ℝ :=
  ((⟨0, 4⟩ : SampleRing ℝ).pushAll arcPoses).runFor RingOp.exec 100 emptyArena

theorem arc_settled : (⟨0, 4⟩ : SampleRing ℝ).Settled arcArena := by
  have hw : ((⟨0, 4⟩ : SampleRing ℝ).pushAll arcPoses).run RingOp.exec emptyArena =
      some ((), arcArena) := rfl
  have hok := Prog.wp_run (pushAll_spec (r := (⟨0, 4⟩ : SampleRing ℝ)) (m := emptyArena) ⟨2, rfl⟩
    (by decide) arcPoses (.of_empty rfl rfl)) hw
  exact hok.settled (by decide) (by decide) (by decide)

/-- The two poses. -/
noncomputable def arcStart : Iso3 ℝ := ⟨⟨1, 0, 0, 0⟩, ⟨0, 0, 0⟩⟩

noncomputable def arcEnd : Iso3 ℝ := ⟨⟨399 / 401, 40 / 401, 0, 0⟩, ⟨0, 0, 0⟩⟩

theorem arcStart_unit : arcStart.q.UnitNorm := by norm_num [arcStart, Quat.UnitNorm]

theorem arcEnd_unit : arcEnd.q.UnitNorm := by norm_num [arcEnd, Quat.UnitNorm]

theorem arc_rel : (arcStart.invMul arcEnd).q = arcEnd.q := by
  ext <;> simp [Iso3.invMul, arcStart, Quat.conjugate]

theorem arc_small : (arcStart.invMul arcEnd).q.SmallArc := by
  rw [arc_rel, Quat.SmallArc, sinHalfThetaSmallSq_real]
  norm_num [arcEnd, Quat.vector, Vec3.normSquared, Vec3.dot]

/-- The arc is between `0.09` and `0.1501`. -/
theorem arc_halfAngle : 0.09 ≤ (arcStart.invMul arcEnd).q.halfAngle ∧
    (arcStart.invMul arcEnd).q.halfAngle ≤ 0.1501 := by
  have hunit : (arcStart.invMul arcEnd).q.UnitNorm := by
    rw [arc_rel]
    exact arcEnd_unit
  refine ⟨?_, hunit.halfAngle_le arc_small⟩
  have hsin := Real.sin_le (Quat.halfAngle_nonneg (arcStart.invMul arcEnd).q)
  rw [hunit.sin_halfAngle] at hsin
  refine le_trans (Real.le_sqrt_of_sq_le ?_) hsin
  rw [arc_rel]
  norm_num [arcEnd, Quat.vector, Vec3.normSquared, Vec3.dot]

theorem arc_stamps : (⟨0, 4⟩ : SampleRing ℝ).stampOf arcArena
    ((arcArena (⟨0, 4⟩ : SampleRing ℝ).edge).head - 1 - 1) = 0 ∧
    (⟨0, 4⟩ : SampleRing ℝ).newest arcArena = 1 := ⟨rfl, rfl⟩

theorem constantTwist_tracks_next : ∃ p, (⟨0, 4⟩ : SampleRing ℝ).ExtendsTo arcArena 2 p ∧
    TracksScrew p arcStart arcEnd (screwParam 0 1 2) := by
  obtain ⟨p, hp, htracks, -⟩ := constantTwist_tracks arc_settled (by decide) (a := arcStart)
    (b := arcEnd) rfl rfl arcStart_unit arcEnd_unit arc_stamps.1 arc_stamps.2 (by decide) (t := 2)
    (by decide) (by decide) (by decide)
  refine ⟨p, hp, htracks (.inr ?_)⟩
  have hs : screwParam 0 1 2 = 2 := by norm_num [screwParam]
  have hphi := arc_halfAngle.2
  rw [hs]
  linarith

/-- A microsecond later the pose is not that of the screw motion. -/
theorem constantTwist_strays : ∃ p, (⟨0, 4⟩ : SampleRing ℝ).ExtendsTo arcArena 1000 p ∧
    ¬ TracksScrew p arcStart arcEnd (screwParam 0 1 1000) := by
  have hext := arc_settled.extendsTo (t := 1000) (by decide) (by decide) (by decide) (by decide)
    (by decide)
  rw [arc_stamps.1, arc_stamps.2] at hext
  refine ⟨ScLerp.eval arcStart arcEnd (screwParam 0 1 1000), hext, ?_⟩
  have hs : screwParam 0 1 1000 = 1000 := by norm_num [screwParam]
  have hphi := arc_halfAngle.1
  have hy : 21 / 10 ≤ screwParam 0 1 1000 * (arcStart.invMul arcEnd).q.halfAngle := by
    rw [hs]
    linarith
  refine eval_strays arcStart_unit arcEnd_unit (by rw [hs]; norm_num) arc_small ?_ hy
  refine not_degenerate ?_ arc_small (by rw [hs]; norm_num) hy
  rw [arc_rel]
  exact arcEnd_unit

end TfTree
