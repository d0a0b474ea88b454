import Mathlib
import TfTree.Data.Taylor
import TfTree.Math.Series

/-!
# The interpolation weight inside the unit interval

`slerp_weight` at the squared angle of `theta_sq_from_chord` (`tf_tree_math/src/interp.rs`), over
the real numbers and for weights in `[0, 1]`.

Results:
* `weightFactor_defect`: the double series against the sines, as a polynomial identity.
* `weightFactor_moves`: the series does not amplify an error of the squared angle.
* `slerpWeight_relative`: the weight is off by at most `1e-15` of itself.
-/

namespace TfTree

open Data.Taylor

noncomputable local instance slerpLibm : Libm ℝ := exactLibm

/-! ## The sine divided by its angle -/

/-- The terms of `sin y / y` in powers of `v = y²`. -/
noncomputable def sincTaylor (v : ℝ) : ℝ :=
  ∑ i ∈ Finset.range 6, (-1) ^ i * (v ^ i / (2 * i + 1).factorial)

theorem mul_sincTaylor (y : ℝ) : y * sincTaylor (y ^ 2) = sinTaylor 6 y := by
  unfold sincTaylor sinTaylor
  rw [Finset.mul_sum]
  refine Finset.sum_congr rfl fun i _ => ?_
  rw [← pow_mul, pow_succ]
  ring

/-- The sine is its angle times a sum of the series and a small rest. -/
theorem exists_sinc {y : ℝ} (hy : 0 ≤ y) : ∃ z, Real.sin y = y * z ∧
    |z - sincTaylor (y ^ 2)| ≤ (y ^ 2) ^ 6 / (13).factorial := by
  rcases hy.eq_or_lt with rfl | hpos
  · exact ⟨sincTaylor (0 ^ 2), by simp, by simp⟩
  · refine ⟨Real.sin y / y, by field_simp, ?_⟩
    have hsin := abs_sin_sub_le (n := 6) (by norm_num) hy
    rw [← mul_sincTaylor] at hsin
    have hsplit : Real.sin y - y * sincTaylor (y ^ 2) =
        y * (Real.sin y / y - sincTaylor (y ^ 2)) := by field_simp
    rw [hsplit, abs_mul, abs_of_pos hpos] at hsin
    have hpow : y ^ (2 * 6 + 1) / ((2 * 6 + 1).factorial : ℝ) =
        y * ((y ^ 2) ^ 6 / (13).factorial) := by
      rw [← pow_mul]
      ring
    rw [hpow] at hsin
    exact le_of_mul_le_mul_left hsin hpos

/-- Up to `y = 3/20`, the sine is nearly its angle. -/
theorem sincTaylor_bounds {v : ℝ} (h0 : 0 ≤ v) (hv : v ≤ 0.0225) :
    0.996 ≤ sincTaylor v ∧ sincTaylor v ≤ 1 := by
  have hpow : ∀ k : ℕ, v ^ (k + 1) ≤ 0.0225 ^ k * v := pow_succ_le_of_le h0 hv
  have hnn : ∀ k : ℕ, 0 ≤ v ^ k := fun k => pow_nonneg h0 k
  simp only [sincTaylor, Finset.sum_range_succ, Finset.sum_range_zero, Nat.factorial]
  constructor <;> linarith [hpow 1, hpow 2, hpow 3, hpow 4, hnn 2, hnn 3, hnn 4, hnn 5]

/-! ## The double series -/

/-- `slerp_weight` divided by its weight, in `x = a²` and the squared angle. -/
noncomputable def weightFactor (x u : ℝ) : ℝ :=
  1 + (1 - x) * u * (1 / 6 + u * ((7 - 3 * x) / 360 + u * ((31 - 18 * x + 3 * x ^ 2) / 15120 +
    u * ((381 - 239 * x + 55 * x ^ 2 - 5 * x ^ 3) / 1814400 +
    u * ((2555 - 1636 * x + 410 * x ^ 2 - 52 * x ^ 3 + 3 * x ^ 4) / 119750400)))))

theorem slerpWeight_eq_mul (a u : ℝ) : slerpWeight a u = a * weightFactor (a ^ 2) u := by
  rw [slerpWeight_real, weightFactor]
  ring

section Defect

variable {x v : ℝ}

/-- Multiplied by the sine of the angle, the series is the sine of the part of it, up to the
    sixth power of the squared angle. -/
theorem weightFactor_mul_sincTaylor (x v : ℝ) :
    weightFactor x v * sincTaylor v - sincTaylor (x * v) = (1 - x) * v ^ 6 * (
      (-54407 / 25147584000 + 17509 / 12573792000 * x - 719 / 2011806720 * x ^ 2 +
        71 / 1437004800 * x ^ 3 - 1 / 239500800 * x ^ 4) +
      v * (533 / 3772137600 - 761 / 8382528000 * x + 29 / 1257379200 * x ^ 2 -
        103 / 33530112000 * x ^ 3 + 1 / 4790016000 * x ^ 4) +
      v ^ 2 * (-8947 / 2414168064000 + 17219 / 7242504192000 * x - 4351 / 7242504192000 * x ^ 2 +
        569 / 7242504192000 * x ^ 3 - 1 / 201180672000 * x ^ 4) +
      v ^ 3 * (727 / 13579695360000 - 7463 / 217275125760000 * x + 377 / 43455025152000 * x ^ 2 -
        1 / 886837248000 * x ^ 3 + 1 / 14485008384000 * x ^ 4) +
      v ^ 4 * (-73 / 136572936192000 + 409 / 1195013191680000 * x - 41 / 478005276672000 * x ^ 2 +
        13 / 1195013191680000 * x ^ 3 - 1 / 1593350922240000 * x ^ 4)) := by
  simp only [weightFactor, sincTaylor, Finset.sum_range_succ, Finset.sum_range_zero, Nat.factorial]
  push_cast
  ring

theorem weightFactor_defect (hx0 : 0 ≤ x) (hx1 : x ≤ 1) (hv0 : 0 ≤ v) (hv1 : v ≤ 1) :
    |weightFactor x v * sincTaylor v - sincTaylor (x * v)| ≤ 5e-6 * v ^ 6 := by
  have hmono : ∀ i j : ℕ, 0 ≤ v ^ j * x ^ i ∧ v ^ j * x ^ i ≤ 1 := fun i j =>
    ⟨by positivity, mul_le_one₀ (pow_le_one₀ hv0 hv1) (by positivity) (pow_le_one₀ hx0 hx1)⟩
  rw [weightFactor_mul_sincTaylor, abs_mul, mul_comm]
  refine mul_le_mul (abs_le.mpr ⟨?_, ?_⟩) ?_ (abs_nonneg _) (by norm_num)
  · linarith [hmono 0 0, hmono 1 0, hmono 2 0, hmono 3 0, hmono 4 0, hmono 0 1, hmono 1 1,
      hmono 2 1, hmono 3 1, hmono 4 1, hmono 0 2, hmono 1 2, hmono 2 2, hmono 3 2, hmono 4 2,
      hmono 0 3, hmono 1 3, hmono 2 3, hmono 3 3, hmono 4 3, hmono 0 4, hmono 1 4, hmono 2 4,
      hmono 3 4, hmono 4 4]
  · linarith [hmono 0 0, hmono 1 0, hmono 2 0, hmono 3 0, hmono 4 0, hmono 0 1, hmono 1 1,
      hmono 2 1, hmono 3 1, hmono 4 1, hmono 0 2, hmono 1 2, hmono 2 2, hmono 3 2, hmono 4 2,
      hmono 0 3, hmono 1 3, hmono 2 3, hmono 3 3, hmono 4 3, hmono 0 4, hmono 1 4, hmono 2 4,
      hmono 3 4, hmono 4 4]
  · rw [abs_of_nonneg (mul_nonneg (by linarith) (pow_nonneg hv0 6))]
    exact mul_le_of_le_one_left (pow_nonneg hv0 6) (by linarith)

/-- The coefficients of the series in the squared angle. -/
noncomputable def weightCoeff (x : ℝ) : ℕ → ℝ
  | 0 => 1 / 6
  | 1 => (7 - 3 * x) / 360
  | 2 => (31 - 18 * x + 3 * x ^ 2) / 15120
  | 3 => (381 - 239 * x + 55 * x ^ 2 - 5 * x ^ 3) / 1814400
  | _ => (2555 - 1636 * x + 410 * x ^ 2 - 52 * x ^ 3 + 3 * x ^ 4) / 119750400

theorem weightFactor_eq_sum (x u : ℝ) : weightFactor x u =
    1 + (1 - x) * ∑ k ∈ Finset.range 5, weightCoeff x k * u ^ (k + 1) := by
  simp only [weightFactor, weightCoeff, Finset.sum_range_succ, Finset.sum_range_zero]
  ring

theorem weightCoeff_bounds (hx0 : 0 ≤ x) (hx1 : x ≤ 1) (k : ℕ) :
    0 ≤ weightCoeff x k ∧ weightCoeff x k ≤ 1 / 6 := by
  have hpow : ∀ k : ℕ, 0 ≤ x ^ k ∧ x ^ k ≤ 1 := fun k =>
    ⟨pow_nonneg hx0 k, pow_le_one₀ hx0 hx1⟩
  unfold weightCoeff
  split <;> constructor <;> linarith [hpow 2, hpow 3, hpow 4]

/-- A power moves less than its base. -/
theorem pow_sub_pow_bounds {u : ℝ} (hu : 0 ≤ u) (huv : u ≤ v) (hv : v ≤ 1 / 2) (k : ℕ) :
    0 ≤ v ^ (k + 1) - u ^ (k + 1) ∧ v ^ (k + 1) - u ^ (k + 1) ≤ v - u := by
  have hv0 : 0 ≤ v := hu.trans huv
  refine ⟨sub_nonneg.mpr (pow_le_pow_left₀ hu huv _), ?_⟩
  induction k with
  | zero => simp
  | succ k ih =>
    have hsplit : v ^ (k + 1 + 1) - u ^ (k + 1 + 1) =
        v ^ (k + 1) * (v - u) + u * (v ^ (k + 1) - u ^ (k + 1)) := by ring
    have hhalf : v ^ (k + 1) ≤ 1 / 2 := by
      rw [pow_succ]
      exact (mul_le_of_le_one_left hv0 (pow_le_one₀ hv0 (by linarith))).trans hv
    have hfirst : v ^ (k + 1) * (v - u) ≤ 1 / 2 * (v - u) :=
      mul_le_mul_of_nonneg_right hhalf (by linarith)
    have hsecond : u * (v ^ (k + 1) - u ^ (k + 1)) ≤ 1 / 2 * (v - u) :=
      mul_le_mul (by linarith) ih (sub_nonneg.mpr (pow_le_pow_left₀ hu huv _)) (by norm_num)
    linarith

/-- The series does not amplify an error of the squared angle. -/
theorem weightFactor_moves {u : ℝ} (hx0 : 0 ≤ x) (hx1 : x ≤ 1) (hu : 0 ≤ u) (huv : u ≤ v)
    (hv : v ≤ 1 / 2) : |weightFactor x u - weightFactor x v| ≤ v - u := by
  have hterm : ∀ k, 0 ≤ weightCoeff x k * v ^ (k + 1) - weightCoeff x k * u ^ (k + 1) ∧
      weightCoeff x k * v ^ (k + 1) - weightCoeff x k * u ^ (k + 1) ≤ 1 / 6 * (v - u) := by
    intro k
    obtain ⟨hc0, hc⟩ := weightCoeff_bounds hx0 hx1 k
    obtain ⟨hp0, hp⟩ := pow_sub_pow_bounds hu huv hv k
    rw [← mul_sub]
    exact ⟨mul_nonneg hc0 hp0, mul_le_mul hc hp hp0 (by norm_num)⟩
  have hsplit : weightFactor x v - weightFactor x u = (1 - x) * ∑ k ∈ Finset.range 5,
      (weightCoeff x k * v ^ (k + 1) - weightCoeff x k * u ^ (k + 1)) := by
    rw [weightFactor_eq_sum, weightFactor_eq_sum, Finset.sum_sub_distrib]
    ring
  have hsum0 := Finset.sum_nonneg fun k (_ : k ∈ Finset.range 5) => (hterm k).1
  have hsum := Finset.sum_le_sum fun k (_ : k ∈ Finset.range 5) => (hterm k).2
  rw [Finset.sum_const, Finset.card_range, nsmul_eq_mul] at hsum
  push_cast at hsum
  rw [abs_sub_comm, hsplit, abs_of_nonneg (mul_nonneg (by linarith) hsum0)]
  refine (mul_le_of_le_one_left hsum0 (by linarith)).trans ?_
  linarith

theorem weightFactor_le {u : ℝ} (hx0 : 0 ≤ x) (hx1 : x ≤ 1) (hu : 0 ≤ u) (hu' : u ≤ 1 / 2) :
    |weightFactor x u| ≤ 1.5 := by
  have hone : weightFactor x 0 = 1 := by simp [weightFactor]
  have hmove := abs_le.mp (weightFactor_moves hx0 hx1 le_rfl hu hu')
  rw [hone] at hmove
  rw [abs_le]
  constructor <;> linarith [hmove.1, hmove.2]

end Defect

/-! ## The weight -/

/-- The weight of the code times the sine, against the sine of the part of the angle. -/
theorem weightFactor_close {x phi : ℝ} (hx0 : 0 ≤ x) (hx1 : x ≤ 1) (h0 : 0 ≤ phi)
    (hphi : phi ≤ 0.15) {z z' : ℝ}
    (hz : |z - sincTaylor (phi ^ 2)| ≤ (phi ^ 2) ^ 6 / (13).factorial)
    (hz' : |z' - sincTaylor (x * phi ^ 2)| ≤ (x * phi ^ 2) ^ 6 / (13).factorial) :
    |weightFactor x (thetaSqFromChord (1 - Real.cos phi)) * z - z'| ≤ 9e-16 := by
  obtain ⟨hlo, hhi⟩ := thetaSqFromChord_enclosed h0 (by linarith)
  generalize thetaSqFromChord (1 - Real.cos phi) = u at hlo hhi ⊢
  have hv0 : 0 ≤ phi ^ 2 := sq_nonneg phi
  have hv : phi ^ 2 ≤ 0.0225 := by nlinarith
  generalize phi ^ 2 = v at hz hz' hlo hhi hv0 hv ⊢
  have hu0 : 0 ≤ u := by linarith
  have hv6 : v ^ 6 ≤ 1.3e-10 := (pow_le_pow_left₀ hv0 hv 6).trans (by norm_num)
  have hxv6 : (x * v) ^ 6 ≤ v ^ 6 := by
    rw [mul_pow]
    exact mul_le_of_le_one_left (pow_nonneg hv0 6) (pow_le_one₀ hx0 hx1)
  have hrest : v ^ 6 / ((13).factorial : ℝ) ≤ 1e-18 := by
    norm_num [Nat.factorial]
    linarith
  have hrest' : (x * v) ^ 6 / ((13).factorial : ℝ) ≤ 1e-18 := by
    norm_num [Nat.factorial] at hrest ⊢
    linarith
  obtain ⟨hT0, hT1⟩ := sincTaylor_bounds hv0 hv
  have hzabs : |z| ≤ 2 := by
    have hzle := abs_le.mp hz
    rw [abs_le]
    constructor <;> linarith [hzle.1, hzle.2]
  have hsplit : weightFactor x u * z - z' = (weightFactor x u - weightFactor x v) * z +
      weightFactor x v * (z - sincTaylor v) +
      (weightFactor x v * sincTaylor v - sincTaylor (x * v)) + (sincTaylor (x * v) - z') := by
    ring
  have hfirst : |(weightFactor x u - weightFactor x v) * z| ≤ 1e-20 * 2 := by
    rw [abs_mul]
    refine mul_le_mul ?_ hzabs (abs_nonneg z) (by norm_num)
    exact (weightFactor_moves hx0 hx1 hu0 (by linarith) (by linarith)).trans (by linarith)
  have hsecond : |weightFactor x v * (z - sincTaylor v)| ≤ 1.5 * 1e-18 := by
    rw [abs_mul]
    exact mul_le_mul (weightFactor_le hx0 hx1 hv0 (by linarith)) (hz.trans hrest) (abs_nonneg _)
      (by norm_num)
  have hthird := weightFactor_defect hx0 hx1 hv0 (by linarith : v ≤ 1)
  rw [abs_sub_comm] at hz'
  obtain ⟨hfirst, hfirst'⟩ := abs_le.mp hfirst
  obtain ⟨hsecond, hsecond'⟩ := abs_le.mp hsecond
  obtain ⟨hthird, hthird'⟩ := abs_le.mp hthird
  obtain ⟨hfourth, hfourth'⟩ := abs_le.mp (hz'.trans hrest')
  rw [hsplit, abs_le]
  constructor <;> linarith

/-- **Main theorem.** Inside the unit interval and up to the threshold, the weight of the series
    is off by at most `1e-15` of itself. -/
theorem slerpWeight_relative {a theta : ℝ} (ha0 : 0 ≤ a) (ha1 : a ≤ 1) (h0 : 0 < theta)
    (htheta : theta ≤ 0.15) :
    |slerpWeight a (thetaSqFromChord (1 - Real.cos theta)) -
        Real.sin (a * theta) / Real.sin theta| ≤
      1e-15 * (Real.sin (a * theta) / Real.sin theta) := by
  obtain ⟨z, hsin, hz⟩ := exists_sinc h0.le
  obtain ⟨z', hsin', hz'⟩ := exists_sinc (mul_nonneg ha0 h0.le)
  rw [mul_pow] at hz'
  have hx0 : 0 ≤ a ^ 2 := sq_nonneg a
  have hx1 : a ^ 2 ≤ 1 := pow_le_one₀ ha0 ha1
  have hclose := weightFactor_close hx0 hx1 h0.le htheta hz hz'
  have hpos : 0 < Real.sin theta :=
    Real.sin_pos_of_pos_of_lt_pi h0 (by linarith [Real.pi_gt_three])
  -- the sine of the part is nearly the part
  have hz'1 : 0.99 ≤ z' := by
    have hv : a ^ 2 * theta ^ 2 ≤ 0.0225 := by nlinarith [sq_nonneg theta]
    have hT := (sincTaylor_bounds (by positivity) hv).1
    have hrest : (a ^ 2 * theta ^ 2) ^ 6 / ((13).factorial : ℝ) ≤ 1e-3 := by
      have hone : (a ^ 2 * theta ^ 2) ^ 6 ≤ 1 := pow_le_one₀ (by positivity) (by linarith)
      norm_num [Nat.factorial]
      linarith
    linarith [(abs_le.mp hz').1]
  have hdiff : slerpWeight a (thetaSqFromChord (1 - Real.cos theta)) -
      Real.sin (a * theta) / Real.sin theta = a * theta / Real.sin theta *
      (weightFactor (a ^ 2) (thetaSqFromChord (1 - Real.cos theta)) * z - z') := by
    rw [slerpWeight_eq_mul, hsin', eq_comm, div_mul_eq_mul_div, eq_sub_iff_add_eq, ← add_div,
      div_eq_iff hpos.ne', hsin]
    ring
  have hfrac : 0 ≤ a * theta / Real.sin theta := by positivity
  calc |slerpWeight a (thetaSqFromChord (1 - Real.cos theta)) -
        Real.sin (a * theta) / Real.sin theta|
      = a * theta / Real.sin theta *
          |weightFactor (a ^ 2) (thetaSqFromChord (1 - Real.cos theta)) * z - z'| := by
        rw [hdiff, abs_mul, abs_of_nonneg hfrac]
    _ ≤ a * theta / Real.sin theta * (1e-15 * z') :=
        mul_le_mul_of_nonneg_left (hclose.trans (by linarith)) hfrac
    _ = 1e-15 * (Real.sin (a * theta) / Real.sin theta) := by
        rw [hsin']
        ring

/-- Halfway along an arc of a tenth. -/
theorem slerpWeight_relative_half :
    |slerpWeight (1 / 2) (thetaSqFromChord (1 - Real.cos (1 / 10))) -
        Real.sin (1 / 2 * (1 / 10)) / Real.sin (1 / 10)| ≤
      1e-15 * (Real.sin (1 / 2 * (1 / 10)) / Real.sin (1 / 10)) :=
  slerpWeight_relative (by norm_num) (by norm_num) (by norm_num) (by norm_num)

end TfTree
