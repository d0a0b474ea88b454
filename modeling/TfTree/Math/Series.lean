import Mathlib
import TfTree.Data.Taylor
import TfTree.Math.Rigid
import TfTree.Math.Screw

/-!
# How far the series of the weights carry

`slerp_weight` and `theta_sq_from_chord` (`tf_tree_math/src/interp.rs`) over the real
numbers. The weight `sin(aφ)/sin φ` is a double series in the angle `φ` and in `aφ`, cut off
at the fifth power of `φ²`. What is cut off is small when `aφ` is, and nothing bounds `aφ`
by the angle alone.

Results:
* `chordSum_enclosed`, `thetaSqFromChord_close`: the squared angle of a chord.
* `weightSum_close`, `weightSum_deriv_close`: the weights against the sine.
* `weights_close`: the two weights of `ScrewParts::pow` up to `sφ = 3/2`.
-/

namespace TfTree

open Data.Taylor

/-- The functions of `libm`, exactly. -/
@[reducible] noncomputable def exactLibm : Libm ℝ where
  toScalar := exactScalar ℝ
  toOfScientific := inferInstance
  sqrt := Real.sqrt
  sin := Real.sin
  cos := Real.cos
  acos := Real.arccos
  atan2 y x := Complex.arg ⟨x, y⟩
  lt a b := decide (a < b)
  le a b := decide (a ≤ b)
  eq a b := decide (a = b)

noncomputable local instance : Libm ℝ := exactLibm

/-! ## The chord -/

theorem thetaSqFromChord_real (h : ℝ) : thetaSqFromChord h =
    2 * h * (1 + h * (1 / 6 + h * (2 / 45 + h * (1 / 70 + h * (8 / 1575 + h * (4 / 2079 +
      h * (16 / 21021 + h * (2 / 6435)))))))) := by
  unfold thetaSqFromChord
  norm_num

/-- Powers of a small number, against the number itself. -/
theorem pow_succ_le_of_le {v c : ℝ} (h0 : 0 ≤ v) (hc : v ≤ c) (k : ℕ) :
    v ^ (k + 1) ≤ c ^ k * v := by
  rw [pow_succ]
  exact mul_le_mul_of_nonneg_right (pow_le_pow_left₀ h0 hc k) h0

/-- The coefficients of `φ²` in powers of the chord. -/
noncomputable def chordCoeff : ℕ → ℝ
  | 0 => 2
  | 1 => 1 / 3
  | 2 => 4 / 45
  | 3 => 1 / 35
  | 4 => 16 / 1575
  | 5 => 8 / 2079
  | 6 => 32 / 21021
  | _ => 4 / 6435

/-- The terms of `theta_sq_from_chord` at the angle `φ`. -/
noncomputable def chordSum (phi : ℝ) : ℝ :=
  ∑ k ∈ Finset.range 8, chordCoeff k * (1 - Real.cos phi) ^ (k + 1)

/-- The derivative of `chordSum`. -/
noncomputable def chordSumDeriv (phi : ℝ) : ℝ :=
  ∑ k ∈ Finset.range 8, chordCoeff k * (((k + 1 : ℕ) : ℝ) * (1 - Real.cos phi) ^ k * Real.sin phi)

theorem thetaSqFromChord_eq_chordSum (phi : ℝ) :
    thetaSqFromChord (1 - Real.cos phi) = chordSum phi := by
  rw [thetaSqFromChord_real]
  simp only [chordSum, chordCoeff, Finset.sum_range_succ, Finset.sum_range_zero]
  ring

theorem hasDerivAt_chord_pow (k : ℕ) (phi : ℝ) :
    HasDerivAt (fun phi => (1 - Real.cos phi) ^ k)
      (k * (1 - Real.cos phi) ^ (k - 1) * Real.sin phi) phi := by
  have hpow := ((Real.hasDerivAt_cos phi).const_sub 1).pow k
  rwa [neg_neg] at hpow

theorem hasDerivAt_chordSum (phi : ℝ) : HasDerivAt chordSum (chordSumDeriv phi) phi :=
  HasDerivAt.fun_sum fun k _ => (hasDerivAt_chord_pow (k + 1) phi).const_mul _

/-- The sum satisfies the differential equation of `φ²` up to the power its terms stop at. -/
theorem hasDerivAt_chordSumDeriv (phi : ℝ) :
    HasDerivAt chordSumDeriv (2 - 256 / 6435 * (1 - Real.cos phi) ^ 8) phi := by
  have hsum : HasDerivAt chordSumDeriv (∑ k ∈ Finset.range 8, chordCoeff k *
      (((k + 1 : ℕ) : ℝ) * (k * (1 - Real.cos phi) ^ (k - 1) * Real.sin phi) * Real.sin phi +
        ((k + 1 : ℕ) : ℝ) * (1 - Real.cos phi) ^ k * Real.cos phi)) phi :=
    HasDerivAt.fun_sum fun k _ => (((hasDerivAt_chord_pow k phi).const_mul _).fun_mul
      (Real.hasDerivAt_sin phi)).const_mul _
  refine hsum.congr_deriv ?_
  have hsq : Real.sin phi * Real.sin phi = (1 - Real.cos phi) * (2 - (1 - Real.cos phi)) := by
    linear_combination Real.sin_sq_add_cos_sq phi
  have hcos : Real.cos phi = 1 - (1 - Real.cos phi) := by ring
  generalize 1 - Real.cos phi = h at hsq hcos ⊢
  rw [hcos]
  simp only [chordCoeff, Finset.sum_range_succ, Finset.sum_range_zero]
  push_cast
  linear_combination (2 / 3 + 8 / 15 * h + 12 / 35 * h ^ 2 + 64 / 315 * h ^ 3 + 80 / 693 * h ^ 4 +
    64 / 1001 * h ^ 5 + 224 / 6435 * h ^ 6) * hsq

/-- What starts at `0` with the slope `0` and is convex is not negative. -/
theorem nonneg_of_second_deriv {f f' f'' : ℝ → ℝ} (h0 : f 0 = 0) (h0' : f' 0 = 0)
    (hd : ∀ x, HasDerivAt f (f' x) x) (hd' : ∀ x, HasDerivAt f' (f'' x) x)
    (hf : ∀ x, 0 ≤ x → 0 ≤ f'' x) {x : ℝ} (hx : 0 ≤ x) : 0 ≤ f x :=
  nonneg_of_deriv h0 hd (fun _ hy => nonneg_of_deriv h0' hd' hf hy) hx

theorem chordSum_zero : chordSum 0 = 0 := by
  simp [chordSum]

theorem chordSumDeriv_zero : chordSumDeriv 0 = 0 := by
  simp [chordSumDeriv]

/-- The sum stays below `φ²`, by no more than the power its terms stop at. -/
theorem chordSum_enclosed {phi : ℝ} (h0 : 0 ≤ phi) :
    0 ≤ phi ^ 2 - chordSum phi ∧ phi ^ 2 - chordSum phi ≤ phi ^ 18 / 1969110 := by
  have hsq : ∀ x : ℝ, HasDerivAt (fun x => x ^ 2) (2 * x) x := fun x => by
    simpa using hasDerivAt_pow 2 x
  have hlin : ∀ x : ℝ, HasDerivAt (fun x => 2 * x) 2 x := fun x => by
    simpa using (hasDerivAt_id x).const_mul 2
  constructor
  · refine nonneg_of_second_deriv (by simp [chordSum_zero]) (by simp [chordSumDeriv_zero])
      (fun x => (hsq x).fun_sub (hasDerivAt_chordSum x))
      (fun x => (hlin x).fun_sub (hasDerivAt_chordSumDeriv x)) (fun x _ => ?_) h0
    have hpow : 0 ≤ (1 - Real.cos x) ^ 8 := Even.pow_nonneg (by decide) _
    linarith
  · have h18 : ∀ x : ℝ, HasDerivAt (fun x => x ^ 18 / 1969110) (x ^ 17 / 109395) x := fun x => by
      refine ((hasDerivAt_pow 18 x).div_const 1969110).congr_deriv ?_
      norm_num
      ring
    have h17 : ∀ x : ℝ, HasDerivAt (fun x => x ^ 17 / 109395) (x ^ 16 / 6435) x := fun x => by
      refine ((hasDerivAt_pow 17 x).div_const 109395).congr_deriv ?_
      norm_num
      ring
    have hnn := nonneg_of_second_deriv (by simp [chordSum_zero]) (by simp [chordSumDeriv_zero])
      (fun x => (h18 x).fun_sub ((hsq x).fun_sub (hasDerivAt_chordSum x)))
      (fun x => (h17 x).fun_sub ((hlin x).fun_sub (hasDerivAt_chordSumDeriv x)))
      (fun x _ => ?_) h0
    · linarith
    · -- the chord is at most `x² / 2`
      have hpos : 0 ≤ 1 - Real.cos x := sub_nonneg.mpr (Real.cos_le_one x)
      have hle : 1 - Real.cos x ≤ x ^ 2 / 2 := by
        linarith [Real.one_sub_sq_div_two_le_cos (x := x)]
      have hpow : (1 - Real.cos x) ^ 8 ≤ (x ^ 2 / 2) ^ 8 := pow_le_pow_left₀ hpos hle 8
      rw [div_pow, ← pow_mul] at hpow
      linarith

/-- The squared angle of the chord, up to a relative error of `1e-19`. -/
theorem thetaSqFromChord_enclosed {phi : ℝ} (h0 : 0 ≤ phi) (hphi : phi ≤ 0.1501) :
    0 ≤ phi ^ 2 - thetaSqFromChord (1 - Real.cos phi) ∧
      phi ^ 2 - thetaSqFromChord (1 - Real.cos phi) ≤ 1e-19 * phi ^ 2 := by
  rw [thetaSqFromChord_eq_chordSum]
  obtain ⟨hlo, hhi⟩ := chordSum_enclosed h0
  refine ⟨hlo, hhi.trans ?_⟩
  have hpow : phi ^ 16 ≤ 0.1501 ^ 16 := pow_le_pow_left₀ h0 hphi 16
  have hmul := mul_le_mul_of_nonneg_right hpow (sq_nonneg phi)
  rw [← pow_add] at hmul
  norm_num at hmul ⊢
  linarith [sq_nonneg phi]

/-- The squared angle of the chord, up to a relative error of `1e-9`. -/
theorem thetaSqFromChord_close {phi : ℝ} (h0 : 0 ≤ phi) (hphi : phi ≤ 0.1501) :
    |thetaSqFromChord (1 - Real.cos phi) - phi ^ 2| ≤ 1e-9 * phi ^ 2 := by
  obtain ⟨hlo, hhi⟩ := thetaSqFromChord_enclosed h0 hphi
  rw [abs_le]
  constructor <;> linarith [sq_nonneg phi]

/-! ## The cosecant -/

/-- The coefficients of `φ / sin φ` in powers of `φ²`. -/
noncomputable def cscCoeff : ℕ → ℝ
  | 0 => 1
  | 1 => 1 / 6
  | 2 => 7 / 360
  | 3 => 31 / 15120
  | 4 => 127 / 604800
  | _ => 73 / 3421440

/-- The terms of `φ / sin φ` up to the power `n` of `v = φ²`. -/
noncomputable def cscSum (n : ℕ) (v : ℝ) : ℝ := ∑ j ∈ Finset.range (n + 1), cscCoeff j * v ^ j

/-- What the sums leave out, for `φ ≤ 0.1502`. -/
noncomputable def cscTail : ℕ → ℝ
  | 0 => 4e-3
  | 1 => 1.2e-5
  | 2 => 3e-8
  | _ => 1e-9

/-- The sine between two sums of its series, divided by the angle. -/
theorem sinc_enclosed {phi : ℝ} (h0 : 0 < phi) :
    1 - phi ^ 2 / 6 + phi ^ 4 / 120 - phi ^ 6 / 5040 ≤ Real.sin phi / phi ∧
      Real.sin phi / phi ≤ 1 - phi ^ 2 / 6 + phi ^ 4 / 120 - phi ^ 6 / 5040 + phi ^ 8 / 362880 := by
  have hlo := sin_alternates (n := 4) (by norm_num) h0.le
  have hhi := sin_alternates (n := 5) (by norm_num) h0.le
  simp [sinTaylor, Finset.sum_range_succ, Nat.factorial] at hlo hhi
  rw [le_div_iff₀ h0, div_le_iff₀ h0]
  constructor <;> linarith

/-- The sums of the cosecant. -/
theorem cscSum_close {phi : ℝ} (h0 : 0 < phi) (hphi : phi ≤ 0.1502) {n : ℕ} (hn : n ≤ 5) :
    |cscSum n (phi ^ 2) - phi / Real.sin phi| ≤ cscTail n := by
  obtain ⟨hlo, hhi⟩ := sinc_enclosed h0
  rw [← inv_div (Real.sin phi) phi]
  generalize Real.sin phi / phi = z at hlo hhi ⊢
  have hv0 : 0 ≤ phi ^ 2 := sq_nonneg phi
  have hvc : phi ^ 2 ≤ 0.02257 := by nlinarith
  rw [show phi ^ 4 = (phi ^ 2) ^ 2 by ring, show phi ^ 6 = (phi ^ 2) ^ 3 by ring] at hlo hhi
  rw [show phi ^ 8 = (phi ^ 2) ^ 4 by ring] at hhi
  generalize phi ^ 2 = v at hv0 hvc hlo hhi ⊢
  have hpow : ∀ k : ℕ, v ^ k ≤ 0.02257 ^ k := fun k => pow_le_pow_left₀ hv0 hvc k
  have hnn : ∀ k : ℕ, 0 ≤ v ^ k := fun k => pow_nonneg hv0 k
  have hz : 0.99 ≤ z := by linarith [hpow 3, hnn 2]
  have hz0 : 0 < z := by linarith
  -- the longest sum
  have hlast : |cscSum 5 v - z⁻¹| ≤ 1e-10 := by
    have hsum : cscSum 5 v = 1 + 1 / 6 * v + 7 / 360 * v ^ 2 + 31 / 15120 * v ^ 3 +
        127 / 604800 * v ^ 4 + 73 / 3421440 * v ^ 5 := by
      simp [cscSum, cscCoeff, Finset.sum_range_succ]
    have hsum0 : 0 ≤ cscSum 5 v := by
      rw [hsum]
      positivity
    have hup := mul_le_mul_of_nonneg_left hhi hsum0
    have hdown := mul_le_mul_of_nonneg_left hlo hsum0
    rw [hsum] at hup hdown
    have hup' : cscSum 5 v * z ≤ 1 + 1e-11 := by
      rw [hsum]
      linarith [hpow 4, hpow 5, hpow 6, hpow 7, hpow 8, hpow 9, hnn 4, hnn 5, hnn 6, hnn 7, hnn 8,
        hnn 9]
    have hdown' : 1 - 1e-11 ≤ cscSum 5 v * z := by
      rw [hsum]
      linarith [hpow 4, hpow 5, hpow 6, hpow 7, hpow 8, hnn 4, hnn 5, hnn 6, hnn 7, hnn 8]
    rw [show cscSum 5 v - z⁻¹ = (cscSum 5 v * z - 1) / z by field_simp, abs_div, abs_of_pos hz0,
      div_le_iff₀ hz0, abs_le]
    constructor <;> linarith
  -- the others are a few terms shorter
  have hshort : |cscSum n v - cscSum 5 v| ≤ cscTail n - 1e-10 := by
    rw [abs_sub_comm, abs_le]
    interval_cases n <;> simp only [cscSum, cscCoeff, cscTail, Finset.sum_range_succ,
      Finset.sum_range_zero] <;> constructor <;>
      linarith [hpow 1, hpow 2, hpow 3, hpow 4, hpow 5, hnn 1, hnn 2, hnn 3, hnn 4, hnn 5]
  have htri := abs_sub_le (cscSum n v) (cscSum 5 v) z⁻¹
  linarith

/-! ## The weights -/

/-- The double series of the weight times the angle: `y = aφ` and `v = φ²`. -/
noncomputable def weightSum (y v : ℝ) : ℝ :=
  ∑ i ∈ Finset.range 6, (-1) ^ i * (y ^ (2 * i + 1) / (2 * i + 1).factorial) * cscSum (5 - i) v

theorem slerpWeight_real (a u : ℝ) : slerpWeight a u =
    a * (1 + (1 - a ^ 2) * u * (1 / 6 + u * ((7 - 3 * a ^ 2) / 360 +
      u * ((31 - 18 * a ^ 2 + 3 * a ^ 4) / 15120 +
      u * ((381 - 239 * a ^ 2 + 55 * a ^ 4 - 5 * a ^ 6) / 1814400 +
      u * ((2555 - 1636 * a ^ 2 + 410 * a ^ 4 - 52 * a ^ 6 + 3 * a ^ 8) / 119750400)))))) := by
  unfold slerpWeight
  norm_num
  left
  ring

/-- `slerp_weight` is that series. -/
theorem slerpWeight_mul (a phi : ℝ) :
    slerpWeight a (phi ^ 2) * phi = weightSum (a * phi) (phi ^ 2) := by
  rw [slerpWeight_real]
  simp only [weightSum, cscSum, cscCoeff, Finset.sum_range_succ, Finset.sum_range_zero,
    Nat.factorial]
  push_cast
  ring

/-- An alternating sum whose factors are all close to `b`. -/
theorem alternating_close {n : ℕ} {c d e : ℕ → ℝ} {b x r : ℝ} (hc : ∀ i, 0 ≤ c i) (hb : 0 ≤ b)
    (hd : ∀ i < n, |d i - b| ≤ e i) (hx : |x - ∑ i ∈ Finset.range n, (-1) ^ i * c i| ≤ r) :
    |∑ i ∈ Finset.range n, (-1) ^ i * c i * d i - b * x| ≤
      ∑ i ∈ Finset.range n, c i * e i + b * r := by
  have hsplit : ∑ i ∈ Finset.range n, (-1) ^ i * c i * d i - b * x =
      ∑ i ∈ Finset.range n, (-1) ^ i * c i * (d i - b) +
        b * (∑ i ∈ Finset.range n, (-1) ^ i * c i - x) := by
    have hsum : ∑ i ∈ Finset.range n, (-1) ^ i * c i * (d i - b) =
        ∑ i ∈ Finset.range n, (-1) ^ i * c i * d i -
          b * ∑ i ∈ Finset.range n, (-1) ^ i * c i := by
      rw [Finset.mul_sum, ← Finset.sum_sub_distrib]
      exact Finset.sum_congr rfl fun i _ => by ring
    rw [hsum]
    ring
  rw [hsplit]
  refine (abs_add_le _ _).trans (add_le_add ?_ ?_)
  · refine (Finset.abs_sum_le_sum_abs _ _).trans (Finset.sum_le_sum fun i hi => ?_)
    rw [abs_mul, abs_mul, abs_pow, abs_neg, abs_one, one_pow, one_mul, abs_of_nonneg (hc i)]
    exact mul_le_mul_of_nonneg_left (hd i (Finset.mem_range.mp hi)) (hc i)
  · rw [abs_mul, abs_of_nonneg hb, abs_sub_comm]
    exact mul_le_mul_of_nonneg_left hx hb

/-- The derivative of `weightSum` in its first argument. -/
noncomputable def weightSumDeriv (y v : ℝ) : ℝ :=
  ∑ i ∈ Finset.range 6, (-1) ^ i * (y ^ (2 * i) / (2 * i).factorial) * cscSum (5 - i) v

theorem hasDerivAt_weightSum (y v : ℝ) :
    HasDerivAt (fun y => weightSum y v) (weightSumDeriv y v) y :=
  HasDerivAt.fun_sum fun i _ => ((hasDerivAt_term (2 * i) y).const_mul _).mul_const _

section Close

variable {phi y : ℝ}

theorem csc_bounds (h0 : 0 < phi) (hphi : phi ≤ 0.1502) :
    1 ≤ phi / Real.sin phi ∧ phi / Real.sin phi ≤ 1.004 := by
  have hpi := Real.pi_gt_three
  have hsin := Real.sin_pos_of_pos_of_lt_pi h0 (by linarith)
  have hclose := cscSum_close h0 hphi (n := 0) (by norm_num)
  simp only [cscSum, cscCoeff, cscTail, Finset.sum_range_succ, Finset.sum_range_zero] at hclose
  refine ⟨?_, ?_⟩
  · rw [le_div_iff₀ hsin, one_mul]
    exact Real.sin_le h0.le
  · have hle := (abs_le.mp hclose).1
    linarith

/-- The sum against the sine. -/
theorem weightSum_close (h0 : 0 < phi) (hphi : phi ≤ 0.1502) (hy : 0 ≤ y) :
    |weightSum y (phi ^ 2) - phi / Real.sin phi * Real.sin y| ≤
      ∑ i ∈ Finset.range 6, y ^ (2 * i + 1) / (2 * i + 1).factorial * cscTail (5 - i) +
        phi / Real.sin phi * (y ^ 13 / (13).factorial) := by
  have hb := (csc_bounds h0 hphi).1
  refine alternating_close (fun i => by positivity) (by linarith)
    (fun i _ => cscSum_close h0 hphi (Nat.sub_le 5 i)) ?_
  exact abs_sin_sub_le (n := 6) (by norm_num) hy

/-- Its derivative against the cosine. -/
theorem weightSumDeriv_close (h0 : 0 < phi) (hphi : phi ≤ 0.1502) (hy : 0 ≤ y) :
    |weightSumDeriv y (phi ^ 2) - phi / Real.sin phi * Real.cos y| ≤
      ∑ i ∈ Finset.range 6, y ^ (2 * i) / (2 * i).factorial * cscTail (5 - i) +
        phi / Real.sin phi * (y ^ 12 / (12).factorial) := by
  have hb := (csc_bounds h0 hphi).1
  refine alternating_close (fun i => by positivity) (by linarith)
    (fun i _ => cscSum_close h0 hphi (Nat.sub_le 5 i)) ?_
  exact abs_cos_sub_le (n := 6) (by norm_num) hy

/-- Up to `y = 3/2`, and a little more. -/
theorem weightSum_small (h0 : 0 < phi) (hphi : phi ≤ 0.1502) (hy : 0 ≤ y) (hy' : y ≤ 1.500001) :
    |weightSum y (phi ^ 2) - phi / Real.sin phi * Real.sin y| ≤ 4.5e-8 := by
  have hb := (csc_bounds h0 hphi).2
  have hb0 : 0 ≤ phi / Real.sin phi := zero_le_one.trans (csc_bounds h0 hphi).1
  have hpow : ∀ k : ℕ, y ^ k ≤ 1.500001 ^ k := fun k => pow_le_pow_left₀ hy hy' k
  refine (weightSum_close h0 hphi hy).trans ?_
  have hlast : phi / Real.sin phi * (y ^ 13 / (13).factorial) ≤
      1.004 * (1.500001 ^ 13 / (13).factorial) := by gcongr
  have hsum : ∑ i ∈ Finset.range 6, y ^ (2 * i + 1) / (2 * i + 1).factorial * cscTail (5 - i) ≤
      ∑ i ∈ Finset.range 6, 1.500001 ^ (2 * i + 1) / (2 * i + 1).factorial * cscTail (5 - i) := by
    refine Finset.sum_le_sum fun i hi => ?_
    have hi' := Finset.mem_range.mp hi
    have htail : 0 ≤ cscTail (5 - i) := by
      unfold cscTail
      split <;> norm_num
    gcongr
  refine (add_le_add hsum hlast).trans ?_
  simp only [cscTail, Finset.sum_range_succ, Finset.sum_range_zero, Nat.factorial]
  norm_num

theorem weightSumDeriv_small (h0 : 0 < phi) (hphi : phi ≤ 0.1502) (hy : 0 ≤ y)
    (hy' : y ≤ 1.500001) :
    |weightSumDeriv y (phi ^ 2) - phi / Real.sin phi * Real.cos y| ≤ 3.6e-7 := by
  have hb := (csc_bounds h0 hphi).2
  have hb0 : 0 ≤ phi / Real.sin phi := zero_le_one.trans (csc_bounds h0 hphi).1
  refine (weightSumDeriv_close h0 hphi hy).trans ?_
  have hlast : phi / Real.sin phi * (y ^ 12 / (12).factorial) ≤
      1.004 * (1.500001 ^ 12 / (12).factorial) := by gcongr
  have hsum : ∑ i ∈ Finset.range 6, y ^ (2 * i) / (2 * i).factorial * cscTail (5 - i) ≤
      ∑ i ∈ Finset.range 6, 1.500001 ^ (2 * i) / (2 * i).factorial * cscTail (5 - i) := by
    refine Finset.sum_le_sum fun i hi => ?_
    have hi' := Finset.mem_range.mp hi
    have htail : 0 ≤ cscTail (5 - i) := by
      unfold cscTail
      split <;> norm_num
    gcongr
  refine (add_le_add hsum hlast).trans ?_
  simp only [cscTail, Finset.sum_range_succ, Finset.sum_range_zero, Nat.factorial]
  norm_num

theorem weightSum_neg (y v : ℝ) : weightSum (-y) v = -weightSum y v := by
  unfold weightSum
  rw [← Finset.sum_neg_distrib]
  refine Finset.sum_congr rfl fun i _ => ?_
  rw [Odd.neg_pow ⟨i, rfl⟩]
  ring

/-- The error grows slowly. -/
theorem weightSum_slope (h0 : 0 < phi) (hphi : phi ≤ 0.1502) {z : ℝ} (hz : 0 ≤ z) (hzy : z ≤ y)
    (hy : y ≤ 1.500001) :
    |(weightSum y (phi ^ 2) - phi / Real.sin phi * Real.sin y) -
      (weightSum z (phi ^ 2) - phi / Real.sin phi * Real.sin z)| ≤ 3.6e-7 * (y - z) := by
  have hd : ∀ x ∈ Set.Icc (0 : ℝ) 1.500001, HasDerivWithinAt
      (fun x => weightSum x (phi ^ 2) - phi / Real.sin phi * Real.sin x)
      (weightSumDeriv x (phi ^ 2) - phi / Real.sin phi * Real.cos x) (Set.Icc 0 1.500001) x :=
    fun x _ => ((hasDerivAt_weightSum x _).sub
      ((Real.hasDerivAt_sin x).const_mul _)).hasDerivWithinAt
  have hbound : ∀ x ∈ Set.Icc (0 : ℝ) 1.500001,
      ‖weightSumDeriv x (phi ^ 2) - phi / Real.sin phi * Real.cos x‖ ≤ 3.6e-7 :=
    fun x hx => weightSumDeriv_small h0 hphi hx.1 hx.2
  have hmvt := (convex_Icc (0 : ℝ) 1.500001).norm_image_sub_le_of_norm_hasDerivWithin_le hd hbound
    (x := z) (y := y) ⟨hz, hzy.trans hy⟩ ⟨hz.trans hzy, hy⟩
  rwa [Real.norm_eq_abs, Real.norm_eq_abs, abs_of_nonneg (sub_nonneg.mpr hzy)] at hmvt

/-- The two weights, at the exact angle. -/
theorem slerpWeight_close {s : ℝ} (h0 : 0 < phi) (hphi : phi ≤ 0.1502) (hs : 1 ≤ s)
    (hy : s * phi ≤ 1.500001) :
    |slerpWeight s (phi ^ 2) * Real.sin phi - Real.sin (s * phi)| ≤ 4.5e-8 ∧
      |slerpWeight (1 - s) (phi ^ 2) + slerpWeight s (phi ^ 2) * Real.cos phi -
        Real.cos (s * phi)| ≤ 3.7e-7 := by
  have hb := csc_bounds h0 hphi
  have hpi := Real.pi_gt_three
  have hsin := Real.sin_pos_of_pos_of_lt_pi h0 (by linarith)
  have hz : 0 ≤ s * phi - phi := by nlinarith
  have hy0 : 0 ≤ s * phi := by positivity
  have herr := weightSum_small h0 hphi hy0 hy
  have hslope := weightSum_slope h0 hphi hz (by linarith) hy
  have hwb : slerpWeight s (phi ^ 2) = weightSum (s * phi) (phi ^ 2) / phi := by
    rw [eq_div_iff h0.ne']
    exact slerpWeight_mul s phi
  have hwa : slerpWeight (1 - s) (phi ^ 2) = -weightSum (s * phi - phi) (phi ^ 2) / phi := by
    rw [eq_div_iff h0.ne', slerpWeight_mul, ← weightSum_neg]
    congr 1
    ring
  have hadd : Real.sin (s * phi - phi) =
      Real.sin (s * phi) * Real.cos phi - Real.cos (s * phi) * Real.sin phi :=
    Real.sin_sub (s * phi) phi
  rw [hwb, hwa]
  generalize s * phi = y at hz hy0 hadd herr hslope ⊢
  constructor
  · have hquot : weightSum y (phi ^ 2) / phi * Real.sin phi - Real.sin y =
        (weightSum y (phi ^ 2) - phi / Real.sin phi * Real.sin y) / (phi / Real.sin phi) := by
      field_simp
    rw [hquot, abs_div, abs_of_pos (by linarith : 0 < phi / Real.sin phi)]
    exact (div_le_self (abs_nonneg _) hb.1).trans herr
  · have hquot : -weightSum (y - phi) (phi ^ 2) / phi +
        weightSum y (phi ^ 2) / phi * Real.cos phi - Real.cos y =
        ((weightSum y (phi ^ 2) - phi / Real.sin phi * Real.sin y) -
          (weightSum (y - phi) (phi ^ 2) - phi / Real.sin phi * Real.sin (y - phi))) / phi -
        (weightSum y (phi ^ 2) - phi / Real.sin phi * Real.sin y) * ((1 - Real.cos phi) / phi) := by
      rw [hadd]
      field_simp
      ring
    have hchord0 : 0 ≤ (1 - Real.cos phi) / phi :=
      div_nonneg (sub_nonneg.mpr (Real.cos_le_one phi)) h0.le
    have hchord : (1 - Real.cos phi) / phi ≤ 0.08 := by
      rw [div_le_iff₀ h0]
      have hcos := Real.one_sub_sq_div_two_le_cos (x := phi)
      nlinarith
    have hfirst : |((weightSum y (phi ^ 2) - phi / Real.sin phi * Real.sin y) -
        (weightSum (y - phi) (phi ^ 2) - phi / Real.sin phi * Real.sin (y - phi))) / phi| ≤
        3.6e-7 := by
      rw [abs_div, abs_of_pos h0, div_le_iff₀ h0]
      linarith
    have hsecond : |(weightSum y (phi ^ 2) - phi / Real.sin phi * Real.sin y) *
        ((1 - Real.cos phi) / phi)| ≤ 4.5e-8 * 0.08 := by
      rw [abs_mul, abs_of_nonneg hchord0]
      exact mul_le_mul herr hchord hchord0 (by norm_num)
    rw [hquot]
    have htri := abs_sub _ _ |>.trans (add_le_add hfirst hsecond)
    exact htri.trans (by norm_num)

/-- The angle the code recovers from a chord. -/
theorem sqrt_thetaSq_close (h0 : 0 ≤ phi) (hphi : phi ≤ 0.1501) :
    |√(thetaSqFromChord (1 - Real.cos phi)) - phi| ≤ 1e-9 * phi := by
  have hclose := abs_le.mp (thetaSqFromChord_close h0 hphi)
  rw [abs_le]
  constructor
  · have hle : phi - 1e-9 * phi ≤ √(thetaSqFromChord (1 - Real.cos phi)) := by
      refine Real.le_sqrt_of_sq_le ?_
      nlinarith [hclose.1, sq_nonneg phi]
    linarith
  · have hle : √(thetaSqFromChord (1 - Real.cos phi)) ≤ phi + 1e-9 * phi := by
      refine Real.sqrt_le_iff.mpr ⟨by positivity, ?_⟩
      nlinarith [hclose.2, sq_nonneg phi]
    linarith

/-- The two weights of the series arm of `ScrewParts::pow`, up to `sφ = 3/2`. -/
theorem weights_close {s : ℝ} (h0 : 0 < phi) (hphi : phi ≤ 0.1501) (hs : 1 ≤ s)
    (hy : s * phi ≤ 3 / 2) :
    |slerpWeight s (thetaSqFromChord (1 - Real.cos phi)) * Real.sin phi -
        Real.sin (s * phi)| ≤ 6e-8 ∧
      |slerpWeight (1 - s) (thetaSqFromChord (1 - Real.cos phi)) +
        slerpWeight s (thetaSqFromChord (1 - Real.cos phi)) * Real.cos phi -
        Real.cos (s * phi)| ≤ 3.8e-7 := by
  have hpsi := sqrt_thetaSq_close h0.le hphi
  have hu : √(thetaSqFromChord (1 - Real.cos phi)) ^ 2 = thetaSqFromChord (1 - Real.cos phi) := by
    refine Real.sq_sqrt ?_
    have hlo := (abs_le.mp (thetaSqFromChord_close h0.le hphi)).1
    nlinarith [sq_nonneg phi]
  rw [← hu]
  generalize √(thetaSqFromChord (1 - Real.cos phi)) = psi at hpsi ⊢
  obtain ⟨hlo, hhi⟩ := abs_le.mp hpsi
  have hpsi0 : 0 < psi := by linarith
  have hpsi' : psi ≤ 0.1502 := by linarith
  have harg : |s * psi - s * phi| ≤ 1.5e-9 := by
    rw [← mul_sub, abs_mul, abs_of_nonneg (by linarith : 0 ≤ s)]
    have hmul := mul_le_mul_of_nonneg_left hpsi (by linarith : 0 ≤ s)
    linarith
  have hy' : s * psi ≤ 1.500001 := by linarith [(abs_le.mp harg).2]
  obtain ⟨hsin, hcos⟩ := slerpWeight_close hpsi0 hpsi' hs hy'
  generalize slerpWeight (1 - s) (psi ^ 2) = wa at hcos ⊢
  generalize slerpWeight s (psi ^ 2) = wb at hsin hcos ⊢
  -- the weight itself is not large against the angle
  have hwb : |wb| * phi ≤ 1.02 := by
    have hcube := Real.sin_gt_sub_cube hpsi0
    have hthird := pow_succ_le_of_le hpsi0.le hpsi' 2
    have hge : phi ≤ 1.01 * Real.sin psi := by linarith
    have hpos : 0 < Real.sin psi := by linarith
    have hprod : |wb| * Real.sin psi ≤ 1.000001 := by
      rw [← abs_of_pos hpos, ← abs_mul]
      have hone := Real.abs_sin_le_one (s * psi)
      have htri := abs_sub_abs_le_abs_sub (wb * Real.sin psi) (Real.sin (s * psi))
      linarith
    have hmul := mul_le_mul_of_nonneg_left hge (abs_nonneg wb)
    linarith
  have hmove : ∀ {a b : ℝ}, |a - b| ≤ |phi - psi| → |wb * a - wb * b| ≤ 1.02e-9 := by
    intro a b hab
    rw [← mul_sub, abs_mul]
    have hle : |a - b| ≤ 1e-9 * phi := hab.trans (by rwa [abs_sub_comm])
    have hmul := mul_le_mul_of_nonneg_left hle (abs_nonneg wb)
    linarith
  have hs1 := hmove (Real.abs_sin_sub_sin_le phi psi)
  have hc1 := hmove (Real.abs_cos_sub_cos_le phi psi)
  have hs2 := (Real.abs_sin_sub_sin_le (s * psi) (s * phi)).trans harg
  have hc2 := (Real.abs_cos_sub_cos_le (s * psi) (s * phi)).trans harg
  rw [abs_le] at hsin hcos hs1 hc1 hs2 hc2
  constructor <;> rw [abs_le] <;> constructor <;> linarith

/-! ## Beyond the reach of the series -/

/-- What the sixth sum of the sine leaves out, against its last term. -/
theorem sinTaylor_far (hy : 2.0999 ≤ y) :
    0.025 * (y ^ 11 / (11).factorial) ≤ Real.sin y - sinTaylor 6 y := by
  have hy0 : 0 ≤ y := by linarith
  have hpow : ∀ k : ℕ, 0 ≤ y ^ k := fun k => pow_nonneg hy0 k
  rcases le_total y 11 with hle | hge
  · -- two more terms
    have hsin := sin_alternates (n := 8) (by norm_num) hy0
    simp [sinTaylor, Finset.sum_range_succ, Nat.factorial] at hsin ⊢
    have hz : 4.4095 ≤ y ^ 2 := by nlinarith
    have hz' : y ^ 2 ≤ 121 := by nlinarith
    have hprod : 0 ≤ y ^ 11 * ((y ^ 2 - 4.4095) * (121 - y ^ 2)) :=
      mul_nonneg (hpow 11) (mul_nonneg (by linarith) (by linarith))
    have hstep : 4.4095 * y ^ 11 ≤ y ^ 13 := by
      have hmul := mul_le_mul_of_nonneg_right hz (hpow 11)
      linarith
    linarith [hpow 11]
  · have hsin := Real.neg_one_le_sin y
    simp [sinTaylor, Finset.sum_range_succ, Nat.factorial]
    have hz : 121 ≤ y ^ 2 := by nlinarith
    have hstep : ∀ k : ℕ, 121 * y ^ k ≤ y ^ 2 * y ^ k :=
      fun k => mul_le_mul_of_nonneg_right hz (hpow k)
    linarith [hstep 1, hstep 5, hstep 9, hpow 11, hpow 3, hpow 5]

/-- Beyond `y = 2.1` the error is a part of the last term. -/
theorem weightSum_far (h0 : 0 < phi) (hphi : phi ≤ 0.1502) (hy : 2.0999 ≤ y) :
    0.02 * (y ^ 11 / (11).factorial) ≤
      phi / Real.sin phi * Real.sin y - weightSum y (phi ^ 2) := by
  have hb := (csc_bounds h0 hphi).1
  have hy0 : 0 ≤ y := by linarith
  have hfar := sinTaylor_far hy
  have hnn : 0 ≤ Real.sin y - sinTaylor 6 y := le_trans (by positivity) hfar
  have hclose : |weightSum y (phi ^ 2) - phi / Real.sin phi * sinTaylor 6 y| ≤
      ∑ i ∈ Finset.range 6, y ^ (2 * i + 1) / (2 * i + 1).factorial * cscTail (5 - i) +
        phi / Real.sin phi * 0 := by
    refine alternating_close (fun i => by positivity) (by linarith)
      (fun i _ => cscSum_close h0 hphi (Nat.sub_le 5 i)) ?_
    rw [sinTaylor, sub_self, abs_zero]
  have htail : ∑ i ∈ Finset.range 6, y ^ (2 * i + 1) / (2 * i + 1).factorial * cscTail (5 - i) ≤
      0.005 * (y ^ 11 / (11).factorial) := by
    have hz : 4.4095 ≤ y ^ 2 := by nlinarith
    have hstep : ∀ k : ℕ, 4.4095 * y ^ k ≤ y ^ 2 * y ^ k :=
      fun k => mul_le_mul_of_nonneg_right hz (pow_nonneg hy0 k)
    simp [Finset.sum_range_succ, cscTail, Nat.factorial]
    linarith [hstep 1, hstep 3, hstep 5, hstep 7, hstep 9]
  have hmul := mul_le_mul_of_nonneg_right hb hnn
  have hle := (abs_le.mp hclose).2
  linarith

/-- Beyond `sφ = 2.1` the second weight is off by more than `1e-6`. -/
theorem weights_far {s : ℝ} (h0 : 0 < phi) (hphi : phi ≤ 0.1501) (hs : 1 ≤ s)
    (hy : 21 / 10 ≤ s * phi) :
    1.1e-6 < |slerpWeight s (thetaSqFromChord (1 - Real.cos phi)) * Real.sin phi -
      Real.sin (s * phi)| := by
  have hpsi := sqrt_thetaSq_close h0.le hphi
  have hu : √(thetaSqFromChord (1 - Real.cos phi)) ^ 2 = thetaSqFromChord (1 - Real.cos phi) := by
    refine Real.sq_sqrt ?_
    have hlo := (abs_le.mp (thetaSqFromChord_close h0.le hphi)).1
    nlinarith [sq_nonneg phi]
  rw [← hu]
  generalize √(thetaSqFromChord (1 - Real.cos phi)) = psi at hpsi ⊢
  obtain ⟨hlo, hhi⟩ := abs_le.mp hpsi
  have hpsi0 : 0 < psi := by linarith
  have hpsi' : psi ≤ 0.1502 := by linarith
  have harg : |s * psi - s * phi| ≤ 1e-9 * (s * phi) := by
    rw [← mul_sub, abs_mul, abs_of_nonneg (by linarith : 0 ≤ s)]
    have hmul := mul_le_mul_of_nonneg_left hpsi (by linarith : 0 ≤ s)
    linarith
  obtain ⟨harg1, harg2⟩ := abs_le.mp harg
  have hy' : 2.0999 ≤ s * psi := by linarith
  have hb := csc_bounds hpsi0 hpsi'
  have hpi := Real.pi_gt_three
  have hsin0 := Real.sin_pos_of_pos_of_lt_pi hpsi0 (by linarith)
  -- the second weight at the recovered angle
  have hfar := weightSum_far hpsi0 hpsi' hy'
  rw [← slerpWeight_mul] at hfar
  generalize slerpWeight s (psi ^ 2) = w at hfar ⊢
  have hgap : 0.0199 * ((s * psi) ^ 11 / (11).factorial) ≤
      Real.sin (s * psi) - w * Real.sin psi := by
    have hscale : psi / Real.sin psi * Real.sin (s * psi) - w * psi =
        psi / Real.sin psi * (Real.sin (s * psi) - w * Real.sin psi) := by
      field_simp
    rw [hscale] at hfar
    have hpos : 0 ≤ (s * psi) ^ 11 / (11).factorial := by positivity
    by_contra hlt
    nlinarith [not_le.mp hlt]
  -- the angle itself
  have hsin : |w * Real.sin phi - w * Real.sin psi| ≤ 1.1e-9 * |w * Real.sin psi| := by
    have hcube := Real.sin_gt_sub_cube hpsi0
    have hthird := pow_succ_le_of_le hpsi0.le hpsi' 2
    have hge : phi ≤ 1.01 * Real.sin psi := by linarith
    have hmove : |Real.sin phi - Real.sin psi| ≤ 1.1e-9 * Real.sin psi := by
      have hle := (Real.abs_sin_sub_sin_le phi psi).trans (by rwa [abs_sub_comm] :
        |phi - psi| ≤ 1e-9 * phi)
      linarith
    rw [← mul_sub, abs_mul, abs_mul, abs_of_pos hsin0]
    have hmul := mul_le_mul_of_nonneg_left hmove (abs_nonneg w)
    linarith
  have hlast : 4.1e-5 * (s * psi) ≤ (s * psi) ^ 11 / (11).factorial := by
    have hten : (2.0999 : ℝ) ^ 10 ≤ (s * psi) ^ 10 := pow_le_pow_left₀ (by norm_num) hy' 10
    have hmul := mul_le_mul_of_nonneg_right hten (by linarith : 0 ≤ s * psi)
    rw [← pow_succ] at hmul
    norm_num [Nat.factorial] at hmul ⊢
    linarith
  have hone := abs_le.mp (Real.abs_sin_le_one (s * psi))
  have hdiff := abs_le.mp ((Real.abs_sin_sub_sin_le (s * psi) (s * phi)).trans harg)
  have habs : |w * Real.sin psi| ≤ 1 + (Real.sin (s * psi) - w * Real.sin psi) := by
    have hnn : 0 ≤ Real.sin (s * psi) - w * Real.sin psi := le_trans (by positivity) hgap
    rw [abs_le]
    constructor <;> linarith
  obtain ⟨-, hlow⟩ := abs_le.mp hsin
  obtain ⟨-, hsame⟩ := hdiff
  rw [lt_abs]
  right
  generalize (s * psi) ^ 11 / ((11).factorial : ℝ) = x at hgap hlast
  generalize |w * Real.sin psi| = a at habs hlow hsin
  linarith

end Close

end TfTree
