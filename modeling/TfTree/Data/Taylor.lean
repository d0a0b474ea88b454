import Mathlib
import TfTree.Data.Numerals

/-!
# Sine and cosine between their partial sums

The series of the sine and of the cosine alternate: from `0` on, the partial sums lie on
alternating sides, so that the first omitted term bounds the error. This holds for every
argument, also where the terms still grow.

* `hasDerivAt_sinTaylor`, `hasDerivAt_cosTaylor`: the sums are derivatives of each other.
* `cos_alternates`, `sin_alternates`: the sides.
* `abs_cos_sub_le`, `abs_sin_sub_le`: the error.
-/

namespace TfTree.Data.Taylor

open Finset

/-- The first `n` terms of the series of the cosine. -/
noncomputable def cosTaylor (n : ℕ) (x : ℝ) : ℝ :=
  ∑ i ∈ range n, (-1) ^ i * (x ^ (2 * i) / (2 * i).factorial)

/-- The first `n` terms of the series of the sine. -/
noncomputable def sinTaylor (n : ℕ) (x : ℝ) : ℝ :=
  ∑ i ∈ range n, (-1) ^ i * (x ^ (2 * i + 1) / (2 * i + 1).factorial)

theorem hasDerivAt_term (k : ℕ) (x : ℝ) :
    HasDerivAt (fun x : ℝ => x ^ (k + 1) / (k + 1).factorial) (x ^ k / k.factorial) x := by
  have hpow := (hasDerivAt_pow (k + 1) x).div_const ((k + 1).factorial : ℝ)
  have hk : ((k + 1 : ℕ) : ℝ) ≠ 0 := Nat.cast_ne_zero.mpr k.succ_ne_zero
  rwa [Nat.factorial_succ, Nat.cast_mul, Nat.add_sub_cancel, mul_div_mul_left _ _ hk,
    ← Nat.cast_mul, ← Nat.factorial_succ] at hpow

theorem hasDerivAt_sinTaylor (n : ℕ) (x : ℝ) :
    HasDerivAt (sinTaylor n) (cosTaylor n x) x :=
  HasDerivAt.fun_sum fun i _ => (hasDerivAt_term (2 * i) x).const_mul _

theorem cosTaylor_succ (n : ℕ) (x : ℝ) : cosTaylor (n + 1) x =
    1 - ∑ i ∈ range n, (-1) ^ i * (x ^ (2 * i + 1 + 1) / (2 * i + 1 + 1).factorial) := by
  rw [cosTaylor, sum_range_succ', sub_eq_neg_add, ← sum_neg_distrib]
  simp [pow_succ, Nat.mul_succ]

theorem hasDerivAt_cosTaylor (n : ℕ) (x : ℝ) :
    HasDerivAt (cosTaylor (n + 1)) (-sinTaylor n x) x := by
  have hsum := HasDerivAt.fun_sum fun i (_ : i ∈ range n) =>
    (hasDerivAt_term (2 * i + 1) x).const_mul ((-1) ^ i)
  have hone := hsum.const_sub 1
  rwa [← funext (cosTaylor_succ n)] at hone

theorem cosTaylor_zero_right (n : ℕ) : cosTaylor (n + 1) 0 = 1 := by
  rw [cosTaylor_succ]
  simp

theorem sinTaylor_zero_right (n : ℕ) : sinTaylor n 0 = 0 := by simp [sinTaylor]

/-- What starts at `0` and does not decrease is not negative. -/
theorem nonneg_of_deriv {f f' : ℝ → ℝ} (h0 : f 0 = 0) (hd : ∀ x, HasDerivAt f (f' x) x)
    (hf : ∀ x, 0 ≤ x → 0 ≤ f' x) {x : ℝ} (hx : 0 ≤ x) : 0 ≤ f x := by
  have hmono : MonotoneOn f (Set.Ici 0) := by
    refine monotoneOn_of_deriv_nonneg (convex_Ici 0) ?_ ?_ ?_
    · exact fun y _ => (hd y).continuousAt.continuousWithinAt
    · exact fun y _ => (hd y).differentiableAt.differentiableWithinAt
    · intro y hy
      rw [interior_Ici] at hy
      rw [(hd y).deriv]
      exact hf y (Set.mem_Ioi.mp hy).le
  have hle := hmono (Set.mem_Ici.mpr le_rfl) (Set.mem_Ici.mpr hx) hx
  rwa [h0] at hle

/-- The sides, of the two sums in turn. -/
theorem alternates (n : ℕ) :
    (∀ x, 0 ≤ x → 0 ≤ (-1) ^ (n + 1) * (Real.cos x - cosTaylor (n + 1) x)) ∧
      ∀ x, 0 ≤ x → 0 ≤ (-1) ^ (n + 1) * (Real.sin x - sinTaylor (n + 1) x) := by
  -- a sum of the sine follows from that of the cosine by integration
  have hsin : ∀ n, (∀ x, 0 ≤ x → 0 ≤ (-1) ^ n * (Real.cos x - cosTaylor n x)) →
      ∀ x, 0 ≤ x → 0 ≤ (-1) ^ n * (Real.sin x - sinTaylor n x) := by
    intro n hcos x hx
    refine nonneg_of_deriv (f := fun x => (-1) ^ n * (Real.sin x - sinTaylor n x)) ?_
      (fun y => ((Real.hasDerivAt_sin y).sub (hasDerivAt_sinTaylor n y)).const_mul _) hcos hx
    simp [sinTaylor_zero_right]
  induction n with
  | zero =>
    have hcos : ∀ x : ℝ, 0 ≤ x → 0 ≤ (-1) ^ (0 + 1) * (Real.cos x - cosTaylor (0 + 1) x) := by
      intro x _
      have hle := Real.cos_le_one x
      simp [cosTaylor]
      linarith
    exact ⟨hcos, hsin _ hcos⟩
  | succ n ih =>
    have hcos : ∀ x : ℝ, 0 ≤ x →
        0 ≤ (-1) ^ (n + 1 + 1) * (Real.cos x - cosTaylor (n + 1 + 1) x) := by
      intro x hx
      refine nonneg_of_deriv
        (f := fun x => (-1) ^ (n + 1 + 1) * (Real.cos x - cosTaylor (n + 1 + 1) x)) ?_
        (fun y => ((Real.hasDerivAt_cos y).sub (hasDerivAt_cosTaylor (n + 1) y)).const_mul _)
        (fun y hy => ?_) hx
      · simp [cosTaylor_zero_right]
      · have hy' := ih.2 y hy
        rw [pow_succ]
        linarith
    exact ⟨hcos, hsin _ hcos⟩

theorem cos_alternates {n : ℕ} (hn : n ≠ 0) {x : ℝ} (hx : 0 ≤ x) :
    0 ≤ (-1) ^ n * (Real.cos x - cosTaylor n x) := by
  obtain ⟨n, rfl⟩ := Nat.exists_eq_succ_of_ne_zero hn
  exact (alternates n).1 x hx

theorem sin_alternates {n : ℕ} (hn : n ≠ 0) {x : ℝ} (hx : 0 ≤ x) :
    0 ≤ (-1) ^ n * (Real.sin x - sinTaylor n x) := by
  obtain ⟨n, rfl⟩ := Nat.exists_eq_succ_of_ne_zero hn
  exact (alternates n).2 x hx

/-- Between two sides that are one term apart. -/
theorem abs_sub_le_of_alternates {n : ℕ} {a b c : ℝ} (h : 0 ≤ (-1) ^ n * (a - b))
    (h' : 0 ≤ (-1) ^ (n + 1) * (a - (b + (-1) ^ n * c))) : |a - b| ≤ c := by
  rcases neg_one_pow_eq_or ℝ n with hn | hn
  · rw [pow_succ, hn] at h'
    rw [hn] at h
    rw [abs_of_nonneg (by linarith)]
    linarith
  · rw [pow_succ, hn] at h'
    rw [hn] at h
    rw [abs_of_nonpos (by linarith)]
    linarith

/-- The first omitted term bounds the error of the cosine. -/
theorem abs_cos_sub_le {n : ℕ} (hn : n ≠ 0) {x : ℝ} (hx : 0 ≤ x) :
    |Real.cos x - cosTaylor n x| ≤ x ^ (2 * n) / (2 * n).factorial := by
  refine abs_sub_le_of_alternates (cos_alternates hn hx) ?_
  have hnext := cos_alternates n.succ_ne_zero hx
  rwa [Nat.succ_eq_add_one, cosTaylor, sum_range_succ] at hnext

/-- The first omitted term bounds the error of the sine. -/
theorem abs_sin_sub_le {n : ℕ} (hn : n ≠ 0) {x : ℝ} (hx : 0 ≤ x) :
    |Real.sin x - sinTaylor n x| ≤ x ^ (2 * n + 1) / (2 * n + 1).factorial := by
  refine abs_sub_le_of_alternates (sin_alternates hn hx) ?_
  have hnext := sin_alternates n.succ_ne_zero hx
  rwa [Nat.succ_eq_add_one, sinTaylor, sum_range_succ] at hnext

end TfTree.Data.Taylor
