import Mathlib
import TfTree.Math.Reference

/-!
# The quaternion of a rotation matrix

`quat_from_rot3` (`tf_tree_math/src/quat.rs`) takes one of four branches. Over the real numbers
each of them is a row of one symmetric matrix, `4 q qᵀ` for the matrix of a unit quaternion `q`,
divided by twice the root of its entry on the diagonal.

Results:
* `quatFromRot3_eq`: the branches as rows, for any nine numbers.
* `one_le_pivot`: the entry on the diagonal is at least `1`, so that nothing is divided by zero.
* `quatFromRot3_rot3`: the matrix of a unit quaternion gives the quaternion back, up to sign.
* `quatFromRot3_near`: near such a matrix, the products of the components move little.
-/

namespace TfTree

section Model

variable {F : Type} [Libm F]

open Libm

/-- `quat_from_rot3_native` (`quat.rs`, lines 328–368), on a row-major matrix. -/
def quatFromRot3 (r : Fin 9 → F) : Quat F :=
  let trace := r 0 + r 4 + r 8
  if lt 0.0 trace then
    let s := sqrt (trace + 1.0) * 2.0
    ⟨0.25 * s, (r 7 - r 5) / s, (r 2 - r 6) / s, (r 3 - r 1) / s⟩
  else if lt (r 4) (r 0) && lt (r 8) (r 0) then
    let s := sqrt (1.0 + r 0 - r 4 - r 8) * 2.0
    ⟨(r 7 - r 5) / s, 0.25 * s, (r 1 + r 3) / s, (r 2 + r 6) / s⟩
  else if lt (r 8) (r 4) then
    let s := sqrt (1.0 + r 4 - r 0 - r 8) * 2.0
    ⟨(r 2 - r 6) / s, (r 1 + r 3) / s, 0.25 * s, (r 5 + r 7) / s⟩
  else
    let s := sqrt (1.0 + r 8 - r 0 - r 4) * 2.0
    ⟨(r 3 - r 1) / s, (r 2 + r 6) / s, (r 5 + r 7) / s, 0.25 * s⟩

/-- The number `s` of `quat_from_rot3_native`: what the branch that is taken divides by. -/
def quatFromRot3Divisor (r : Fin 9 → F) : F :=
  let trace := r 0 + r 4 + r 8
  if lt 0.0 trace then sqrt (trace + 1.0) * 2.0
  else if lt (r 4) (r 0) && lt (r 8) (r 0) then sqrt (1.0 + r 0 - r 4 - r 8) * 2.0
  else if lt (r 8) (r 4) then sqrt (1.0 + r 4 - r 0 - r 8) * 2.0
  else sqrt (1.0 + r 8 - r 0 - r 4) * 2.0

/-- `rot3` (`tf_tree_c/src/layout.rs`, lines 49–65), of the quaternion of the transform. -/
def rot3 (q : Quat F) : Fin 9 → F :=
  let (w, x, y, z) := (q.w, q.x, q.y, q.z)
  let (xx, yy, zz) := (x * x, y * y, z * z)
  let (xy, xz, yz) := (x * y, x * z, y * z)
  let (wx, wy, wz) := (w * x, w * y, w * z)
  ![1.0 - 2.0 * (yy + zz), 2.0 * (xy - wz), 2.0 * (xz + wy),
    2.0 * (xy + wz), 1.0 - 2.0 * (xx + zz), 2.0 * (yz - wx),
    2.0 * (xz - wy), 2.0 * (yz + wx), 1.0 - 2.0 * (xx + yy)]

end Model

noncomputable local instance rot3Libm : Libm ℝ := exactLibm

/-! ## Branches and rows -/

/-- The component a branch takes the root of. -/
inductive Pivot where
  | w
  | x
  | y
  | z
  deriving DecidableEq, Repr

/-- A component of a quaternion. -/
def Quat.get {F : Type} (q : Quat F) : Pivot → F
  | .w => q.w
  | .x => q.x
  | .y => q.y
  | .z => q.z

section Rows

variable (r : Fin 9 → ℝ)

/-- The branch that is taken. -/
noncomputable def pivot : Pivot :=
  if 0 < r 0 + r 4 + r 8 then .w
  else if r 4 < r 0 ∧ r 8 < r 0 then .x
  else if r 8 < r 4 then .y
  else .z

/-- The rows of the symmetric matrix. -/
def pivotRow : Pivot → Quat ℝ
  | .w => ⟨1 + r 0 + r 4 + r 8, r 7 - r 5, r 2 - r 6, r 3 - r 1⟩
  | .x => ⟨r 7 - r 5, 1 + r 0 - r 4 - r 8, r 1 + r 3, r 2 + r 6⟩
  | .y => ⟨r 2 - r 6, r 1 + r 3, 1 + r 4 - r 0 - r 8, r 5 + r 7⟩
  | .z => ⟨r 3 - r 1, r 2 + r 6, r 5 + r 7, 1 + r 8 - r 0 - r 4⟩

/-- The number whose root the branch divides by. -/
noncomputable def pivotSq : ℝ := (pivotRow r (pivot r)).get (pivot r)

/-- In every branch, for any nine numbers, the root is that of a number of at least `1`. -/
theorem one_le_pivot : 1 ≤ pivotSq r := by
  unfold pivotSq pivot
  split_ifs with hw hx hy
  · simp only [pivotRow, Quat.get]
    linarith
  · simp only [pivotRow, Quat.get]
    linarith [hx.1, hx.2]
  · -- the first entry is not the greatest, and the second exceeds the third
    have h04 : r 0 ≤ r 4 := by
      by_contra hlt
      exact hx ⟨not_le.mp hlt, hy.trans (not_le.mp hlt)⟩
    simp only [pivotRow, Quat.get]
    linarith
  · have h08 : r 0 ≤ r 8 := by
      by_contra hlt
      exact hx ⟨(not_lt.mp hy).trans_lt (not_le.mp hlt), not_le.mp hlt⟩
    simp only [pivotRow, Quat.get]
    linarith

/-- A quarter of the divisor is the component of the row divided by it. -/
theorem quarter_divisor {c : ℝ} (hc : 1 ≤ c) : 0.25 * (√c * 2) = c / (√c * 2) := by
  have hpos : 0 < √c := Real.sqrt_pos.mpr (by linarith)
  have hsq := Real.mul_self_sqrt (by linarith : 0 ≤ c)
  rw [eq_div_iff (by positivity)]
  norm_num
  linear_combination hsq

/-- The branches are the rows, divided by twice the root of the entry on the diagonal. -/
theorem quatFromRot3_eq : quatFromRot3 r =
    (pivotRow r (pivot r)).scale (1 / (√(pivotSq r) * 2)) := by
  have hzero : (0.0 : ℝ) = 0 := by norm_num
  have hone : (1.0 : ℝ) = 1 := by norm_num
  have htwo : (2.0 : ℝ) = 2 := by norm_num
  have hle := one_le_pivot r
  have hquarter := quarter_divisor hle
  unfold quatFromRot3
  simp only [exact_lt, exact_sqrt, Bool.and_eq_true, hzero, hone, htwo]
  unfold pivotSq pivot at *
  split_ifs at * with hw hx hy
  · simp only [pivotRow, Quat.get] at *
    rw [show r 0 + r 4 + r 8 + 1 = 1 + r 0 + r 4 + r 8 by ring, hquarter]
    ext <;> simp only [Quat.scale, mul_one_div]
  all_goals
    simp only [pivotRow, Quat.get] at *
    rw [hquarter]
    ext <;> simp only [Quat.scale, mul_one_div]

theorem quatFromRot3Divisor_eq : quatFromRot3Divisor r = √(pivotSq r) * 2 := by
  have hzero : (0.0 : ℝ) = 0 := by norm_num
  have hone : (1.0 : ℝ) = 1 := by norm_num
  have htwo : (2.0 : ℝ) = 2 := by norm_num
  unfold quatFromRot3Divisor
  simp only [exact_lt, exact_sqrt, Bool.and_eq_true, hzero, hone, htwo]
  unfold pivotSq pivot
  split_ifs
  · simp only [pivotRow, Quat.get]
    rw [show r 0 + r 4 + r 8 + 1 = 1 + r 0 + r 4 + r 8 by ring]
  all_goals rfl

/-- Nothing is ever divided by zero. -/
theorem two_le_divisor : 2 ≤ quatFromRot3Divisor r := by
  rw [quatFromRot3Divisor_eq]
  have hroot := Real.one_le_sqrt.mpr (one_le_pivot r)
  linarith

/-- The component the root is taken of is at least `1/2`. -/
theorem quarter_le_normSquared : 1 / 4 ≤ (quatFromRot3 r).normSquared := by
  have hroot := Real.one_le_sqrt.mpr (one_le_pivot r)
  have hget : (quatFromRot3 r).get (pivot r) = √(pivotSq r) / 2 := by
    rw [quatFromRot3_eq]
    have hscale : ((pivotRow r (pivot r)).scale (1 / (√(pivotSq r) * 2))).get (pivot r) =
        pivotSq r / (√(pivotSq r) * 2) := by
      unfold pivotSq
      cases pivot r <;> exact mul_one_div _ _
    rw [hscale, ← quarter_divisor (one_le_pivot r)]
    ring
  have hhalf : 1 / 2 ≤ (quatFromRot3 r).get (pivot r) := by
    rw [hget]
    linarith
  generalize quatFromRot3 r = q at hhalf
  unfold Quat.normSquared
  cases h : pivot r <;> rw [h] at hhalf <;> simp only [Quat.get] at hhalf <;>
    nlinarith [mul_self_nonneg q.w, mul_self_nonneg q.x, mul_self_nonneg q.y, mul_self_nonneg q.z]

end Rows

/-! ## The matrix of a quaternion -/

section Matrix

variable {p q : Quat ℝ} {r : Fin 9 → ℝ} {eps : ℝ}

theorem rot3_real (q : Quat ℝ) : rot3 q =
    ![1 - 2 * (q.y * q.y + q.z * q.z), 2 * (q.x * q.y - q.w * q.z), 2 * (q.x * q.z + q.w * q.y),
      2 * (q.x * q.y + q.w * q.z), 1 - 2 * (q.x * q.x + q.z * q.z), 2 * (q.y * q.z - q.w * q.x),
      2 * (q.x * q.z - q.w * q.y), 2 * (q.y * q.z + q.w * q.x),
      1 - 2 * (q.x * q.x + q.y * q.y)] := by
  have hone : (1.0 : ℝ) = 1 := by norm_num
  have htwo : (2.0 : ℝ) = 2 := by norm_num
  simp only [rot3, hone, htwo]

/-- Each row of the symmetric matrix is a multiple of the quaternion. -/
theorem pivotRow_rot3 (hq : q.UnitNorm) (i : Pivot) :
    pivotRow (rot3 q) i = q.scale (4 * q.get i) := by
  unfold Quat.UnitNorm at hq
  rw [rot3_real]
  -- the entry on the diagonal needs the norm, the other three are identities
  cases i <;> ext <;> simp [pivotRow, Quat.scale, Quat.get] <;>
    first
    | linear_combination -4 * hq
    | ring

theorem scale_scale (q : Quat ℝ) (a b : ℝ) : (q.scale a).scale b = q.scale (a * b) := by
  ext <;> simp only [Quat.scale, mul_assoc]

/-- The matrix of a unit quaternion gives the quaternion back, up to sign. -/
theorem quatFromRot3_rot3 (hq : q.UnitNorm) :
    quatFromRot3 (rot3 q) = q ∨ quatFromRot3 (rot3 q) = q.neg := by
  have hle := one_le_pivot (rot3 q)
  rw [quatFromRot3_eq]
  unfold pivotSq at *
  rw [pivotRow_rot3 hq] at *
  generalize pivot (rot3 q) = i at *
  have hget : (q.scale (4 * q.get i)).get i = (2 * q.get i) ^ 2 := by
    cases i <;> simp only [Quat.scale, Quat.get] <;> ring
  rw [hget] at hle ⊢
  rw [Real.sqrt_sq_eq_abs, scale_scale, abs_mul, abs_two]
  have hne : q.get i ≠ 0 := by
    intro h0
    rw [h0] at hle
    norm_num at hle
  rcases hne.lt_or_gt with hneg | hpos
  · right
    have hminus : 4 * q.get i * (1 / (2 * |q.get i| * 2)) = -1 := by
      rw [abs_of_neg hneg]
      field_simp
      norm_num
    rw [hminus]
    ext <;> simp [Quat.scale, Quat.neg]
  · left
    have hplus : 4 * q.get i * (1 / (2 * |q.get i| * 2)) = 1 := by
      rw [abs_of_pos hpos]
      field_simp
      norm_num
    rw [hplus]
    ext <;> simp [Quat.scale]

/-! ## Near a rotation -/

/-- Every entry of the block is within `eps` of that of a rotation. -/
def Near (eps : ℝ) (r r' : Fin 9 → ℝ) : Prop := ∀ i, |r i - r' i| ≤ eps

theorem pivotRow_near (hp : p.UnitNorm) (hr : Near eps r (rot3 p)) (i j : Pivot) :
    |(pivotRow r i).get j - 4 * p.get i * p.get j| ≤ 3 * eps := by
  have hrow : 4 * p.get i * p.get j = (pivotRow (rot3 p) i).get j := by
    rw [pivotRow_rot3 hp]
    cases j <;> simp only [Quat.scale, Quat.get] <;> ring
  have heps : 0 ≤ eps := (abs_nonneg _).trans (hr 0)
  have hb := fun k => abs_le.mp (hr k)
  rw [hrow]
  generalize rot3 p = r' at hb
  cases i <;> cases j <;> simp only [pivotRow, Quat.get] <;> rw [abs_le] <;> constructor <;>
    linarith [(hb 0).1, (hb 0).2, (hb 1).1, (hb 1).2, (hb 2).1, (hb 2).2, (hb 3).1, (hb 3).2,
      (hb 4).1, (hb 4).2, (hb 5).1, (hb 5).2, (hb 6).1, (hb 6).2, (hb 7).1, (hb 7).2,
      (hb 8).1, (hb 8).2]

theorem abs_get_le (hp : p.UnitNorm) (i : Pivot) : |p.get i| ≤ 1 := by
  unfold Quat.UnitNorm at hp
  rw [abs_le_one_iff_mul_self_le_one]
  cases i <;> simp only [Quat.get] <;>
    linarith [mul_self_nonneg p.w, mul_self_nonneg p.x, mul_self_nonneg p.y, mul_self_nonneg p.z]

theorem quatFromRot3_get_mul (r : Fin 9 → ℝ) (j k : Pivot) :
    (quatFromRot3 r).get j * (quatFromRot3 r).get k =
      (pivotRow r (pivot r)).get j * (pivotRow r (pivot r)).get k / (4 * pivotSq r) := by
  have hle := one_le_pivot r
  have hpos : 0 < √(pivotSq r) := Real.sqrt_pos.mpr (by linarith)
  have hsq := Real.mul_self_sqrt (by linarith : 0 ≤ pivotSq r)
  have hscale : ∀ (q : Quat ℝ) (c : ℝ) (i : Pivot), (q.scale c).get i = q.get i * c := by
    intro q c i
    cases i <;> rfl
  rw [quatFromRot3_eq, hscale, hscale]
  generalize (pivotRow r (pivot r)).get j = u
  generalize (pivotRow r (pivot r)).get k = v
  rw [eq_div_iff (by linarith)]
  field_simp
  linear_combination -4 * u * v * hsq

/-- The product of two entries of a row, over the entry on the diagonal. -/
theorem product_near {a b c k u v : ℝ} (ha : |a| ≤ 1) (hb : |b| ≤ 1) (hc : |c| ≤ 1) (hk : 1 ≤ k)
    (heps : eps ≤ 1 / 1000) (hu : |u - 4 * a * b| ≤ 3 * eps) (hv : |v - 4 * a * c| ≤ 3 * eps)
    (hka : |k - 4 * a * a| ≤ 3 * eps) : |u * v / (4 * k) - b * c| ≤ 9.01 * eps := by
  have h0 : 0 ≤ eps := by linarith [abs_nonneg (u - 4 * a * b)]
  have hsplit : u * v / (4 * k) - b * c = (4 * (a * b) * (v - 4 * a * c) +
      4 * (a * c) * (u - 4 * a * b) + (u - 4 * a * b) * (v - 4 * a * c) -
      4 * (b * c) * (k - 4 * a * a)) / (4 * k) := by
    rw [eq_div_iff (by linarith), sub_mul, div_mul_cancel₀ _ (by linarith)]
    ring
  have hmul : ∀ {x y e : ℝ}, |x| ≤ 1 → |y| ≤ 1 → |e| ≤ 3 * eps →
      |4 * (x * y) * e| ≤ 4 * (3 * eps) := by
    intro x y e hx hy he
    have hxy : |x * y| ≤ 1 := by
      rw [abs_mul]
      exact mul_le_one₀ hx (abs_nonneg y) hy
    rw [mul_assoc, abs_mul, abs_mul, abs_of_pos (by norm_num : (0 : ℝ) < 4)]
    have hle := mul_le_mul hxy he (abs_nonneg e) zero_le_one
    linarith
  have h1 := abs_le.mp (hmul ha hb hv)
  have h2 := abs_le.mp (hmul ha hc hu)
  have h3 := abs_le.mp (hmul hb hc hka)
  have h4 : |(u - 4 * a * b) * (v - 4 * a * c)| ≤ 3 * eps * (3 * eps) := by
    rw [abs_mul]
    exact mul_le_mul hu hv (abs_nonneg _) (by linarith)
  have h4' := abs_le.mp h4
  rw [hsplit, abs_div, abs_of_pos (by linarith : 0 < 4 * k), div_le_iff₀ (by linarith)]
  refine le_trans (abs_le.mpr ⟨?_, ?_⟩ : _ ≤ 36.04 * eps) ?_
  · nlinarith
  · nlinarith
  · nlinarith

/-- The components of two quaternions have nearly the same products. -/
def Quat.Tracks (delta : ℝ) (q p : Quat ℝ) : Prop :=
  ∀ j k, |q.get j * q.get k - p.get j * p.get k| ≤ delta

/-- What the branches make of a block near a rotation. -/
theorem quatFromRot3_near (hp : p.UnitNorm) (heps : eps ≤ 1 / 1000) (hr : Near eps r (rot3 p)) :
    (quatFromRot3 r).Tracks (9.01 * eps) p := by
  intro j k
  rw [quatFromRot3_get_mul]
  exact product_near (abs_get_le hp _) (abs_get_le hp j) (abs_get_le hp k) (one_le_pivot r) heps
    (pivotRow_near hp hr _ j) (pivotRow_near hp hr _ k) (pivotRow_near hp hr _ _)

theorem Quat.Tracks.normSquared {delta : ℝ} (h : q.Tracks delta p) (hp : p.UnitNorm) :
    |q.normSquared - 1| ≤ 4 * delta := by
  have hw := abs_le.mp (h .w .w)
  have hx := abs_le.mp (h .x .x)
  have hy := abs_le.mp (h .y .y)
  have hz := abs_le.mp (h .z .z)
  unfold Quat.UnitNorm at hp
  simp only [Quat.get] at hw hx hy hz
  unfold Quat.normSquared
  exact abs_le.mpr ⟨by linarith [hw.1, hx.1, hy.1, hz.1], by linarith [hw.2, hx.2, hy.2, hz.2]⟩

/-- Quaternions whose products agree have the same matrix, nearly. -/
theorem Quat.Tracks.rot3 {delta : ℝ} (h : q.Tracks delta p) :
    Near (4 * delta) (TfTree.rot3 q) (TfTree.rot3 p) := by
  have sum : ∀ {a b a' b' : ℝ}, |a - a'| ≤ delta → |b - b'| ≤ delta →
      |2 * (a + b) - 2 * (a' + b')| ≤ 4 * delta := by
    intro a b a' b' ha hb
    rw [abs_le] at *
    exact ⟨by linarith [ha.1, hb.1], by linarith [ha.2, hb.2]⟩
  have diff : ∀ {a b a' b' : ℝ}, |a - a'| ≤ delta → |b - b'| ≤ delta →
      |2 * (a - b) - 2 * (a' - b')| ≤ 4 * delta := by
    intro a b a' b' ha hb
    rw [abs_le] at *
    exact ⟨by linarith [ha.1, hb.2], by linarith [ha.2, hb.1]⟩
  have diag : ∀ {a b a' b' : ℝ}, |a - a'| ≤ delta → |b - b'| ≤ delta →
      |1 - 2 * (a + b) - (1 - 2 * (a' + b'))| ≤ 4 * delta := by
    intro a b a' b' ha hb
    rw [sub_sub_sub_cancel_left, abs_sub_comm]
    exact sum ha hb
  rw [rot3_real, rot3_real]
  intro i
  fin_cases i
  · exact diag (h .y .y) (h .z .z)
  · exact diff (h .x .y) (h .w .z)
  · exact sum (h .x .z) (h .w .y)
  · exact sum (h .x .y) (h .w .z)
  · exact diag (h .x .x) (h .z .z)
  · exact diff (h .y .z) (h .w .x)
  · exact diff (h .x .z) (h .w .y)
  · exact sum (h .y .z) (h .w .x)
  · exact diag (h .x .x) (h .y .y)

end Matrix

end TfTree
