import Mathlib
import TfTree.Math.Rot3

/-!
# Layouts of the C interface

`write` and `read` of `tf_tree_c/src/layout.rs`. A buffer is the list of the numbers it holds: all
of the layouts are arrays of one width, so that its bytes are those of the numbers.

Results:
* `read_write`: what was written in a layout that can be read is read back.
* `read_matrix`: what `read` makes of every buffer in a matrix layout.

The determinant is all that is asked of a matrix. A block that is scaled up along one axis and
down along another passes (`read_stretched`).
-/

namespace TfTree.CAbi

open TfTree

/-- The scalars with what `layout.rs` asks of `f64`. -/
class HostFloat (F : Type) extends Libm F where
  /-- `f64::is_finite`. -/
  isFinite : F → Bool
  /-- `as f32`. -/
  toF32 : F → F

section Model

variable {F : Type} [HostFloat F]

open Libm HostFloat

/-! ## Writing -/

/-- `tft_layout`. -/
abbrev TftLayout := ℕ

/-- `TFT_LAYOUT_QVEC7_WXYZ`. -/
@[match_pattern] def qvec7Wxyz : TftLayout := 0

/-- `TFT_LAYOUT_QVEC7_XYZW`. -/
@[match_pattern] def qvec7Xyzw : TftLayout := 1

/-- `TFT_LAYOUT_MAT4_COL`. -/
@[match_pattern] def mat4Col : TftLayout := 2

/-- `TFT_LAYOUT_MAT4_ROW`. -/
@[match_pattern] def mat4Row : TftLayout := 3

/-- `TFT_LAYOUT_AFFINE12_ROW_F32`. -/
@[match_pattern] def affine12RowF32 : TftLayout := 4

/-- `TFT_LAYOUT_QVEC7_WXYZ_TWIST6`. -/
@[match_pattern] def qvec7WxyzTwist6 : TftLayout := 5

/-- `payload_bytes`, in numbers of the width of the layout. -/
def payloadNumbers : TftLayout → Option ℕ
  | qvec7Wxyz | qvec7Xyzw => some 7
  | mat4Col | mat4Row => some 16
  | affine12RowF32 => some 12
  | qvec7WxyzTwist6 => some 13
  | _ => none

/-- `put_f64`: panics on a slice that is too short. -/
def putF64 (dst vals : List F) : Option (List F) :=
  if dst.length < vals.length then none else some (vals ++ dst.drop vals.length)

/-- `put_qvec7_wxyz`. -/
def putQvec7Wxyz (t : Iso3 F) (dst : List F) : Option (List F) :=
  putF64 dst [t.q.w, t.q.x, t.q.y, t.q.z, t.t.x, t.t.y, t.t.z]

/-- `write` (`layout.rs`, lines 71–120). -/
def write (t : Iso3 F) (layout : TftLayout) (dst : List F) : Option (List F) :=
  match layout with
  | qvec7Wxyz => putQvec7Wxyz t dst
  | qvec7Xyzw => putF64 dst [t.q.x, t.q.y, t.q.z, t.q.w, t.t.x, t.t.y, t.t.z]
  | mat4Row =>
    let r := rot3 t.q
    putF64 dst [
      r 0, r 1, r 2, t.t.x,
      r 3, r 4, r 5, t.t.y,
      r 6, r 7, r 8, t.t.z,
      0.0, 0.0, 0.0, 1.0]
  | mat4Col =>
    let r := rot3 t.q
    putF64 dst [
      r 0, r 3, r 6, 0.0,
      r 1, r 4, r 7, 0.0,
      r 2, r 5, r 8, 0.0,
      t.t.x, t.t.y, t.t.z, 1.0]
  | affine12RowF32 =>
    let r := rot3 t.q
    putF64 dst ([
      r 0, r 1, r 2, t.t.x,
      r 3, r 4, r 5, t.t.y,
      r 6, r 7, r 8, t.t.z].map toF32)
  | _ => some dst

/-! ## Reading -/

/-- `ReadError`. -/
inductive ReadError where
  | notFinite
  | notAUnitQuaternion
  | notARotationMatrix
  deriving DecidableEq, Repr

/-- `DET_TOL`. -/
def detTol : F := 1e-6

/-- `NORM_TOL`. -/
def normTol : F := 1e-6

/-- `NORM2_TOL`. -/
def norm2Tol : F := 2.0 * normTol + normTol * normTol

/-- `RENORM_SKIP_TOL`. -/
def renormSkipTol : F := 2e-13

/-- `f64::abs`. -/
def absF64 (a : F) : F := if lt a 0.0 then -a else a

/-- `normalize_if_needed` (`layout.rs`, lines 179–185). -/
def normalizeIfNeeded (q : Quat F) : Quat F :=
  if le (absF64 (q.normSquared - 1.0)) renormSkipTol then q else q.normalize

/-- `get_f64s`: a short `src` yields zeros. -/
def getF64s (n : ℕ) (src : List F) : Fin n → F := fun i =>
  if src.length < n then 0.0 else src.getD i 0.0

/-- `quat7`. -/
def quat7 (v : Fin 7 → F) (wxyz : Fin 4 → Fin 7) : Except ReadError (Iso3 F) :=
  if !(List.ofFn v).all isFinite then .error .notFinite
  else
    let q : Quat F := ⟨v (wxyz 0), v (wxyz 1), v (wxyz 2), v (wxyz 3)⟩
    if lt norm2Tol (absF64 (q.normSquared - 1.0)) then .error .notAUnitQuaternion
    else .ok ⟨normalizeIfNeeded q, ⟨v 4, v 5, v 6⟩⟩

/-- `read_quat7`. -/
def readQuat7 (src : List F) (wxyz : Fin 4 → Fin 7) : Except ReadError (Iso3 F) :=
  quat7 (getF64s 7 src) wxyz

/-- The closure `at` of `read_mat4`: it undoes the storage order. -/
def matAt (m : Fin 16 → F) (columnMajor : Bool) (r c : Fin 4) : F :=
  if columnMajor then m ⟨c * 4 + r, by omega⟩ else m ⟨r * 4 + c, by omega⟩

/-- The nine numbers `r` of `read_mat4`. -/
def matBlock (m : Fin 16 → F) (columnMajor : Bool) : Fin 9 → F :=
  let entry := matAt m columnMajor
  ![entry 0 0, entry 0 1, entry 0 2,
    entry 1 0, entry 1 1, entry 1 2,
    entry 2 0, entry 2 1, entry 2 2]

/-- The number `det` of `read_mat4`. -/
def det3 (r : Fin 9 → F) : F :=
  r 0 * (r 4 * r 8 - r 5 * r 7) - r 1 * (r 3 * r 8 - r 5 * r 6) + r 2 * (r 3 * r 7 - r 4 * r 6)

/-- `read_mat4` (`layout.rs`, lines 239–272). -/
def readMat4 (src : List F) (columnMajor : Bool) : Except ReadError (Iso3 F) :=
  let m := getF64s 16 src
  if !(List.ofFn m).all isFinite then .error .notFinite
  else
    let entry := matAt m columnMajor
    let r := matBlock m columnMajor
    if lt detTol (absF64 (det3 r - 1.0)) then .error .notARotationMatrix
    else .ok ⟨normalizeIfNeeded (quatFromRot3 r), ⟨entry 0 3, entry 1 3, entry 2 3⟩⟩

/-- `read` (`layout.rs`, lines 192–201). -/
def read (layout : TftLayout) (src : List F) : Option (Except ReadError (Iso3 F)) :=
  match layout with
  | qvec7Wxyz => some (readQuat7 src ![0, 1, 2, 3])
  | qvec7Xyzw => some (readQuat7 src ![3, 0, 1, 2])
  | mat4Row => some (readMat4 src false)
  | mat4Col => some (readMat4 src true)
  | affine12RowF32 => none
  | _ => none

end Model

/-! ## Exact arithmetic -/

/-- Over the real numbers every number is finite, and narrowing rounds nothing. -/
@[reducible] noncomputable def exactHost : HostFloat ℝ where
  toLibm := exactLibm
  isFinite _ := true
  toF32 := id

noncomputable local instance : HostFloat ℝ := exactHost

section Exact

variable {q : Quat ℝ} {r : Fin 9 → ℝ}

theorem absF64_real (a : ℝ) : absF64 a = |a| := by
  have hzero : (0.0 : ℝ) = 0 := by norm_num
  unfold absF64
  simp only [exact_lt, hzero]
  split_ifs with h
  · exact (abs_of_neg h).symm
  · exact (abs_of_nonneg (not_lt.mp h)).symm

theorem normalizeIfNeeded_real (q : Quat ℝ) : normalizeIfNeeded q =
    if |q.normSquared - 1| ≤ 2e-13 then q else q.normalize := by
  have hone : (1.0 : ℝ) = 1 := by norm_num
  unfold normalizeIfNeeded renormSkipTol
  simp only [absF64_real, hone, exact_le]

theorem normalizeIfNeeded_unit (hq : q.UnitNorm) : normalizeIfNeeded q = q := by
  rw [normalizeIfNeeded_real, hq.normSquared, if_pos (by norm_num)]

/-- The determinant of the matrix of a quaternion. -/
theorem det3_rot3 (hq : q.UnitNorm) : det3 (rot3 q) = 1 := by
  unfold Quat.UnitNorm at hq
  rw [rot3_real]
  unfold det3
  simp only [Matrix.cons_val]
  linear_combination 4 * (q.x * q.x + q.y * q.y + q.z * q.z) * hq

theorem det3_smul (s : ℝ) (r : Fin 9 → ℝ) : det3 (fun i => s * r i) = s ^ 3 * det3 r := by
  unfold det3
  ring

/-- A literal with a negative exponent. -/
theorem scientific_one (n : ℕ) : (OfScientific.ofScientific 1 true n : ℝ) = 1 / 10 ^ n := by
  rw [NNRatCast.ofScientific_eq_ite, if_pos rfl, NNRat.divNat_eq_div]
  push_cast
  rfl

/-- The norm below which `normalize` leaves a quaternion alone. -/
theorem normFloor_le : (1e-300 : ℝ) ≤ 1 / 2 := by
  have hpow : (2 : ℝ) ≤ 10 ^ 300 := by
    calc (2 : ℝ) ≤ 10 ^ 1 := by norm_num
      _ ≤ 10 ^ 300 := pow_le_pow_right₀ (by norm_num) (by norm_num)
  calc (1e-300 : ℝ) = 1 / 10 ^ 300 := scientific_one 300
    _ ≤ 1 / 2 := one_div_le_one_div_of_le two_pos hpow

theorem normalize_real (hq : 1 / 4 ≤ q.normSquared) :
    q.normalize = q.scale (1 / √q.normSquared) := by
  have hroot : 1 / 2 ≤ √q.normSquared := by
    apply Real.le_sqrt_of_sq_le
    linarith
  have hlarge : ¬ √q.normSquared < 1e-300 := not_lt.mpr (normFloor_le.trans hroot)
  unfold Quat.normalize Quat.norm
  simp only [exact_sqrt, exact_lt, if_neg hlarge]
  rfl

theorem normSquared_normalize (hq : 1 / 4 ≤ q.normSquared) : q.normalize.normSquared = 1 := by
  rw [normalize_real hq]
  have hpos : 0 < q.normSquared := by linarith
  have hsq := Real.mul_self_sqrt hpos.le
  have hroot : √q.normSquared ≠ 0 := (Real.sqrt_pos.mpr hpos).ne'
  have hscale : (q.scale (1 / √q.normSquared)).normSquared =
      q.normSquared / (√q.normSquared * √q.normSquared) := by
    generalize √q.normSquared = n at hroot
    simp only [Quat.scale, Quat.normSquared]
    field_simp
  rw [hscale, hsq, div_self hpos.ne']

/-- Whatever is returned has unit norm, up to what `RENORM_SKIP_TOL` lets pass. -/
theorem normSquared_normalizeIfNeeded (hq : 1 / 4 ≤ q.normSquared) :
    |(normalizeIfNeeded q).normSquared - 1| ≤ 2e-13 := by
  rw [normalizeIfNeeded_real]
  split_ifs with h
  · exact h
  · rw [normSquared_normalize hq, sub_self, abs_zero]
    norm_num

/-- Normalizing a quaternion that is nearly `p`. -/
theorem tracks_normalizeIfNeeded {p : Quat ℝ} {delta : ℝ} (hp : p.UnitNorm)
    (hdelta : delta ≤ 1 / 10000) (h : q.Tracks delta p) :
    (normalizeIfNeeded q).Tracks (5.01 * delta) p := by
  have h0 : 0 ≤ delta := (abs_nonneg _).trans (h .w .w)
  rw [normalizeIfNeeded_real]
  split_ifs
  · intro j k
    exact (h j k).trans (by linarith)
  · have hnorm := h.normSquared hp
    have hb := abs_le.mp hnorm
    have hpos : 0 < q.normSquared := by linarith
    have hsq := Real.mul_self_sqrt hpos.le
    have hroot : √q.normSquared ≠ 0 := (Real.sqrt_pos.mpr hpos).ne'
    intro j k
    rw [normalize_real (by linarith)]
    have hproduct : (q.scale (1 / √q.normSquared)).get j * (q.scale (1 / √q.normSquared)).get k =
        q.get j * q.get k / q.normSquared := by
      have hscale : ∀ (c : ℝ) (i : Pivot), (q.scale c).get i = q.get i * c := by
        intro c i
        cases i <;> rfl
      rw [hscale, hscale, eq_div_iff hpos.ne']
      nth_rewrite 3 [← hsq]
      field_simp
    have hpp : |p.get j * p.get k| ≤ 1 := by
      rw [abs_mul]
      exact mul_le_one₀ (abs_get_le hp j) (abs_nonneg _) (abs_get_le hp k)
    have hmul : |p.get j * p.get k * (q.normSquared - 1)| ≤ 4 * delta := by
      rw [abs_mul]
      calc |p.get j * p.get k| * |q.normSquared - 1|
          ≤ 1 * (4 * delta) := mul_le_mul hpp hnorm (abs_nonneg _) zero_le_one
        _ = 4 * delta := one_mul _
    have hsplit : q.get j * q.get k / q.normSquared - p.get j * p.get k =
        (q.get j * q.get k - p.get j * p.get k - p.get j * p.get k * (q.normSquared - 1)) /
          q.normSquared := by
      field_simp
      ring
    rw [hproduct, hsplit, abs_div, abs_of_pos hpos, div_le_iff₀ hpos]
    have htri := abs_sub (q.get j * q.get k - p.get j * p.get k)
      (p.get j * p.get k * (q.normSquared - 1))
    have hjk := h j k
    nlinarith

/-! ## Round trip -/

theorem putF64_eq {dst vals : List ℝ} (h : vals.length ≤ dst.length) :
    putF64 dst vals = some (vals ++ dst.drop vals.length) := if_neg (not_lt.mpr h)

theorem getF64s_append {n : ℕ} {vals : List ℝ} (h : vals.length = n) (rest : List ℝ) :
    getF64s n (vals ++ rest) = fun i : Fin n => vals.getD i 0 := by
  have hlong : ¬ (vals ++ rest).length < n := by
    rw [List.length_append]
    omega
  have hzero : (0.0 : ℝ) = 0 := by norm_num
  funext i
  unfold getF64s
  rw [if_neg hlong, List.getD_append _ _ _ _ (by omega), hzero]

/-- Where the upper left block of a matrix is stored. -/
def storedBlock {F : Type} (m : Fin 16 → F) : Bool → Fin 9 → F
  | true => ![m 0, m 4, m 8, m 1, m 5, m 9, m 2, m 6, m 10]
  | false => ![m 0, m 1, m 2, m 4, m 5, m 6, m 8, m 9, m 10]

/-- Where the last column of a matrix is stored. -/
def storedTranslation {F : Type} (m : Fin 16 → F) : Bool → Vec3 F
  | true => ⟨m 12, m 13, m 14⟩
  | false => ⟨m 3, m 7, m 11⟩

/-- The layout of a matrix in one storage order. -/
def matLayout (columnMajor : Bool) : TftLayout := if columnMajor then mat4Col else mat4Row

theorem matBlock_eq {F : Type} (m : Fin 16 → F) :
    ∀ columnMajor, matBlock m columnMajor = storedBlock m columnMajor
  | true => rfl
  | false => rfl

/-- `read_mat4` over the real numbers. -/
theorem readMat4_real (src : List ℝ) (columnMajor : Bool) :
    readMat4 src columnMajor =
      if 1e-6 < |det3 (storedBlock (getF64s 16 src) columnMajor) - 1| then
        .error .notARotationMatrix
      else .ok ⟨normalizeIfNeeded (quatFromRot3 (storedBlock (getF64s 16 src) columnMajor)),
        storedTranslation (getF64s 16 src) columnMajor⟩ := by
  have hone : (1.0 : ℝ) = 1 := by norm_num
  have hfinite : (List.ofFn (getF64s 16 src)).all HostFloat.isFinite = true :=
    List.all_eq_true.mpr fun _ _ => rfl
  unfold readMat4 detTol
  simp only [hfinite, Bool.not_true, Bool.false_eq_true, if_false, exact_lt, absF64_real, hone,
    matBlock_eq]
  cases columnMajor <;> rfl

/-- A quaternion layout, read from numbers that are followed by others. -/
theorem readQuat7_append {vals : List ℝ} {wxyz : Fin 4 → Fin 7} (hlen : vals.length = 7)
    (rest : List ℝ) (hq : q.UnitNorm)
    (h : (⟨vals.getD (wxyz 0) 0, vals.getD (wxyz 1) 0, vals.getD (wxyz 2) 0,
      vals.getD (wxyz 3) 0⟩ : Quat ℝ) = q) :
    readQuat7 (vals ++ rest) wxyz = .ok ⟨q, ⟨vals.getD 4 0, vals.getD 5 0, vals.getD 6 0⟩⟩ := by
  have hone : (1.0 : ℝ) = 1 := by norm_num
  have hfinite : (List.ofFn fun i : Fin 7 => vals.getD i 0).all HostFloat.isFinite = true :=
    List.all_eq_true.mpr fun _ _ => rfl
  have hnear : ¬ norm2Tol < |(1 : ℝ) - 1| := by
    unfold norm2Tol normTol
    norm_num
  unfold readQuat7 quat7
  rw [getF64s_append hlen]
  simp only [hfinite, Bool.not_true, Bool.false_eq_true, if_false, h, absF64_real, exact_lt, hone,
    hq.normSquared, hnear, normalizeIfNeeded_unit hq]
  rfl

/-- What `write` puts into a matrix, by its places. -/
theorem write_matrix (t : Iso3 ℝ) (columnMajor : Bool) {dst : List ℝ} (h : 16 ≤ dst.length) :
    ∃ vals : List ℝ, vals.length = 16 ∧
      write t (matLayout columnMajor) dst = some (vals ++ dst.drop 16) ∧
      storedBlock (fun i : Fin 16 => vals.getD i 0) columnMajor = rot3 t.q ∧
      storedTranslation (fun i : Fin 16 => vals.getD i 0) columnMajor = t.t := by
  cases columnMajor
  · refine ⟨_, rfl, putF64_eq h, ?_, rfl⟩
    funext i
    fin_cases i <;> rfl
  · refine ⟨_, rfl, putF64_eq h, ?_, rfl⟩
    funext i
    fin_cases i <;> rfl

theorem read_matLayout (columnMajor : Bool) (src : List ℝ) :
    read (matLayout columnMajor) src = some (readMat4 src columnMajor) := by
  cases columnMajor <;> rfl

/-- The matrix layouts. -/
theorem read_write_matrix {t : Iso3 ℝ} (ht : t.q.UnitNorm) (columnMajor : Bool) {dst : List ℝ}
    (h : 16 ≤ dst.length) :
    ∃ out t', write t (matLayout columnMajor) dst = some out ∧
      read (matLayout columnMajor) out = some (.ok t') ∧ t'.t = t.t ∧
      (t'.q = t.q ∨ t'.q = t.q.neg) := by
  obtain ⟨vals, hlen, hwrite, hblock, htrans⟩ := write_matrix t columnMajor h
  have hdet : ¬ (1e-6 : ℝ) < |det3 (rot3 t.q) - 1| := by
    rw [det3_rot3 ht]
    norm_num
  have hneg : t.q.neg.UnitNorm := by simpa [Quat.UnitNorm, Quat.neg] using ht
  have hread := readMat4_real (vals ++ dst.drop 16) columnMajor
  rw [getF64s_append hlen, hblock, htrans, if_neg hdet] at hread
  refine ⟨_, _, hwrite, (read_matLayout columnMajor _).trans (congrArg some hread), rfl, ?_⟩
  show normalizeIfNeeded (quatFromRot3 (rot3 t.q)) = t.q ∨ _ = t.q.neg
  rcases quatFromRot3_rot3 ht with heq | heq
  · rw [heq, normalizeIfNeeded_unit ht]
    exact .inl rfl
  · rw [heq, normalizeIfNeeded_unit hneg]
    exact .inr rfl

/-- **Main theorem.** What `write` leaves in a buffer, in a layout that can be read, is read back:
    the same translation, and the same quaternion up to sign. No block makes the conversion
    divide by zero. -/
theorem read_write (t : Iso3 ℝ) (ht : t.q.UnitNorm) (layout : TftLayout) (n : ℕ) (dst : List ℝ)
    (hl : layout ∈ [qvec7Wxyz, qvec7Xyzw, mat4Col, mat4Row]) (hn : payloadNumbers layout = some n)
    (hdst : n ≤ dst.length) :
    (∃ out t', write t layout dst = some out ∧ read layout out = some (.ok t') ∧ t'.t = t.t ∧
      (t'.q = t.q ∨ t'.q = t.q.neg)) ∧ ∀ r : Fin 9 → ℝ, 2 ≤ quatFromRot3Divisor r := by
  refine ⟨?_, two_le_divisor⟩
  simp only [List.mem_cons, List.not_mem_nil, or_false] at hl
  rcases hl with rfl | rfl | rfl | rfl
  · obtain rfl : 7 = n := Option.some.inj hn
    exact ⟨_, t, putF64_eq hdst, congrArg some (readQuat7_append rfl _ ht rfl), rfl, .inl rfl⟩
  · obtain rfl : 7 = n := Option.some.inj hn
    exact ⟨_, t, putF64_eq hdst, congrArg some (readQuat7_append rfl _ ht rfl), rfl, .inl rfl⟩
  · obtain rfl : 16 = n := Option.some.inj hn
    exact read_write_matrix ht true hdst
  · obtain rfl : 16 = n := Option.some.inj hn
    exact read_write_matrix ht false hdst

/-- A half turn about `z` has trace `-1` and two equal entries on the diagonal. -/
theorem read_write_halfTurn :
    (∃ out t', write (⟨⟨0, 0, 0, 1⟩, ⟨1, 2, 3⟩⟩ : Iso3 ℝ) mat4Col (List.replicate 16 0) = some out ∧
      read mat4Col out = some (.ok t') ∧ t'.t = ⟨1, 2, 3⟩ ∧
      (t'.q = ⟨0, 0, 0, 1⟩ ∨ t'.q = Quat.neg ⟨0, 0, 0, 1⟩)) ∧
      ∀ r : Fin 9 → ℝ, 2 ≤ quatFromRot3Divisor r :=
  read_write ⟨⟨0, 0, 0, 1⟩, ⟨1, 2, 3⟩⟩ (by norm_num [Quat.UnitNorm]) mat4Col 16 _ (by decide) rfl
    (by simp)

/-! ## What is accepted -/

/-- `read` of the sixteen numbers of a matrix. -/
theorem read_ofFn (m : Fin 16 → ℝ) (columnMajor : Bool) :
    read (matLayout columnMajor) (List.ofFn m) = some
      (if 1e-6 < |det3 (storedBlock m columnMajor) - 1| then .error .notARotationMatrix
      else .ok ⟨normalizeIfNeeded (quatFromRot3 (storedBlock m columnMajor)),
        storedTranslation m columnMajor⟩) := by
  have hget : getF64s 16 (List.ofFn m) = m := by
    have happend := getF64s_append (List.length_ofFn : (List.ofFn m).length = 16) []
    rw [List.append_nil] at happend
    rw [happend]
    funext i
    rw [List.getD_eq_getElem _ _ (by simp), List.getElem_ofFn]
  rw [read_matLayout, readMat4_real, hget]

/-- **Main theorem.** A matrix is accepted if the determinant of its block is near `1`. What is
    returned then has unit norm and the translation of the buffer, and the matrix of a block that
    is a rotation up to drift. A block that is reflected or scaled alike in all axes is refused. -/
theorem read_matrix (m : Fin 16 → ℝ) (columnMajor : Bool) :
    (1e-6 < |det3 (storedBlock m columnMajor) - 1| →
      read (matLayout columnMajor) (List.ofFn m) = some (.error .notARotationMatrix)) ∧
    (|det3 (storedBlock m columnMajor) - 1| ≤ 1e-6 →
      ∃ t, read (matLayout columnMajor) (List.ofFn m) = some (.ok t) ∧
        t.t = storedTranslation m columnMajor ∧ |t.q.normSquared - 1| ≤ 2e-13 ∧
        ∀ (p : Quat ℝ) (eps : ℝ), p.UnitNorm → eps ≤ 5e-6 →
          Near eps (storedBlock m columnMajor) (rot3 p) →
          Near (200 * eps) (rot3 t.q) (storedBlock m columnMajor)) ∧
    ∀ (p : Quat ℝ) (s : ℝ), p.UnitNorm → storedBlock m columnMajor = (fun i => s * rot3 p i) →
      (read (matLayout columnMajor) (List.ofFn m) = some (.error .notARotationMatrix) ↔
        1e-6 < |s ^ 3 - 1|) := by
  rw [read_ofFn]
  generalize storedBlock m columnMajor = r
  refine ⟨?_, ?_, ?_⟩
  · intro hdet
    rw [if_pos hdet]
  · intro hdet
    rw [if_neg (not_lt.mpr hdet)]
    refine ⟨_, rfl, rfl, normSquared_normalizeIfNeeded (quarter_le_normSquared r), ?_⟩
    intro p eps hp heps hnear
    have h0 : 0 ≤ eps := (abs_nonneg _).trans (hnear 0)
    have hsmall : 9.01 * eps ≤ 1 / 10000 := by
      norm_num at heps ⊢
      linarith
    have hbranch := quatFromRot3_near hp (by norm_num at heps ⊢; linarith) hnear
    have hentries := (tracks_normalizeIfNeeded hp hsmall hbranch).rot3
    intro i
    have htri := abs_sub_le (rot3 (normalizeIfNeeded (quatFromRot3 r)) i) (rot3 p i) (r i)
    have hback := hnear i
    rw [abs_sub_comm] at hback
    have hi := hentries i
    norm_num at hi ⊢
    linarith
  · intro p s hp hr
    have hdet : det3 r = s ^ 3 := by
      rw [hr, det3_smul, det3_rot3 hp, mul_one]
    rw [hdet]
    constructor
    · intro h
      by_contra hle
      rw [if_neg hle] at h
      exact nomatch h
    · intro h
      rw [if_pos h]

/-- The numbers of a matrix that scales `x` up and `y` down. -/
noncomputable def stretched : Fin 16 → ℝ :=
  ![2, 0, 0, 0, 0, 1 / 2, 0, 0, 0, 0, 1, 0, 0, 0, 0, 1]

/-- The determinant is `1`, and no rotation has an entry of `2`. -/
theorem read_stretched :
    ¬ ∀ (m : Fin 16 → ℝ) (columnMajor : Bool) (t : Iso3 ℝ),
      read (matLayout columnMajor) (List.ofFn m) = some (.ok t) →
        t.q.UnitNorm ∧ Near 1e-3 (rot3 t.q) (storedBlock m columnMajor) := by
  intro h
  have hdet : |det3 (storedBlock stretched false) - 1| ≤ 1e-6 := by
    have hone : det3 (storedBlock stretched false) = 1 := by
      simp [det3, storedBlock, stretched]
    rw [hone]
    norm_num
  have hread := read_ofFn stretched false
  rw [if_neg (not_lt.mpr hdet)] at hread
  obtain ⟨-, hnear⟩ := h stretched false _ hread
  have h0 := abs_le.mp (hnear 0)
  rw [rot3_real] at h0
  have hentry : storedBlock stretched false 0 = 2 := rfl
  rw [hentry] at h0
  generalize normalizeIfNeeded (quatFromRot3 (storedBlock stretched false)) = q at h0
  simp only [Matrix.cons_val_zero] at h0
  norm_num at h0
  linarith [mul_self_nonneg q.y, mul_self_nonneg q.z]

end Exact

end TfTree.CAbi
