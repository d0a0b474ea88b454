import TfTree.Math.Iso3

/-!
# Output layouts

`tf_tree_core/src/layout.rs`: how a transform is written into a caller's buffer.
An emitter writes every element of its row, so it is the row it writes.

* `Encoder.write_length`: a row has as many elements as the layout says.
-/

namespace TfTree

variable {F : Type}

/-- `Layout`. -/
inductive Layout where
  | mat4
  | quat
  | affine32
  | quatTwist
  deriving DecidableEq, Repr

/-- `Layout::elems`. -/
def Layout.elems : Layout → ℕ
  | .mat4 => 16
  | .quat => 7
  | .affine32 => 12
  | .quatTwist => 13

/-- `Layout::is_f32`. -/
def Layout.isF32 : Layout → Bool
  | .affine32 => true
  | _ => false

/-- An emitter of values `V` as rows of `elems` elements of `T`. -/
structure Encoder (V T : Type) where
  elems : ℕ
  write : V → List T
  write_length : ∀ v, (write v).length = elems

/-- The emitter of `at_many`: one pose a row. -/
def poseRow : Encoder (Iso3 F) (Iso3 F) where
  elems := 1
  write p := [p]
  write_length _ := rfl

section Emitters

variable [Scalar F]

/-- The rotation block shared by `write_mat4` and `write_affine32`: its rows, each
    followed by the translation component. -/
def affineRows (iso : Iso3 F) : List F :=
  let two : F := ((2 : ℕ) : F)
  let ⟨w, x, y, z⟩ := iso.q
  let (xx, yy, zz) := (x * x, y * y, z * z)
  let (xy, xz, yz) := (x * y, x * z, y * z)
  let (wx, wy, wz) := (w * x, w * y, w * z)
  [1 - two * (yy + zz), two * (xy - wz), two * (xz + wy), iso.t.x,
   two * (xy + wz), 1 - two * (xx + zz), two * (yz - wx), iso.t.y,
   two * (xz - wy), two * (yz + wx), 1 - two * (xx + yy), iso.t.z]

/-- `write_mat4`. -/
def writeMat4 : Encoder (Iso3 F) F where
  elems := Layout.mat4.elems
  write iso := affineRows iso ++ [0, 0, 0, 1]
  write_length _ := rfl

/-- `write_quat`. -/
def writeQuat : Encoder (Iso3 F) F where
  elems := Layout.quat.elems
  write iso := [iso.q.w, iso.q.x, iso.q.y, iso.q.z, iso.t.x, iso.t.y, iso.t.z]
  write_length _ := rfl

/-- `write_quat_twist`: the twist follows the pose, angular part first. -/
def writeQuatTwist : Encoder (Iso3 F × Twist F) F where
  elems := Layout.quatTwist.elems
  write s := writeQuat.write s.1 ++
    [s.2.omega.x, s.2.omega.y, s.2.omega.z, s.2.v.x, s.2.v.y, s.2.v.z]
  write_length _ := rfl

/-- `write_affine32`: computed in `F`, narrowed at the store. -/
def writeAffine32 {F32 : Type} (narrow : F → F32) : Encoder (Iso3 F) F32 where
  elems := Layout.affine32.elems
  write iso := (affineRows iso).map narrow
  write_length _ := rfl

end Emitters

end TfTree
