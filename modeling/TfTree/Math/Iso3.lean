import Mathlib.Data.Fin.VecNotation
import Mathlib.Data.Fintype.Basic
import Mathlib.Tactic.FinCases
import Mathlib.Algebra.Field.Rat
import TfTree.Data.Numerals

/-!
# Rigid transforms

`tf_tree_math` (`quat.rs`, `iso3.rs`, `twist.rs`) over an arbitrary scalar type:
the operations of `Scalar` are the `f64` operations of the source, and nothing
is assumed about them. Exact arithmetic is the instance of a field.

* `Iso3.fromBits_toBits`: the seven words of a pose give the pose back.
-/

namespace TfTree

/-- The scalar operations the transforms are computed with. -/
class Scalar (F : Type) extends Add F, Sub F, Mul F, Neg F, Div F, Zero F, One F, NatCast F

/-- `Vec3`. -/
structure Vec3 (F : Type) where
  x : F
  y : F
  z : F
  deriving DecidableEq, Repr

/-- `Quat`, scalar part first. -/
structure Quat (F : Type) where
  w : F
  x : F
  y : F
  z : F
  deriving DecidableEq, Repr

/-- `Iso3`: rotation, then translation. -/
structure Iso3 (F : Type) where
  q : Quat F
  t : Vec3 F
  deriving DecidableEq, Repr

/-- `Twist`: angular part first. -/
structure Twist (F : Type) where
  omega : Vec3 F
  v : Vec3 F
  deriving DecidableEq, Repr

variable {F : Type}

/-! ## Words of a pose -/

/-- `Iso3::to_bits`: `[qw, qx, qy, qz, tx, ty, tz]`. A scalar stands for its bit
    pattern. -/
def Iso3.toBits (p : Iso3 F) : Fin 7 → F :=
  ![p.q.w, p.q.x, p.q.y, p.q.z, p.t.x, p.t.y, p.t.z]

/-- `Iso3::from_bits`. -/
def Iso3.fromBits (b : Fin 7 → F) : Iso3 F :=
  ⟨⟨b 0, b 1, b 2, b 3⟩, ⟨b 4, b 5, b 6⟩⟩

@[simp] theorem Iso3.fromBits_toBits (p : Iso3 F) : Iso3.fromBits p.toBits = p := rfl

@[simp] theorem Iso3.toBits_fromBits (b : Fin 7 → F) : (Iso3.fromBits b).toBits = b := by
  funext i
  fin_cases i <;> rfl

/-! ## Operations -/

section Ops

variable [Scalar F]

namespace Vec3

/-- `Vec3::ZERO`. -/
def zero : Vec3 F := ⟨0, 0, 0⟩

/-- `Vec3::add`. -/
def add (a b : Vec3 F) : Vec3 F := ⟨a.x + b.x, a.y + b.y, a.z + b.z⟩

/-- `Vec3::sub`. -/
def sub (a b : Vec3 F) : Vec3 F := ⟨a.x - b.x, a.y - b.y, a.z - b.z⟩

/-- `Vec3::scale`. -/
def scale (a : Vec3 F) (k : F) : Vec3 F := ⟨a.x * k, a.y * k, a.z * k⟩

/-- `Vec3::cross`. -/
def cross (a b : Vec3 F) : Vec3 F :=
  ⟨a.y * b.z - a.z * b.y, a.z * b.x - a.x * b.z, a.x * b.y - a.y * b.x⟩

end Vec3

namespace Quat

/-- `Quat::IDENTITY`. -/
def identity : Quat F := ⟨1, 0, 0, 0⟩

/-- `Quat::conjugate`. -/
def conjugate (q : Quat F) : Quat F := ⟨q.w, -q.x, -q.y, -q.z⟩

/-- `Quat::vector`. -/
def vector (q : Quat F) : Vec3 F := ⟨q.x, q.y, q.z⟩

/-- `Quat::rotate_native`: `v + w·t + u × t` with `t = 2 (u × v)`. -/
def rotate (q : Quat F) (v : Vec3 F) : Vec3 F :=
  let u := q.vector
  let t := (u.cross v).scale ((2 : ℕ) : F)
  (v.add (t.scale q.w)).add (u.cross t)

/-- `Mul for Quat`, the Hamilton product. -/
instance : Mul (Quat F) where
  mul a b :=
    { w := a.w * b.w - a.x * b.x - a.y * b.y - a.z * b.z
      x := a.w * b.x + a.x * b.w + a.y * b.z - a.z * b.y
      y := a.w * b.y - a.x * b.z + a.y * b.w + a.z * b.x
      z := a.w * b.z + a.x * b.y - a.y * b.x + a.z * b.w }

end Quat

namespace Iso3

/-- `Iso3::IDENTITY`. -/
instance : One (Iso3 F) := ⟨⟨Quat.identity, Vec3.zero⟩⟩

/-- `Mul for Iso3`: `T_ac = T_ab · T_bc`. -/
instance : Mul (Iso3 F) := ⟨fun a b => ⟨a.q * b.q, a.t.add (a.q.rotate b.t)⟩⟩

/-- `Iso3::inverse`: `(q*, −q*·t)`. -/
instance : Inv (Iso3 F) := ⟨fun a => ⟨a.q.conjugate, (a.q.conjugate.rotate a.t).scale (-1)⟩⟩

/-- `Iso3::mul_inv`, written `a / b`: `a · b⁻¹` without forming `b⁻¹`. -/
instance : Div (Iso3 F) :=
  ⟨fun a b => ⟨a.q * b.q.conjugate, a.t.sub ((a.q * b.q.conjugate).rotate b.t)⟩⟩

end Iso3

namespace Twist

/-- `Twist::ZERO`. -/
def zero : Twist F := ⟨Vec3.zero, Vec3.zero⟩

/-- `Twist::scale`. -/
def scale (a : Twist F) (k : F) : Twist F := ⟨a.omega.scale k, a.v.scale k⟩

/-- `Twist::add`. -/
def add (a b : Twist F) : Twist F := ⟨a.omega.add b.omega, a.v.add b.v⟩

/-- `Twist::sub`. -/
def sub (a b : Twist F) : Twist F := ⟨a.omega.sub b.omega, a.v.sub b.v⟩

end Twist

namespace Iso3

/-- `Iso3::adjoint`. -/
def adjoint (p : Iso3 F) (x : Twist F) : Twist F :=
  let w := p.q.rotate x.omega
  ⟨w, (p.t.cross w).add (p.q.rotate x.v)⟩

/-- `Iso3::adjoint_inv`. -/
def adjointInv (p : Iso3 F) (x : Twist F) : Twist F :=
  let qi := p.q.conjugate
  ⟨qi.rotate x.omega, qi.rotate (x.v.sub (p.t.cross x.omega))⟩

end Iso3

end Ops

end TfTree
