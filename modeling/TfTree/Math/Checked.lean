import Mathlib
import TfTree.Math.Screw

/-!
# The assertion of the kernels

`vinv_c3` (`iso3.rs`, lines 255–269) asserts in a debug build that its angle is on the principal
branch; an angle that is not a number fails, too. `ScLerp` comes to it through `log_se3` in the
degenerate arm of the screw power. The kernels of `dualquat.rs` and `interp.rs` are written out
here up to that assertion: a kernel that fails it is `none`. `log_so3` is a parameter, since the
crate takes it from its own body or from a dependency.

Results:
* `ScLerp.evalChecked_isSome_iff`, `ScLerp.evalWithTwistChecked_isSome_iff`: when the assertion
  is met.
* `ScLerp.evalChecked_native`: with the own `log_so3` the value is that of the kernel.
-/

namespace TfTree

variable {F : Type} [Libm F] (log : Quat F → Vec3 F)

open Libm

/-! ## Model of `iso3.rs` and `dualquat.rs`, with the assertion -/

/-- `core::f64::consts::PI + 1e-9`. -/
def branchBound : F := 3.14159265358979323846264338327950288 + 1e-9

/-- `vinv_c3` (lines 255–269). -/
def vinvC3Checked (theta : F) : Option F :=
  if le theta branchBound then some (vinvC3 theta) else none

/-- `log_se3` (lines 294–303). -/
def logSe3Checked (p : Iso3 F) : Option (Twist F) := do
  let w := log p.q
  let c3 ← vinvC3Checked w.norm
  let wxt := w.cross p.t
  let wxwxt := w.cross wxt
  return ⟨w, (p.t.sub (wxt.scale 0.5)).add (wxwxt.scale c3)⟩

/-- `screw_pow` (lines 156–161). -/
def screwPowChecked (rel : Iso3 F) (s : F) : Option (Iso3 F) :=
  match screwParts rel with
  | .degenerate c => do
    let xi ← logSe3Checked log c
    return scaledExp xi s
  | .regular p => some (p.pow s)

/-- `screw_twist` (lines 167–172). -/
def screwTwistChecked (rel : Iso3 F) : Option (Twist F) :=
  match screwParts rel with
  | .degenerate c => logSe3Checked log c
  | .regular p => some p.twist

/-- `screw_pow_with_twist` (lines 179–187). -/
def screwPowWithTwistChecked (rel : Iso3 F) (s : F) : Option (Iso3 F × Twist F) :=
  match screwParts rel with
  | .degenerate c => do
    let xi ← logSe3Checked log c
    return (scaledExp xi s, xi)
  | .regular p => some (p.pow s, p.twist)

/-! ## Model of `interp.rs`, with the assertion -/

/-- `ScLerp::eval`. -/
def ScLerp.evalChecked (a b : Iso3 F) (s : F) : Option (Iso3 F) :=
  if eq s 0.0 then some a
  else if eq s 1.0 then some b
  else do
    let pow ← screwPowChecked log (a.invMul b) s
    return a * pow

/-- `ScLerp::eval_with_twist`. -/
def ScLerp.evalWithTwistChecked (a b : Iso3 F) (s : F) : Option (Iso3 F × Twist F) := do
  let rel := a.invMul b
  if eq s 0.0 then
    let xi ← screwTwistChecked log rel
    return (a, xi)
  else if eq s 1.0 then
    let xi ← screwTwistChecked log rel
    return (b, xi)
  else
    let (relPow, xi) ← screwPowWithTwistChecked log rel s
    return (a * relPow, xi)

/-- `Interp::eval` of a policy. -/
def InterpPolicy.evalChecked : InterpPolicy → Iso3 F → Iso3 F → F → Option (Iso3 F)
  | .scLerp => ScLerp.evalChecked log
  | .lerpSlerp => fun a b s => some (LerpSlerp.eval a b s)

/-! ## When the assertion is met -/

/-- The power of the motion takes the degenerate arm, and the logarithm of its rotation is off the
    principal branch. -/
def OffBranch (rel : Iso3 F) : Prop :=
  ∃ c, screwParts rel = .degenerate c ∧ le (log c.q).norm branchBound = false

variable {log}

theorem logSe3Checked_isSome_iff {c : Iso3 F} :
    (logSe3Checked log c).isSome ↔ le (log c.q).norm branchBound = true := by
  unfold logSe3Checked vinvC3Checked
  cases h : le (log c.q).norm branchBound <;> simp [h]

theorem offBranch_iff {rel c : Iso3 F} (h : screwParts rel = .degenerate c) :
    OffBranch log rel ↔ ¬ (logSe3Checked log c).isSome := by
  rw [logSe3Checked_isSome_iff, Bool.not_eq_true]
  constructor
  · rintro ⟨c', hc', hoff⟩
    cases h.symm.trans hc'
    exact hoff
  · exact fun hoff => ⟨c, h, hoff⟩

theorem not_offBranch {rel : Iso3 F} {p : ScrewParts F} (h : screwParts rel = .regular p) :
    ¬ OffBranch log rel := by
  rintro ⟨c, hc, -⟩
  cases h.symm.trans hc

theorem screwPowChecked_isSome_iff {rel : Iso3 F} {s : F} :
    (screwPowChecked log rel s).isSome ↔ ¬ OffBranch log rel := by
  unfold screwPowChecked
  cases h : screwParts rel with
  | degenerate c =>
    rw [offBranch_iff h, not_not]
    dsimp only
    cases logSe3Checked log c <;> rfl
  | regular p => exact iff_of_true rfl (not_offBranch h)

theorem screwTwistChecked_isSome_iff {rel : Iso3 F} :
    (screwTwistChecked log rel).isSome ↔ ¬ OffBranch log rel := by
  unfold screwTwistChecked
  cases h : screwParts rel with
  | degenerate c => rw [offBranch_iff h, not_not]
  | regular p => exact iff_of_true rfl (not_offBranch h)

theorem screwPowWithTwistChecked_isSome_iff {rel : Iso3 F} {s : F} :
    (screwPowWithTwistChecked log rel s).isSome ↔ ¬ OffBranch log rel := by
  unfold screwPowWithTwistChecked
  cases h : screwParts rel with
  | degenerate c =>
    rw [offBranch_iff h, not_not]
    dsimp only
    cases logSe3Checked log c <;> rfl
  | regular p => exact iff_of_true rfl (not_offBranch h)

/-- The two ends of a segment are returned without its power. -/
theorem ScLerp.evalChecked_isSome_iff {a b : Iso3 F} {s : F} :
    (ScLerp.evalChecked log a b s).isSome ↔
      eq s 0.0 = true ∨ eq s 1.0 = true ∨ ¬ OffBranch log (a.invMul b) := by
  unfold ScLerp.evalChecked
  split_ifs with h0 h1
  · simp [h0]
  · simp [h1]
  · rw [← screwPowChecked_isSome_iff (s := s)]
    cases screwPowChecked log (a.invMul b) s <;> simp [h0, h1]

/-- The twist of a segment is its logarithm, at the ends as well. -/
theorem ScLerp.evalWithTwistChecked_isSome_iff {a b : Iso3 F} {s : F} :
    (ScLerp.evalWithTwistChecked log a b s).isSome ↔ ¬ OffBranch log (a.invMul b) := by
  unfold ScLerp.evalWithTwistChecked
  dsimp only
  split_ifs
  · rw [← screwTwistChecked_isSome_iff]
    cases screwTwistChecked log (a.invMul b) <;> simp
  · rw [← screwTwistChecked_isSome_iff]
    cases screwTwistChecked log (a.invMul b) <;> simp
  · rw [← screwPowWithTwistChecked_isSome_iff (s := s)]
    cases screwPowWithTwistChecked log (a.invMul b) s <;> simp

/-! ## The value of a kernel that meets it -/

theorem logSe3Checked_native {c : Iso3 F} {xi : Twist F}
    (h : logSe3Checked logSo3 c = some xi) : xi = logSe3 c := by
  obtain ⟨c3, hc3, h⟩ := Option.bind_eq_some_iff.mp h
  unfold vinvC3Checked at hc3
  split_ifs at hc3
  cases hc3
  cases h
  rfl

theorem ScLerp.evalChecked_native {a b p : Iso3 F} {s : F}
    (h : ScLerp.evalChecked logSo3 a b s = some p) : p = ScLerp.eval a b s := by
  unfold ScLerp.evalChecked screwPowChecked at h
  unfold ScLerp.eval screwPow
  split_ifs at h ⊢
  · exact (Option.some_inj.mp h).symm
  · exact (Option.some_inj.mp h).symm
  · cases hparts : screwParts (a.invMul b) with
    | degenerate c =>
      rw [hparts] at h
      obtain ⟨pow, hpow, h⟩ := Option.bind_eq_some_iff.mp h
      obtain ⟨xi, hxi, hpow⟩ := Option.bind_eq_some_iff.mp hpow
      cases h
      cases hpow
      rw [logSe3Checked_native hxi]
    | regular parts =>
      rw [hparts] at h
      exact (Option.some_inj.mp h).symm

/-! ## Poses without rotation -/

/-- Exact functions for poses without rotation, over the rationals: the angles are all `0`. -/
@[reducible] def translationLibm : Libm ℚ where
  sqrt := Rat.sqrt
  sin _ := 0
  cos _ := 1
  acos _ := 0
  atan2 _ _ := 0
  lt a b := a < b
  le a b := a ≤ b
  eq a b := a = b

/-- A pose without rotation on the `x` axis. -/
def onAxis (x : ℚ) : Iso3 ℚ := ⟨⟨1, 0, 0, 0⟩, ⟨x, 0, 0⟩⟩

/-- A motion without rotation is on the principal branch. -/
theorem not_offBranch_translation (v : Vec3 ℚ) :
    ¬ @OffBranch ℚ translationLibm (@logSo3 ℚ translationLibm) ⟨⟨1, 0, 0, 0⟩, v⟩ := by
  let _ := translationLibm
  have hsign : lt (1 : ℚ) 0.0 = false := by decide +kernel
  have hsmall : lt (⟨1, 0, 0, 0⟩ : Quat ℚ).vector.normSquared screwDegenerateSq = true := by
    decide +kernel
  have hlog : le (logSo3 (⟨1, 0, 0, 0⟩ : Quat ℚ)).norm branchBound = true := by decide +kernel
  have hpart : screwParts (⟨⟨1, 0, 0, 0⟩, v⟩ : Iso3 ℚ) = .degenerate ⟨⟨1, 0, 0, 0⟩, v⟩ := by
    simp only [screwParts, hsign, hsmall, Bool.false_eq_true, if_false, if_true]
  rintro ⟨c, hc, hoff⟩
  cases hpart.symm.trans hc
  rw [hlog] at hoff
  cases hoff

end TfTree
