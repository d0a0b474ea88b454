import Mathlib.Data.Nat.Init
import Mathlib.Algebra.GroupWithZero.Nat

/-!
# Numerals

The instances behind the numerals that several modules use, each under its name: a numeral
is one term wherever it is written.
-/

namespace TfTree

/-! ## Of `Fin n` and of the positive numbers -/

instance neZero_two : NeZero 2 := ⟨by decide⟩

instance neZero_three : NeZero 3 := ⟨by decide⟩

instance neZero_four : NeZero 4 := ⟨by decide⟩

instance neZero_seven : NeZero 7 := ⟨by decide⟩

instance neZero_nine : NeZero 9 := ⟨by decide⟩

/-! ## Of a ring -/

instance atLeastTwo_two : Nat.AtLeastTwo 2 := ⟨by decide⟩

instance atLeastTwo_three : Nat.AtLeastTwo 3 := ⟨by decide⟩

instance atLeastTwo_six : Nat.AtLeastTwo 6 := ⟨by decide⟩

instance atLeastTwo_seven : Nat.AtLeastTwo 7 := ⟨by decide⟩

instance atLeastTwo_thirtyOne : Nat.AtLeastTwo 31 := ⟨by decide⟩

instance atLeastTwo_threeSixty : Nat.AtLeastTwo 360 := ⟨by decide⟩

instance atLeastTwo_cscDen : Nat.AtLeastTwo 15120 := ⟨by decide⟩

end TfTree
