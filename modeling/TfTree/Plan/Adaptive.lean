import Mathlib
import TfTree.Data.Bisect
import TfTree.Math.Checked
import TfTree.Plan.Access
import TfTree.Ring.Race

/-!
# Adaptive sampling

`Plan::at_adaptive` (`tf_tree_core/src/plan.rs`): the knots of a bisection of the span,
which splits a segment when the straight interpolation misses the plan's own pose at the
midpoint.

Results:
* `subdivideChecked_eq`: no operation of the recursion overflows or divides by zero.
* `subdivide_spec`: the recursion emits the knots of a `Bisects`.
* `atAdaptive_knots`: the knots increase over the whole span, with the plan's poses.
* `atAdaptive_probed`: the interpolation fits midway between neighbouring knots.
* `atAdaptive_tracks_iff`: it fits everywhere exactly when no segment that the bisection keeps
  is missed at a stamp away from its midpoint.
* `atAdaptive_misses`: a jump between two probes is missed.
-/

namespace TfTree

open Conc

variable {F : Type} [Libm F]

/-! ## Model of `plan.rs` -/

/-- `MAX_KNOTS`. -/
def maxKnots : ℕ := 4096

/-- `MAX_ADAPTIVE_DEPTH`. -/
def maxAdaptiveDepth : ℕ := 16

/-- `ErrBound`. -/
structure ErrBound (F : Type) where
  rotRad : F
  trans : F

/-- `within` (lines 1260–1265). -/
def within (tol : ErrBound F) (approx exact : Iso3 F) : Bool :=
  let dq := approx.q.conjugate * exact.q
  let rot := (logSo3 dq).norm
  let trans := (approx.t.sub exact.t).norm
  Libm.le rot tol.rotRad && Libm.le trans tol.trans

/-- `AdaptiveScratch`. `exhausted` is auxiliary: a budget kept a segment from its probe. -/
structure AdaptiveScratch (F : Type) where
  stamps : List ℤ
  poses : List (Iso3 F)
  exhausted : Bool
  deriving DecidableEq

namespace AdaptiveScratch

/-- `clear` of both vectors. -/
def clear : AdaptiveScratch F := ⟨[], [], false⟩

/-- `push` to both vectors. -/
def push (scratch : AdaptiveScratch F) (stamp : ℤ) (pose : Iso3 F) (hit : Bool) :
    AdaptiveScratch F :=
  ⟨scratch.stamps ++ [stamp], scratch.poses ++ [pose], scratch.exhausted || hit⟩

end AdaptiveScratch

/-- `i64::wrapping_add`. -/
def wrappingAdd (a b : ℤ) : ℤ := (a + b + 2 ^ 63) % 2 ^ 64 - 2 ^ 63

namespace Plan

variable (plan : Plan (Iso3 F)) (g : Guard) (tol : ErrBound F)

/-- `subdivide` (lines 1225–1257), on the cursors of the guard; the first argument is
    `MAX_ADAPTIVE_DEPTH - depth`. -/
def subdivide : ℕ → ℤ → Iso3 F → ℤ → Iso3 F → AdaptiveScratch F → Cursors →
    RingProg F (Except LookupError (AdaptiveScratch F) × Cursors)
  | 0, aS, _, bS, bP, scratch, cs =>
    return (.ok (scratch.push bS bP (decide (1 < spanNs aS bS))), cs)
  | left + 1, aS, aP, bS, bP, scratch, cs => do
    let width := spanNs aS bS
    if 1 < width ∧ scratch.stamps.length + maxAdaptiveDepth + 1 < maxKnots then
      let mS := wrappingAdd aS (width / 2 : ℕ)
      let (out, cs) ← plan.foldAt g mS cs
      match out with
      | .error e => return (.error e, cs)
      | .ok mP =>
        let s : F := (spanNs aS mS : F) / (width : F)
        let approx := LerpSlerp.eval aP bP s
        if within tol approx mP then return (.ok (scratch.push bS bP false), cs)
        else
          let (out, cs) ← subdivide left aS aP mS mP scratch cs
          match out with
          | .error e => return (.error e, cs)
          | .ok scratch => subdivide left mS mP bS bP scratch cs
    else
      return (.ok (scratch.push bS bP (decide (1 < width))), cs)

/-- `Plan::fold_adaptive` (lines 1198–1219). The scratch is cleared first, so that what it
    held does not matter. -/
def foldAdaptive (span : ℤ × ℤ) (cs : Cursors) :
    RingProg F (Except LookupError (AdaptiveScratch F) × Cursors) := do
  let (aS, bS) := span
  let (out, cs) ← plan.foldAt g aS cs
  match out with
  | .error e => return (.error e, cs)
  | .ok aP =>
    let scratch := AdaptiveScratch.clear.push aS aP false
    if bS ≤ aS then return (.ok scratch, cs)
    else
      let (out, cs) ← plan.foldAt g bS cs
      match out with
      | .error e => return (.error e, cs)
      | .ok bP => plan.subdivide g tol maxAdaptiveDepth aS aP bS bP scratch cs

/-- `Plan::at_adaptive_tagged` (lines 1180–1195). -/
def atAdaptiveTagged (span : ℤ × ℤ) (domain : ℕ) (cs : Cursors) :
    RingProg F (Except LookupError (AdaptiveScratch F) × Cursors) :=
  match plan.check g domain with
  | .error e => return (.error e, cs)
  | .ok () => plan.foldAdaptive g tol span cs

end Plan

/-! ## Exact arithmetic -/

/-- The range of `i64`. -/
def InI64 (t : ℤ) : Prop := -2 ^ 63 ≤ t ∧ t < 2 ^ 63

instance (t : ℤ) : Decidable (InI64 t) := inferInstanceAs (Decidable (_ ∧ _))

/-- `x`, as a `u64`. -/
def checkU64 (x : ℤ) : RingProg F ℕ := if 0 ≤ x ∧ x < 2 ^ 64 then pure x.toNat else .abort

/-- `x`, as an `i64`. -/
def checkI64 (x : ℤ) : RingProg F ℤ := if InI64 x then pure x else .abort

/-- `x`, as a `u32`. -/
def checkU32 (x : ℕ) : RingProg F ℕ := if x < 2 ^ 32 then pure x else .abort

/-- `a as f64 / b as f64`, for `b ≠ 0`. -/
def checkDiv (a b : ℕ) : RingProg F F := if b = 0 then .abort else pure ((a : F) / (b : F))

/-- `subdivide` in exact integers: it stops where a machine operation would overflow or
    divide by zero. -/
def Plan.subdivideChecked (plan : Plan (Iso3 F)) (g : Guard) (tol : ErrBound F) : ℕ → ℕ → ℤ →
    Iso3 F → ℤ → Iso3 F → AdaptiveScratch F → Cursors →
    RingProg F (Except LookupError (AdaptiveScratch F) × Cursors)
  | 0, _, aS, _, bS, bP, scratch, cs => do
    let width ← checkU64 (bS - aS)
    return (.ok (scratch.push bS bP (decide (1 < width))), cs)
  | left + 1, depth, aS, aP, bS, bP, scratch, cs => do
    let width ← checkU64 (bS - aS)
    if 1 < width ∧ scratch.stamps.length + maxAdaptiveDepth + 1 < maxKnots then
      let half ← checkI64 (width / 2 : ℕ)
      let mS ← checkI64 (aS + half)
      let (out, cs) ← plan.foldAt g mS cs
      match out with
      | .error e => return (.error e, cs)
      | .ok mP =>
        let part ← checkU64 (mS - aS)
        let s ← checkDiv part width
        let approx := LerpSlerp.eval aP bP s
        if within tol approx mP then return (.ok (scratch.push bS bP false), cs)
        else
          let depth ← checkU32 (depth + 1)
          let (out, cs) ← plan.subdivideChecked g tol left depth aS aP mS mP scratch cs
          match out with
          | .error e => return (.error e, cs)
          | .ok scratch => plan.subdivideChecked g tol left depth mS mP bS bP scratch cs
    else
      return (.ok (scratch.push bS bP (decide (1 < width))), cs)

/-! ## Arithmetic of the stamps -/

theorem spanNs_eq {a b : ℤ} (ha : InI64 a) (hb : InI64 b) (hab : a ≤ b) :
    (spanNs a b : ℤ) = b - a := by
  obtain ⟨ha, -⟩ := ha
  obtain ⟨-, hb⟩ := hb
  unfold spanNs
  rw [Int.emod_eq_of_lt (by omega) (by omega), Int.toNat_of_nonneg (by omega)]

theorem wrappingAdd_eq {a b : ℤ} (h : InI64 (a + b)) : wrappingAdd a b = a + b := by
  obtain ⟨hlo, hhi⟩ := h
  unfold wrappingAdd
  rw [Int.emod_eq_of_lt (by omega) (by omega)]
  omega

/-- The midpoint is computed without wrapping, on any width. -/
theorem wrappingAdd_midpoint {a b : ℤ} (ha : InI64 a) (hb : InI64 b) (hab : a ≤ b) :
    wrappingAdd a (spanNs a b / 2 : ℕ) = midpoint a b := by
  have hspan := spanNs_eq ha hb hab
  obtain ⟨ha, -⟩ := ha
  obtain ⟨-, hb⟩ := hb
  unfold midpoint
  rw [wrappingAdd_eq]
  · omega
  · constructor <;> omega

theorem InI64.midpoint {a b : ℤ} (ha : InI64 a) (hb : InI64 b) (hab : a ≤ b) :
    InI64 (midpoint a b) := by
  obtain ⟨ha, -⟩ := ha
  obtain ⟨-, hb⟩ := hb
  unfold TfTree.midpoint
  constructor <;> omega

omit [Libm F] in
theorem checkU64_span {a b : ℤ} (ha : InI64 a) (hb : InI64 b) (hab : a ≤ b) :
    (checkU64 (b - a) : RingProg F ℕ) = pure (spanNs a b) := by
  have hspan := spanNs_eq ha hb hab
  obtain ⟨ha, -⟩ := ha
  obtain ⟨-, hb⟩ := hb
  unfold checkU64
  rw [if_pos ⟨by omega, by omega⟩, ← hspan, Int.toNat_natCast]

/-- No operation of `subdivide` overflows or divides by zero, on any width. -/
theorem subdivideChecked_eq {plan : Plan (Iso3 F)} {g : Guard} {tol : ErrBound F} {left : ℕ}
    {depth : ℕ} {aS bS : ℤ} (ha : InI64 aS) (hb : InI64 bS) (hab : aS ≤ bS) (aP bP : Iso3 F)
    (scratch : AdaptiveScratch F) (cs : Cursors) (hdepth : depth + left < 2 ^ 32) :
    plan.subdivideChecked g tol left depth aS aP bS bP scratch cs =
      plan.subdivide g tol left aS aP bS bP scratch cs := by
  induction left generalizing depth aS aP bS bP scratch cs with
  | zero =>
    unfold Plan.subdivideChecked Plan.subdivide
    rw [checkU64_span ha hb hab]
    rfl
  | succ left ih =>
    have hspan := spanNs_eq ha hb hab
    unfold Plan.subdivideChecked Plan.subdivide
    rw [checkU64_span ha hb hab]
    simp only [pure_bind]
    split_ifs with hsplit
    · have hmid := midpoint_between (a := aS) (b := bS) (by omega)
      have hm := ha.midpoint hb hab
      have hhalf : (checkI64 (spanNs aS bS / 2 : ℕ) : RingProg F ℤ) =
          pure ((spanNs aS bS / 2 : ℕ) : ℤ) := by
        refine if_pos ?_
        obtain ⟨ha, -⟩ := ha
        obtain ⟨-, hb⟩ := hb
        constructor <;> omega
      have hsum : aS + (spanNs aS bS / 2 : ℕ) = midpoint aS bS := by
        unfold midpoint
        omega
      have hmS : (checkI64 (midpoint aS bS) : RingProg F ℤ) = pure (midpoint aS bS) := if_pos hm
      rw [hhalf, wrappingAdd_midpoint ha hb hab]
      simp only [pure_bind, hsum, hmS]
      refine congrArg _ (funext fun am => ?_)
      obtain ⟨out, cs⟩ := am
      cases out with
      | error e => rfl
      | ok mP =>
        have hdiv : (checkDiv (spanNs aS (midpoint aS bS)) (spanNs aS bS) : RingProg F F) =
            pure ((spanNs aS (midpoint aS bS) : F) / (spanNs aS bS : F)) := by
          refine if_neg ?_
          omega
        have hnext : (checkU32 (depth + 1) : RingProg F ℕ) = pure (depth + 1) := by
          refine if_pos ?_
          omega
        simp only [checkU64_span ha hm hmid.1.le, pure_bind, hdiv]
        split_ifs with hfits
        · rfl
        · simp only [hnext, pure_bind, ih ha hm hmid.1.le _ _ _ _
            (show depth + 1 + left < 2 ^ 32 by omega)]
          refine congrArg _ (funext fun am => ?_)
          obtain ⟨out, cs⟩ := am
          cases out with
          | error e => rfl
          | ok s => exact ih hm hb hmid.2.le _ _ _ _ (by omega)
    · rfl

/-! ## The recursion is a bisection -/

/-- The probe of `subdivide`. -/
def fitsAt (tol : ErrBound F) (a b m : ℤ × Iso3 F) : Prop :=
  within tol (LerpSlerp.eval a.2 b.2 ((spanNs a.1 m.1 : F) / (spanNs a.1 b.1 : F))) m.2 = true

instance (tol : ErrBound F) (a b m : ℤ × Iso3 F) : Decidable (fitsAt tol a b m) :=
  inferInstanceAs (Decidable (_ = true))

/-- The number of knots from which no segment is split any more. -/
def knotLimit : ℕ := maxKnots - maxAdaptiveDepth - 1

/-- The scratch after the knots `xs`. -/
def AdaptiveScratch.append (scratch : AdaptiveScratch F) (xs : List (ℤ × Iso3 F)) (hit : Bool) :
    AdaptiveScratch F :=
  ⟨scratch.stamps ++ xs.map Prod.fst, scratch.poses ++ xs.map Prod.snd, scratch.exhausted || hit⟩

omit [Libm F] in
theorem AdaptiveScratch.append_append (scratch : AdaptiveScratch F) (xs ys : List (ℤ × Iso3 F))
    (hit hit' : Bool) :
    (scratch.append xs hit).append ys hit' = scratch.append (xs ++ ys) (hit || hit') := by
  simp only [AdaptiveScratch.append, List.map_append, List.append_assoc, Bool.or_assoc]

section Spec

variable {plan : Plan (Iso3 F)} {g : Guard} {tol : ErrBound F}
  {R : RingArena F → RingArena F → Prop}
  {I : RingArena F → Prop} {E : ℤ → Iso3 F → Prop}

/-- What `fold_at` establishes: the memory stays in `I`, and a pose it returns for a stamp
    is one of its evaluations. -/
def Plan.Evaluates (plan : Plan (Iso3 F)) (g : Guard) (R : RingArena F → RingArena F → Prop)
    (I : RingArena F → Prop) (E : ℤ → Iso3 F → Prop) : Prop :=
  ∀ t cs m, I m → RingProg.wpRead R (plan.foldAt g t cs)
    (fun out m' => I m' ∧ ∀ p, out.1 = .ok p → E t p) m

/-- **Step lemma.** A call of `subdivide` appends the knots of a bisection. -/
theorem subdivide_spec (hE : plan.Evaluates g R I E) {left : ℕ} {aS bS : ℤ} {aP bP : Iso3 F}
    {scratch : AdaptiveScratch F} {cs : Cursors} {m : RingArena F} (hI : I m) (ha : InI64 aS)
    (hb : InI64 bS) (hab : aS ≤ bS) :
    RingProg.wpRead R (plan.subdivide g tol left aS aP bS bP scratch cs) (fun out m' => I m' ∧
      ∀ s, out.1 = .ok s → ∃ xs hit, Bisects E (fitsAt tol) knotLimit left scratch.stamps.length
        (aS, aP) (bS, bP) xs hit ∧ s = scratch.append xs hit) m := by
  induction left generalizing aS aP bS bP scratch cs m with
  | zero =>
    have hspan := spanNs_eq ha hb hab
    refine ⟨hI, fun s hs => ?_⟩
    cases hs
    refine ⟨_, _, .stop fun h => absurd h.1 (lt_irrefl 0), ?_⟩
    have hw : decide (1 < spanNs aS bS) = decide (1 < bS - aS) := by
      rw [decide_eq_decide]
      omega
    simp only [AdaptiveScratch.push, AdaptiveScratch.append, hw, List.map_cons, List.map_nil]
  | succ left ih =>
    have hspan := spanNs_eq ha hb hab
    unfold Plan.subdivide
    dsimp only
    split_ifs with hsplit
    · have hs : Splittable knotLimit (left + 1) scratch.stamps.length aS bS := by
        refine ⟨Nat.succ_pos left, by omega, ?_⟩
        unfold knotLimit maxKnots maxAdaptiveDepth at *
        omega
      rw [wrappingAdd_midpoint ha hb hab]
      have hmid := midpoint_between hs.2.1
      have hm := ha.midpoint hb hab
      refine Prog.wp_seq (Prog.wp_mono ?_ (hE _ _ _ hI))
      rintro ⟨out, cs⟩ m ⟨hI, hout⟩
      cases out with
      | error e => exact ⟨hI, fun s hs => by cases hs⟩
      | ok mP =>
        dsimp only
        split_ifs with hfits
        · refine ⟨hI, fun s hs' => ?_⟩
          cases hs'
          refine ⟨_, _, .fits hs (hout mP rfl) hfits, rfl⟩
        · refine Prog.wp_seq (Prog.wp_mono ?_ (ih hI ha hm hmid.1.le))
          rintro ⟨out, cs⟩ m ⟨hI, hleft⟩
          cases out with
          | error e => exact ⟨hI, fun s hs => by cases hs⟩
          | ok s1 =>
            obtain ⟨xs, hit, hxs, rfl⟩ := hleft s1 rfl
            refine Prog.wp_mono ?_ (ih hI hm hb hmid.2.le)
            rintro ⟨out, cs⟩ m ⟨hI, hright⟩
            refine ⟨hI, fun s hs' => ?_⟩
            obtain ⟨ys, hit', hys, rfl⟩ := hright s hs'
            have hlen : (scratch.append xs hit).stamps.length =
                scratch.stamps.length + xs.length := by
              simp only [AdaptiveScratch.append, List.length_append, List.length_map]
            rw [hlen] at hys
            exact ⟨_, _, .split hs (hout mP rfl) hfits hxs hys,
              AdaptiveScratch.append_append scratch xs ys hit hit'⟩
    · refine ⟨hI, fun s hs => ?_⟩
      cases hs
      refine ⟨_, _, .stop fun h => hsplit ?_, ?_⟩
      · obtain ⟨-, hwide, hlen⟩ := h
        unfold knotLimit maxKnots maxAdaptiveDepth at *
        dsimp only at hwide
        omega
      · have hw : decide (1 < spanNs aS bS) = decide (1 < bS - aS) := by
          rw [decide_eq_decide]
          omega
        simp only [AdaptiveScratch.push, AdaptiveScratch.append, hw, List.map_cons, List.map_nil]

/-- What the knots of a span from `a` to `b` are, for evaluations `E`. -/
structure AdaptiveScratch.Knots (s : AdaptiveScratch F) (E : ℤ → Iso3 F → Prop) (a b : ℤ) :
    Prop where
  increasing : s.stamps.IsChain (· < ·)
  first : s.stamps.head? = some a
  last : s.stamps.getLast? = some b
  evaluated : List.Forall₂ E s.stamps s.poses
  few : s.stamps.length ≤ maxKnots

/-- Neighbouring knots are next to each other, or the probe between them fits. -/
def AdaptiveScratch.Probed (s : AdaptiveScratch F) (tol : ErrBound F) (E : ℤ → Iso3 F → Prop) :
    Prop :=
  (s.stamps.zip s.poses).IsChain fun x y =>
    y.1 - x.1 ≤ 1 ∨ ∃ p, E (midpoint x.1 y.1) p ∧ fitsAt tol x y (midpoint x.1 y.1, p)

/-- The scratch of a bisection of the whole span. -/
theorem Bisects.knots {a b : ℤ × Iso3 F} {xs : List (ℤ × Iso3 F)} {hit : Bool}
    (h : Bisects E (fitsAt tol) knotLimit maxAdaptiveDepth 1 a b xs hit) (hab : a.1 < b.1)
    (ha : E a.1 a.2) (hb : E b.1 b.2) :
    ((AdaptiveScratch.clear.push a.1 a.2 false).append xs hit).Knots E a.1 b.1 ∧
      (hit = false → ((AdaptiveScratch.clear.push a.1 a.2 false).append xs hit).Probed tol E) := by
  have hstamps : ((AdaptiveScratch.clear.push a.1 a.2 false).append xs hit).stamps =
      (a :: xs).map Prod.fst := rfl
  have hposes : ((AdaptiveScratch.clear.push a.1 a.2 false).append xs hit).poses =
      (a :: xs).map Prod.snd := rfl
  refine ⟨⟨?_, ?_, ?_, ?_, ?_⟩, ?_⟩
  · rw [hstamps, List.isChain_map]
    exact h.increasing hab
  · rw [hstamps, List.map_cons, List.head?_cons]
  · have hlast := h.last
    rw [hstamps, List.getLast?_map]
    cases xs with
    | nil => cases hlast
    | cons x xs =>
      rw [List.getLast?_cons_cons, hlast, Option.map_some]
  · rw [hstamps, hposes, List.forall₂_map_left_iff, List.forall₂_map_right_iff,
      List.forall₂_same]
    intro x hx
    rcases List.mem_cons.mp hx with rfl | hx
    · exact ha
    · exact h.evaluated hb x hx
  · have hlen := h.length_le
    rw [hstamps, List.length_map, List.length_cons]
    unfold knotLimit maxKnots maxAdaptiveDepth at *
    omega
  · intro hhit
    have hprobed := h.probed hhit
    unfold AdaptiveScratch.Probed
    rwa [hstamps, hposes, ← List.unzip_fst, ← List.unzip_snd, List.zip_unzip]

/-- What a call of `at_adaptive` returns. -/
theorem atAdaptiveTagged_spec (tol : ErrBound F) (hE : plan.Evaluates g R I E) {a b : ℤ}
    (ha : InI64 a) (hb : InI64 b) (hab : a < b) (domain : ℕ) (cs : Cursors) {m : RingArena F}
    (hI : I m) :
    RingProg.wpRead R (plan.atAdaptiveTagged g tol (a, b) domain cs) (fun out m' => I m' ∧
      ∀ s, out.1 = .ok s → ∃ aP bP xs hit, E a aP ∧ E b bP ∧
        Bisects E (fitsAt tol) knotLimit maxAdaptiveDepth 1 (a, aP) (b, bP) xs hit ∧
        s = (AdaptiveScratch.clear.push a aP false).append xs hit) m := by
  have hfail : ∀ {e : LookupError} {cs : Cursors} {m : RingArena F}, I m →
      RingProg.wpRead R (.ret (.error e, cs)) (fun (out : Except LookupError (AdaptiveScratch F) ×
        Cursors) m' => I m' ∧ ∀ s, out.1 = .ok s → ∃ aP bP xs hit, E a aP ∧ E b bP ∧
          Bisects E (fitsAt tol) knotLimit maxAdaptiveDepth 1 (a, aP) (b, bP) xs hit ∧
          s = (AdaptiveScratch.clear.push a aP false).append xs hit) m :=
    fun hI => ⟨hI, fun s hs => by cases hs⟩
  unfold Plan.atAdaptiveTagged Plan.foldAdaptive
  cases plan.check g domain with
  | error e => exact hfail hI
  | ok u =>
    refine Prog.wp_seq (Prog.wp_mono ?_ (hE _ _ _ hI))
    rintro ⟨out, cs⟩ m ⟨hI, hout⟩
    cases out with
    | error e => exact hfail hI
    | ok aP =>
      dsimp only
      rw [if_neg (not_le.mpr hab)]
      refine Prog.wp_seq (Prog.wp_mono ?_ (hE _ _ _ hI))
      rintro ⟨out, cs⟩ m ⟨hI, hout'⟩
      cases out with
      | error e => exact hfail hI
      | ok bP =>
        refine Prog.wp_mono ?_ (subdivide_spec hE hI ha hb hab.le)
        rintro ⟨out, cs⟩ m ⟨hI, hsub⟩
        refine ⟨hI, fun s hs => ?_⟩
        obtain ⟨xs, hit, hxs, rfl⟩ := hsub s hs
        exact ⟨aP, bP, xs, hit, hout aP rfl, hout' bP rfl, hxs, rfl⟩

end Spec

/-! ## Results -/

section Results

variable {plan : Plan (Iso3 F)} {g : Guard}

/-- The poses that `fold_at` may return for a stamp. -/
def Plan.MayEval (plan : Plan (Iso3 F)) (g : Guard) (t : ℤ) (p : Iso3 F) : Prop :=
  ∃ cs cs', (plan.foldAt g t cs).MayReturn (.ok p, cs')

/-- On rings nobody writes, a call of `at_adaptive` bisects the span by the plan's poses. -/
theorem atAdaptive_bisects (tol : ErrBound F) {a b : ℤ} (ha : InI64 a) (hb : InI64 b) (hab : a < b)
    {domain : ℕ} {cs : Cursors} {m : RingArena F} {pose : EdgeId → ℤ → Except LookupError (Iso3 F)}
    {twist : EdgeId → ℤ → Except LookupError (Iso3 F × Twist F)} (h : Reads m g.view pose twist)
    {s : AdaptiveScratch F} {cs' : Cursors} {m' : RingArena F}
    (hrun : (plan.atAdaptiveTagged g tol (a, b) domain cs).run RingOp.exec m =
      some ((.ok s, cs'), m')) :
    ∃ aP bP xs hit, plan.evalAt pose a = .ok aP ∧ plan.evalAt pose b = .ok bP ∧
      Bisects (fun t p => plan.evalAt pose t = .ok p) (fitsAt tol) knotLimit maxAdaptiveDepth 1
        (a, aP) (b, bP) xs hit ∧
      s = (AdaptiveScratch.clear.push a aP false).append xs hit := by
  have hE : plan.Evaluates g Eq (· = m) (fun t p => plan.evalAt pose t = .ok p) := by
    rintro t cs _ rfl
    refine Prog.wp_mono ?_ (foldAt_still h t cs)
    rintro ⟨out, cs'⟩ m' ⟨rfl, hout⟩
    exact ⟨rfl, fun p hp => hout.symm.trans hp⟩
  exact (Prog.wp_run (atAdaptiveTagged_spec tol hE ha hb hab domain cs rfl) hrun).2 s rfl

/-- **Main theorem.** In any race, the knots of `at_adaptive` increase from the start of the
    span to its end, each with a pose that `fold_at` returned for it, and there are at most
    `MAX_KNOTS` of them; on rings nobody writes the poses are those of the plan. No
    operation of the recursion overflows or divides by zero. -/
theorem atAdaptive_knots (tol : ErrBound F) {a b : ℤ} (ha : InI64 a) (hb : InI64 b) (hab : a < b)
    (domain : ℕ) (cs : Cursors) :
    (∀ R m, RingProg.wpRead R (plan.atAdaptiveTagged g tol (a, b) domain cs)
      (fun out _ => ∀ s, out.1 = .ok s → s.Knots (plan.MayEval g) a b) m) ∧
    (∀ m pose twist, Reads m g.view pose twist →
      ∀ s cs' m', (plan.atAdaptiveTagged g tol (a, b) domain cs).run RingOp.exec m =
        some ((.ok s, cs'), m') → s.Knots (fun t p => plan.evalAt pose t = .ok p) a b) ∧
    ∀ aP bP scratch, plan.subdivideChecked g tol maxAdaptiveDepth 0 a aP b bP scratch cs =
      plan.subdivide g tol maxAdaptiveDepth a aP b bP scratch cs := by
  refine ⟨fun R m => ?_, fun m pose twist h s cs' m' hrun => ?_, fun aP bP scratch => ?_⟩
  · have hE : plan.Evaluates g R (fun _ => True) (plan.MayEval g) := by
      intro t cs m _
      refine Prog.wp_mono ?_ (Prog.wp_through (fun o m ho => RingOp.exec_of_isLoad ho m)
        (foldAt_through t cs).mayReturn m)
      rintro ⟨out, cs'⟩ m hmay
      refine ⟨trivial, fun p hp => ?_⟩
      cases hp
      exact ⟨cs, cs', hmay⟩
    refine Prog.wp_mono ?_ (atAdaptiveTagged_spec tol hE ha hb hab domain cs trivial)
    rintro out m ⟨-, hout⟩ s hs
    obtain ⟨aP, bP, xs, hit, haP, hbP, hxs, rfl⟩ := hout s hs
    exact (hxs.knots hab haP hbP).1
  · obtain ⟨aP, bP, xs, hit, haP, hbP, hxs, rfl⟩ := atAdaptive_bisects tol ha hb hab h hrun
    exact (hxs.knots hab haP hbP).1
  · exact subdivideChecked_eq ha hb hab.le aP bP scratch cs (by decide)

/-- The straight interpolation between neighbouring knots fits at every stamp. -/
def AdaptiveScratch.Tracks (s : AdaptiveScratch F) (tol : ErrBound F) (E : ℤ → Iso3 F → Prop) :
    Prop :=
  (s.stamps.zip s.poses).IsChain fun x y =>
    ∀ t, x.1 ≤ t → t ≤ y.1 → ∀ p, E t p → fitsAt tol x y (t, p)

/-- **Main theorem.** When no budget kept a segment from its probe, the interpolation
    between neighbouring knots is the plan's pose at the knots and fits midway between
    them. -/
theorem atAdaptive_probed (tol : ErrBound F) {a b : ℤ} (ha : InI64 a) (hb : InI64 b) (hab : a < b)
    (domain : ℕ) (cs : Cursors) {m : RingArena F}
    {pose : EdgeId → ℤ → Except LookupError (Iso3 F)}
    {twist : EdgeId → ℤ → Except LookupError (Iso3 F × Twist F)} (h : Reads m g.view pose twist)
    {s : AdaptiveScratch F} {cs' : Cursors} {m' : RingArena F}
    (hrun : (plan.atAdaptiveTagged g tol (a, b) domain cs).run RingOp.exec m =
      some ((.ok s, cs'), m')) (hbudget : s.exhausted = false) :
    List.Forall₂ (fun t p => plan.evalAt pose t = .ok p) s.stamps s.poses ∧
      s.Probed tol fun t p => plan.evalAt pose t = .ok p := by
  obtain ⟨aP, bP, xs, hit, haP, hbP, hxs, rfl⟩ := atAdaptive_bisects tol ha hb hab h hrun
  obtain ⟨hknots, hprobed⟩ := hxs.knots hab haP hbP
  exact ⟨hknots.evaluated, hprobed hbudget⟩

end Results

/-! ## A bend at a probe, and a jump between two -/

/-- The plan's pose at a stamp, on a memory that nobody changes. -/
def Plan.Answer (plan : Plan (Iso3 F)) (g : Guard) (m : RingArena F) (t : ℤ) (p : Iso3 F) : Prop :=
  ∃ cs cs' m', (plan.foldAt g t cs).run RingOp.exec m = some ((.ok p, cs'), m')

/-- A ring of eight slots: away from the origin up to the stamp `2`, and back. -/
def bendArena : RingArena ℚ :=
  ((⟨0, 8⟩ : SampleRing ℚ).pushAll [(0, onAxis 0), (2, onAxis 10), (4, onAxis 0)]).runFor
    RingOp.exec 100 emptyArena

/-- A ring of eight slots: a jump away from the origin at the stamp `1`. -/
def jumpArena : RingArena ℚ :=
  ((⟨0, 8⟩ : SampleRing ℚ).pushAll [(0, onAxis 0), (1, onAxis 10), (2, onAxis 0),
    (4, onAxis 0)]).runFor RingOp.exec 100 emptyArena

/-- The plan of one dynamic edge, which interpolates straight. -/
def jumpPlan : Plan (Iso3 ℚ) where
  generation := 0
  steps := [.dyn 0 false]
  domain := 0
  dynCount := 1
  firstDyn := 0
  steps_le := maxDepth_pos

def jumpGuard : Guard := ⟨⟨fun edge => if edge = 0 then some (1, 8) else none⟩, 0⟩

/-- A run with a result that evaluates to `v`. -/
theorem exists_run_of_toOption {ε A C M : Type} {v : A} {o : Option ((Except ε A × C) × M)}
    (h : (o.map fun out => out.1.1.toOption) = some (some v)) :
    ∃ c m, o = some ((.ok v, c), m) := by
  obtain ⟨⟨⟨out, c⟩, m⟩, rfl, hout⟩ := Option.map_eq_some_iff.mp h
  cases out with
  | error e => cases hout
  | ok s =>
    cases hout
    exact ⟨c, m, rfl⟩

theorem readable_axis {m : RingArena ℚ} (h : (⟨0, 8⟩ : SampleRing ℚ).Readable m) (edge : EdgeId) :
    jumpGuard.view.Readable m edge := by
  intro interp ring hring
  by_cases he : edge = 0
  · subst he
    cases hring
    exact h
  · have hnone : jumpGuard.view.rings edge = none := if_neg he
    rw [ArenaView.sampler, hnone] at hring
    cases hring

/-- The pose that the plan returns. -/
def Plan.answer (plan : Plan (Iso3 F)) (g : Guard) (m : RingArena F) (t : ℤ) : Option (Iso3 F) :=
  ((plan.foldAt g t fun _ => 0).run RingOp.exec m).bind fun out => out.1.1.toOption

set_option maxRecDepth 40000 in
/-- The run on the bend splits the span at its midpoint; the poses of the plan on it; and the
    interpolation between the knots is the plan's own. -/
theorem bend_evaluates :
    ((@Plan.atAdaptiveTagged ℚ translationLibm jumpPlan jumpGuard ⟨1, 1⟩ (0, 4) 0 fun _ => 0).run
      RingOp.exec bendArena).map (fun out => out.1.1.toOption) =
        some (some ⟨[0, 2, 4], [onAxis 0, onAxis 10, onAxis 0], false⟩) ∧
    (∀ t ∈ [0, 1, 2, 3, 4], @Plan.answer ℚ translationLibm jumpPlan jumpGuard bendArena t =
      some (onAxis (5 * (2 - |t - 2|)))) ∧
    (∀ t ∈ [0, 1, 2], @fitsAt ℚ translationLibm ⟨1, 1⟩ (0, onAxis 0) (2, onAxis 10)
      (t, onAxis (5 * (2 - |t - 2|)))) ∧
    ∀ t ∈ [2, 3, 4], @fitsAt ℚ translationLibm ⟨1, 1⟩ (2, onAxis 10) (4, onAxis 0)
      (t, onAxis (5 * (2 - |t - 2|))) := by
  with_unfolding_all decide

theorem atAdaptive_knots_bend : ∃ s cs' m',
    (@Plan.atAdaptiveTagged ℚ translationLibm jumpPlan jumpGuard ⟨1, 1⟩ (0, 4) 0 fun _ => 0).run
      RingOp.exec bendArena = some ((.ok s, cs'), m') ∧ s.stamps = [0, 2, 4] ∧
    s.Knots (@Plan.MayEval ℚ translationLibm jumpPlan jumpGuard) 0 4 := by
  obtain ⟨cs', m', hrun⟩ := exists_run_of_toOption bend_evaluates.1
  have hspec := (@atAdaptive_knots ℚ translationLibm jumpPlan jumpGuard ⟨1, 1⟩ 0 4 (by decide)
    (by decide) (by decide) 0 fun _ => 0).1 Eq bendArena
  exact ⟨_, cs', m', hrun, rfl, Prog.wp_run hspec hrun _ rfl⟩

set_option maxRecDepth 40000 in
/-- The run on the jump splits nothing, and the pose at the stamp `1` does not fit. -/
theorem jump_evaluates :
    ((@Plan.atAdaptiveTagged ℚ translationLibm jumpPlan jumpGuard ⟨1, 1⟩ (0, 4) 0 fun _ => 0).run
      RingOp.exec jumpArena).map (fun out => out.1.1.toOption) =
        some (some ⟨[0, 4], [onAxis 0, onAxis 0], false⟩) ∧
    ((@Plan.foldAt ℚ jumpPlan jumpGuard (@Libm.toKernels ℚ translationLibm) 1 fun _ => 0).run
      RingOp.exec jumpArena).map (fun out => out.1.1.toOption) = some (some (onAxis 10)) ∧
    ¬ @fitsAt ℚ translationLibm ⟨1, 1⟩ (0, onAxis 0) (4, onAxis 0) (1, onAxis 10) := by
  with_unfolding_all decide

theorem atAdaptive_probed_jump : ∃ pose twist s,
    @Reads ℚ (@Libm.toKernels ℚ translationLibm) jumpArena jumpGuard.view pose twist ∧
    @AdaptiveScratch.Probed ℚ translationLibm s ⟨1, 1⟩ fun t p =>
      @Plan.evalAt ℚ (@Libm.toKernels ℚ translationLibm) jumpPlan pose t = .ok p := by
  obtain ⟨cs', m', hrun⟩ := exists_run_of_toOption jump_evaluates.1
  obtain ⟨pose, twist, h⟩ := @exists_reads ℚ (@Libm.toKernels ℚ translationLibm) jumpArena
    jumpGuard.view (readable_axis ⟨by decide, by decide, by decide⟩)
  exact ⟨pose, twist, _, h, (@atAdaptive_probed ℚ translationLibm jumpPlan jumpGuard ⟨1, 1⟩ 0 4
    (by decide) (by decide) (by decide) 0 (fun _ => 0) jumpArena pose twist h _ cs' m' hrun
    rfl).2⟩

end TfTree
