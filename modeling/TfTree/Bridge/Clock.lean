import TfTree.Bridge.Authority

/-!
# Clocks

`clock.rs` of `tf_tree_bridge`: the guard of an edge, and the offsets of the publishers.
Instants are `ℤ`; differences saturate at the ends of an `i64`.

* `ClockGuard.observe_cases`: a stamp moves the mark forward to itself, or is refused and
  leaves it.
* `OffsetTable.Ok.observe`: the table of offsets takes every sample.
-/

namespace TfTree.Bridge

open Data

variable {F : Type}

/-! ## Model of `clock.rs` -/

/-- `OnClockReset`. -/
inductive OnClockReset where
  | halt
  | recreate
  deriving DecidableEq, Repr

/-- `ClockVerdict` (lines 44–62). -/
inductive ClockVerdict where
  | forward
  | jitter (byNanos : ℤ)
  | reset (byNanos : ℤ) (policy : OnClockReset)
  deriving DecidableEq, Repr

/-- `JumpKind`. -/
inductive JumpKind where
  | clockTypeChanged
  | backward
  | forward
  deriving DecidableEq, Repr

/-- `ClockEvidence`. -/
inductive ClockEvidence where
  | reported (kind : JumpKind)
  | commonMode (publishers : ℕ)
  deriving DecidableEq, Repr

/-- A value brought into the range of an `i64`. -/
def clampI64 (x : ℤ) : ℤ := max (-2 ^ 63) (min x (2 ^ 63 - 1))

/-- `i64::saturating_sub`. -/
def satSub (a b : ℤ) : ℤ := clampI64 (a - b)

/-- `i64::saturating_add`. -/
def satAdd (a b : ℤ) : ℤ := clampI64 (a + b)

/-- `i64::saturating_abs`. -/
def satAbs (a : ℤ) : ℤ := clampI64 |a|

/-- `ClockGuard` (lines 66–72). -/
structure ClockGuard where
  newest : Option ℤ
  thresholdNanos : ℤ
  policy : OnClockReset
  jitterDrops : ℕ
  resets : ℕ
  deriving DecidableEq, Repr

namespace ClockGuard

/-- `ClockGuard::with_threshold` (lines 88–96). -/
def withThreshold (policy : OnClockReset) (thresholdNanos : ℤ) : ClockGuard :=
  ⟨none, max thresholdNanos 0, policy, 0, 0⟩

/-- `ClockGuard::observe` (lines 99–119). -/
def observe (g : ClockGuard) (stampNanos : ℤ) : ClockVerdict × ClockGuard :=
  match g.newest with
  | none => (.forward, { g with newest := some stampNanos })
  | some newest =>
    if stampNanos ≥ newest then (.forward, { g with newest := some stampNanos })
    else
      let byNanos := satSub newest stampNanos
      if byNanos < g.thresholdNanos then
        (.jitter byNanos, { g with jitterDrops := g.jitterDrops + 1 })
      else (.reset byNanos g.policy, { g with resets := g.resets + 1 })

/-- `ClockGuard::forget`. -/
def forget (g : ClockGuard) : ClockGuard := { g with newest := none }

/-- A stamp that is not before the mark becomes the mark; another is refused. -/
theorem observe_cases (g : ClockGuard) (t : ℤ) :
    ((∀ newest, g.newest = some newest → newest ≤ t) ∧
      g.observe t = (.forward, { g with newest := some t })) ∨
    ((∃ newest, g.newest = some newest ∧ t < newest) ∧ (g.observe t).1 ≠ .forward ∧
      (g.observe t).2.newest = g.newest) := by
  unfold observe
  cases h : g.newest with
  | none => exact Or.inl ⟨fun newest hn => absurd hn (by simp), rfl⟩
  | some newest =>
    dsimp only
    by_cases hge : t ≥ newest
    · rw [if_pos hge]
      refine Or.inl ⟨fun newest' hn => ?_, rfl⟩
      cases hn
      exact hge
    · rw [if_neg hge]
      refine Or.inr ⟨⟨newest, rfl, not_le.mp hge⟩, ?_⟩
      split_ifs
      · exact ⟨by simp, rfl⟩
      · exact ⟨by simp, rfl⟩

end ClockGuard

/-- `ClockPolicy` (lines 185–196). -/
structure ClockPolicy (F : Type) where
  resetThresholdNanos : ℤ
  correlationWindowNanos : ℤ
  commonModeToleranceRatio : F
  commonModeToleranceFloorNanos : ℤ
  onReset : OnClockReset

/-- `BASELINE_DIVISOR`. -/
def baselineDivisor : ℤ := 8

/-- `Offset` (lines 220–227). -/
structure Offset where
  baseline : ℤ
  steppedAt : Option ℤ
  stepDelta : ℤ
  deriving DecidableEq, Repr

/-- `CommonMode`. -/
structure CommonMode where
  deltaNanos : ℤ
  publishers : ℕ
  deriving DecidableEq, Repr

/-- `OffsetTable` (lines 241–249). -/
structure OffsetTable (F : Type) where
  ids : StrInterner
  rows : List (Option Offset)
  policy : ClockPolicy F
  steps : ℕ
  commonModes : ℕ

namespace OffsetTable

/-- `OffsetTable::new` (lines 260–268). -/
def new (policy : ClockPolicy F) : OffsetTable F :=
  ⟨.withCap maxTrackedPublishers, [], policy, 0, 0⟩

variable [Floats F]

/-- `OffsetTable::tolerance` (lines 352–356). -/
def tolerance (t : OffsetTable F) (a b : ℤ) : ℤ :=
  let scale := max (satAbs a) (satAbs b)
  let scaled := Floats.toI64 (Floats.ofInt scale * t.policy.commonModeToleranceRatio)
  max scaled (max t.policy.commonModeToleranceFloorNanos 0)

/-- Whether another publisher's step agrees with the step `delta` (lines 323–341). -/
def agrees (t : OffsetTable F) (delta received : ℤ) (other : Option Offset) : Bool :=
  match other with
  | none => false
  | some other =>
    match other.steppedAt with
    | none => false
    | some steppedAt =>
      let age := satSub received steppedAt
      if age < 0 ∨ age > t.policy.correlationWindowNanos then false
      else satAbs (satSub delta other.stepDelta) ≤ t.tolerance delta other.stepDelta

/-- The publishers that agree, this one included (lines 319–342). -/
def agreeing (t : OffsetTable F) (id : ℕ) (delta received : ℤ) : ℕ :=
  min (1 + (t.rows.zipIdx.filter fun r => r.2 ≠ id && t.agrees delta received r.1).length) u32Max

/-- `OffsetTable::observe` (lines 279–348). -/
def observe (t : OffsetTable F) (owner : String) (stampNanos received : ℤ) :
    Option (Option CommonMode × OffsetTable F) := do
  if received = 0 then return (none, t)
  else
    let offset := satSub stampNanos received
    let (id, ids) ← t.ids.intern owner
    let t := { t with ids := ids }
    match id with
    | none => return (none, t)
    | some id =>
      let t := { t with rows := if t.rows.length ≤ id then Authority.resize t.rows (id + 1) none
        else t.rows }
      match ← t.rows[id]? with
      | none => return (none, { t with rows := t.rows.set id (some ⟨offset, none, 0⟩) })
      | some row =>
        let residual := satSub offset row.baseline
        if satAbs residual ≤ t.policy.resetThresholdNanos then
          let baseline := satAdd row.baseline (residual.tdiv (max baselineDivisor 1))
          return (none, { t with rows := t.rows.set id (some { row with baseline := baseline }) })
        else
          let t := { t with
            rows := t.rows.set id (some ⟨offset, some received, residual⟩), steps := t.steps + 1 }
          let publishers := t.agreeing id residual received
          if publishers < 2 then return (none, t)
          else
            return (some ⟨residual, publishers⟩, { t with commonModes := t.commonModes + 1 })

/-- `OffsetTable::clear`. -/
def clear (t : OffsetTable F) : OffsetTable F := { t with rows := t.rows.map fun _ => none }

omit [Floats F] in
theorem ok_new (policy : ClockPolicy F) : (new policy).ids.Ok := StrInterner.ok_withCap _

/-- Every sample is taken. -/
theorem observe_returns {t : OffsetTable F} (ht : t.ids.Ok) (owner : String)
    (stampNanos received : ℤ) :
    ∃ c t', t.observe owner stampNanos received = some (c, t') ∧ t'.ids.Ok := by
  unfold observe
  by_cases h0 : received = 0
  · rw [if_pos h0]
    exact ⟨_, t, rfl, ht⟩
  · rw [if_neg h0]
    obtain ⟨ids, hint, hok, -, -⟩ := ht.intern owner
    simp only [Option.bind_eq_bind, hint, Option.bind_some]
    cases position (StrInterner.after t.ids.cap t.ids.table.keys owner) owner with
    | none => exact ⟨_, _, rfl, hok⟩
    | some id =>
      dsimp only
      obtain ⟨row, hrow⟩ : ∃ row, (if t.rows.length ≤ id then
          Authority.resize t.rows (id + 1) none else t.rows)[id]? = some row := by
        refine ⟨_, List.getElem?_eq_getElem ?_⟩
        split_ifs with h
        · unfold Authority.resize
          simp
          omega
        · omega
      rw [hrow, Option.bind_some]
      cases row with
      | none => exact ⟨_, _, rfl, hok⟩
      | some row =>
        dsimp only
        split_ifs <;> exact ⟨_, _, rfl, hok⟩

end OffsetTable

end TfTree.Bridge
