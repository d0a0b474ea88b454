import Mathlib
import TfTree.Bridge.Clock

/-!
# Offsets that drift

A baseline follows the offset of its publisher by an eighth of the residual. An offset
that drifts by at most `d` from sample to sample stays within `8 * d + 7` of it, which is
not a step unless the threshold is lower.

Results:
* `follow_lag`: the lag of a follower, for any divisor.
* `OffsetTable.Tracks.observe`: a sample keeps the lags, and no second publisher steps.
* `slow_drift_never_steps`: no common-mode step is reported over a run in which all
  publishers but one drift.
-/

namespace TfTree.Bridge

open Data

variable {F : Type}

/-! ## Followers -/

/-- What is left of `r` without its `k`-th part, truncated. -/
theorem abs_sub_tdiv_le {k d r : ℤ} (hk : 0 < k) (hr : |r| ≤ k * d + (k - 1)) :
    |r - r.tdiv k| ≤ (k - 1) * (d + 1) := by
  -- the part taken off has the sign of `r`
  have hpos : ∀ x : ℤ, 0 ≤ x → x ≤ k * d + (k - 1) →
      0 ≤ x - x / k ∧ x - x / k ≤ (k - 1) * (d + 1) := by
    intro x hx hle
    have hq : x / k ≤ x := Int.ediv_le_self k hx
    have hmod := Int.emod_add_mul_ediv x k
    have hnonneg := Int.emod_nonneg x hk.ne'
    have hlt := Int.emod_lt_of_pos x hk
    have hqd : x / k ≤ d := by
      rw [← Int.lt_add_one_iff, Int.ediv_lt_iff_lt_mul hk]
      linarith
    refine ⟨by omega, ?_⟩
    have hmul : (k - 1) * (x / k) ≤ (k - 1) * d := by gcongr; omega
    linarith
  rcases le_total 0 r with h | h
  · rw [abs_of_nonneg h] at hr
    rw [Int.tdiv_eq_ediv_of_nonneg h]
    obtain ⟨h₁, h₂⟩ := hpos r h hr
    rw [abs_of_nonneg h₁]
    exact h₂
  · rw [abs_of_nonpos h] at hr
    obtain ⟨h₁, h₂⟩ := hpos (-r) (by omega) hr
    have hneg : r.tdiv k = -(-r / k) := by
      rw [← Int.tdiv_eq_ediv_of_nonneg (by omega : 0 ≤ -r), Int.neg_tdiv, neg_neg]
    rw [hneg, abs_of_nonpos (by omega)]
    omega

/-- A follower that has come within `(k - 1) * (d + 1)` of its target stays as close, if
    the target moves by at most `d` before each step. -/
theorem follow_lag {k d b o o' : ℤ} (hk : 0 < k) (hlag : |o - b| ≤ (k - 1) * (d + 1))
    (hmove : |o' - o| ≤ d) :
    |o' - b| ≤ k * d + (k - 1) ∧ |o' - (b + (o' - b).tdiv k)| ≤ (k - 1) * (d + 1) := by
  have htri : |o' - b| ≤ |o' - o| + |o - b| := abs_sub_le o' o b
  have hres : |o' - b| ≤ k * d + (k - 1) := by linarith
  refine ⟨hres, ?_⟩
  rw [← sub_sub]
  exact abs_sub_tdiv_le hk hres

/-! ## Saturation -/

/-- The value is one of an `i64`. -/
def InI64 (x : ℤ) : Prop := -2 ^ 63 ≤ x ∧ x ≤ 2 ^ 63 - 1

theorem inI64_clampI64 (x : ℤ) : InI64 (clampI64 x) := by
  unfold InI64 clampI64
  omega

theorem clampI64_eq {x : ℤ} (h : InI64 x) : clampI64 x = x := by
  unfold InI64 at h
  unfold clampI64
  omega

theorem satAbs_le (x : ℤ) : satAbs x ≤ 2 ^ 63 - 1 := (inI64_clampI64 _).2

/-- Saturation does not make a difference larger. -/
theorem satAbs_satSub_le (a b : ℤ) : satAbs (satSub a b) ≤ |a - b| := by
  have hclamp : ∀ x : ℤ, 0 ≤ x → clampI64 x ≤ x := by
    intro x hx
    unfold clampI64
    omega
  have habs : |clampI64 (a - b)| ≤ |a - b| := by
    unfold clampI64
    rcases abs_cases (a - b) with ⟨h, _⟩ | ⟨h, _⟩ <;> rw [h, abs_le] <;> omega
  exact (hclamp _ (abs_nonneg _)).trans habs

/-- A baseline that follows its offset: a small residual is no step, and leaves the
    baseline as close to the offset as a drift of `d` allows. A threshold at the end of
    the range is never passed. -/
theorem satAdd_lag {d threshold baseline offset offset' : ℤ} (hd : 8 * d + 7 ≤ threshold)
    (hb : InI64 baseline) (ho' : InI64 offset') (hmove : |offset' - offset| ≤ d)
    (hlag : 2 ^ 63 - 1 ≤ threshold ∨ |offset - baseline| ≤ 7 * (d + 1)) :
    satAbs (satSub offset' baseline) ≤ threshold ∧ (2 ^ 63 - 1 ≤ threshold ∨
      |offset' - satAdd baseline ((satSub offset' baseline).tdiv 8)| ≤ 7 * (d + 1)) := by
  by_cases hbig : 2 ^ 63 - 1 ≤ threshold
  · exact ⟨(satAbs_le _).trans hbig, Or.inl hbig⟩
  · have hlag := hlag.resolve_left hbig
    obtain ⟨hres, hnext⟩ := follow_lag (k := 8) (by decide) hlag hmove
    refine ⟨(satAbs_satSub_le _ _).trans (by omega), Or.inr ?_⟩
    -- nothing saturates
    obtain ⟨hlo, hhi⟩ := abs_le.mp hres
    have hsub : satSub offset' baseline = offset' - baseline := by
      refine clampI64_eq ?_
      unfold InI64
      omega
    have hadd : satAdd baseline ((offset' - baseline).tdiv 8) =
        baseline + (offset' - baseline).tdiv 8 := by
      refine clampI64_eq ?_
      unfold InI64 at hb ho' ⊢
      rcases le_total 0 (offset' - baseline) with h | h
      · rw [Int.tdiv_eq_ediv_of_nonneg h]
        omega
      · have hneg : (offset' - baseline).tdiv 8 = -(-(offset' - baseline) / 8) := by
          rw [← Int.tdiv_eq_ediv_of_nonneg (by omega : 0 ≤ -(offset' - baseline)), Int.neg_tdiv,
            neg_neg]
        rw [hneg]
        omega
    rw [hsub, hadd]
    exact hnext

/-! ## What a sample does to the table -/

namespace OffsetTable

/-- The rows with room for the publisher `id`. -/
def grown (rows : List (Option Offset)) (id : ℕ) : List (Option Offset) :=
  if rows.length ≤ id then Authority.resize rows (id + 1) none else rows

theorem lt_length_grown (rows : List (Option Offset)) (id : ℕ) : id < (grown rows id).length := by
  unfold grown
  split_ifs with h
  · unfold Authority.resize
    simp
    omega
  · omega

/-- The rows that are added are blank. -/
theorem getElem?_grown {rows : List (Option Offset)} {id j : ℕ} {row : Offset} :
    (grown rows id)[j]? = some (some row) ↔ rows[j]? = some (some row) := by
  unfold grown
  split_ifs with h
  · unfold Authority.resize
    rw [List.take_of_length_le (by omega)]
    by_cases hj : j < rows.length
    · rw [List.getElem?_append_left hj]
    · rw [List.getElem?_append_right (by omega), List.getElem?_eq_none (by omega : rows.length ≤ j),
        List.getElem?_replicate]
      split_ifs <;> simp
  · rfl

/-- What a publisher's row becomes with a new offset, and the size of its step. -/
def fold (threshold offset received : ℤ) : Option Offset → Offset × Option ℤ
  | none => (⟨offset, none, 0⟩, none)
  | some row =>
    let residual := satSub offset row.baseline
    if satAbs residual ≤ threshold then
      ({ row with baseline := satAdd row.baseline (residual.tdiv 8) }, none)
    else (⟨offset, some received, residual⟩, some residual)

variable [Floats F] {t t' : OffsetTable F} {owner : String} {stampNanos received : ℤ}

/-- What a step is answered with. -/
def verdict (t : OffsetTable F) (id : ℕ) (received delta : ℤ) : Option CommonMode :=
  if t.agreeing id delta received < 2 then none else some ⟨delta, t.agreeing id delta received⟩

/-- **Spec of `observe`.** A publisher that is not tracked leaves the rows; the row of
    another takes the offset, and a step is answered by the rows then. -/
theorem observe_spec (ht : t.ids.Ok) (owner : String) (stampNanos : ℤ) (hr : received ≠ 0) :
    ∃ ids, ids.Ok ∧ ids.table.keys = StrInterner.after t.ids.cap t.ids.table.keys owner ∧
      ((position ids.table.keys owner = none ∧
          t.observe owner stampNanos received = some (none, { t with ids := ids })) ∨
        ∃ id row v t', position ids.table.keys owner = some id ∧
          (grown t.rows id)[id]? = some row ∧
          t.observe owner stampNanos received = some (v, t') ∧ t'.ids = ids ∧
          t'.policy = t.policy ∧
          t'.rows = (grown t.rows id).set id (some (fold t.policy.resetThresholdNanos
            (satSub stampNanos received) received row).1) ∧
          v = (fold t.policy.resetThresholdNanos (satSub stampNanos received) received row).2.bind
            (t'.verdict id received)) := by
  obtain ⟨ids, hint, hok, -, hkeys⟩ := ht.intern owner
  rw [← hkeys] at hint
  refine ⟨ids, hok, hkeys, ?_⟩
  unfold observe
  rw [if_neg hr]
  simp only [Option.bind_eq_bind, hint, Option.bind_some]
  cases hpos : position ids.table.keys owner with
  | none => exact Or.inl ⟨rfl, rfl⟩
  | some id =>
    dsimp only
    obtain ⟨row, hrow⟩ : ∃ row, (grown t.rows id)[id]? = some row :=
      ⟨_, List.getElem?_eq_getElem (lt_length_grown t.rows id)⟩
    change _ ∨ ∃ id' row v t', some id = some id' ∧ _ ∧ ((grown t.rows id)[id]?.bind _) = _ ∧ _
    rw [hrow, Option.bind_some]
    refine Or.inr ⟨id, row, ?_⟩
    rw [hrow]
    cases row with
    | none => exact ⟨_, _, rfl, rfl, rfl, rfl, rfl, rfl, rfl⟩
    | some row =>
      dsimp only [fold]
      by_cases hle : satAbs (satSub (satSub stampNanos received) row.baseline) ≤
          t.policy.resetThresholdNanos
      · rw [if_pos hle, if_pos hle]
        exact ⟨_, _, rfl, rfl, rfl, rfl, rfl, rfl, rfl⟩
      · rw [if_neg hle, if_neg hle]
        by_cases htwo : agreeing (F := F)
            ⟨ids, (grown t.rows id).set id (some ⟨satSub stampNanos received, some received,
              satSub (satSub stampNanos received) row.baseline⟩), t.policy, t.steps + 1,
              t.commonModes⟩ id (satSub (satSub stampNanos received) row.baseline) received < 2
        · refine ⟨_, _, rfl, rfl, if_pos htwo, rfl, rfl, rfl, ?_⟩
          exact (if_pos htwo).symm
        · refine ⟨_, _, rfl, rfl, if_neg htwo, rfl, rfl, rfl, ?_⟩
          exact (if_neg htwo).symm

/-- No row but that of `id` agrees with a step if no other publisher has stepped. -/
theorem verdict_eq_none {id : ℕ} {delta : ℤ}
    (h : ∀ (j : ℕ) (row : Offset), j ≠ id → t.rows[j]? = some (some row) → row.steppedAt = none) :
    t.verdict id received delta = none := by
  have halone : t.agreeing id delta received = 1 := by
    unfold agreeing
    rw [List.filter_eq_nil_iff.mpr]
    · rfl
    · rintro ⟨row, j⟩ hmem
      have hget : t.rows[j]? = some row := List.mem_zipIdx_iff_getElem?.mp hmem
      by_cases hj : j = id
      · simp [hj]
      · unfold agrees
        cases row with
        | none => simp
        | some row => simp [h j row hj hget]
  unfold verdict
  rw [halone, if_pos (by decide)]

/-! ## The lags -/

/-- The row of a publisher whose last offset was `last`: it has not stepped and its baseline is
    as close to the offset as a drift of `d` allows. -/
structure Follows (d threshold : ℤ) (last : Option ℤ) (row : Offset) : Prop where
  steady : row.steppedAt = none
  range : InI64 row.baseline
  lag : ∃ offset, last = some offset ∧
    (2 ^ 63 - 1 ≤ threshold ∨ |offset - row.baseline| ≤ 7 * (d + 1))

omit [Floats F] in
/-- Every publisher with a row is known, and all but `lone` are followed; `last` has their
    last offsets. -/
structure Tracks (d : ℤ) (lone : String) (last : String → Option ℤ) (t : OffsetTable F) :
    Prop where
  ids : t.ids.Ok
  rows : ∀ (j : ℕ) (row : Offset), t.rows[j]? = some (some row) →
    ∃ p, t.ids.table.keys[j]? = some p ∧
      (p ≠ lone → Follows d t.policy.resetThresholdNanos (last p) row)

variable {d : ℤ} {lone : String} {last : String → Option ℤ}

omit [Floats F] in
/-- A new offset close to the last one is followed. -/
theorem Follows.fold {threshold offset : ℤ} {row : Option Offset} (hd : 0 ≤ d)
    (hthr : 8 * d + 7 ≤ threshold) (ho : InI64 offset) (received : ℤ) {last : Option ℤ}
    (hrow : ∀ r, row = some r → Follows d threshold last r)
    (hmove : ∀ o, last = some o → |offset - o| ≤ d) :
    (OffsetTable.fold threshold offset received row).2 = none ∧
      Follows d threshold (some offset) (OffsetTable.fold threshold offset received row).1 := by
  cases row with
  | none =>
    refine ⟨rfl, rfl, ho, offset, rfl, Or.inr ?_⟩
    show |offset - offset| ≤ 7 * (d + 1)
    rw [sub_self, abs_zero]
    omega
  | some r =>
    obtain ⟨hsteady, hrange, o, hlast, hlag⟩ := hrow r rfl
    obtain ⟨hres, hnext⟩ := satAdd_lag hthr hrange ho (hmove o hlast) hlag
    unfold OffsetTable.fold
    dsimp only
    rw [if_pos hres]
    exact ⟨rfl, hsteady, inI64_clampI64 _, offset, rfl, hnext⟩

omit [Floats F] in
/-- Earlier names keep their positions. -/
theorem getElem?_after {cap j : ℕ} {names : List String} {p q : String}
    (h : names[j]? = some q) : (StrInterner.after cap names p)[j]? = some q := by
  unfold StrInterner.after
  split_ifs
  · exact h
  · rw [List.getElem?_append_left (List.getElem?_eq_some_iff.mp h).1]
    exact h

/-- **Step lemma.** A sample keeps the lags: a step can only be that of `lone`, and no other
    publisher has stepped. -/
theorem Tracks.observe (ht : t.Tracks d lone last) (owner : String) (stampNanos : ℤ) (hd : 0 ≤ d)
    (hthr : 8 * d + 7 ≤ t.policy.resetThresholdNanos) (hr : received ≠ 0)
    (hmove : owner ≠ lone → ∀ o, last owner = some o → |satSub stampNanos received - o| ≤ d) :
    ∃ t', t.observe owner stampNanos received = some (none, t') ∧ t'.policy = t.policy ∧
      t'.Tracks d lone (Function.update last owner (some (satSub stampNanos received))) := by
  obtain ⟨ids, hok, hkeys, ⟨hpos, hobs⟩ |
    ⟨id, row, v, t', hpos, hrow, hobs, hids, hpolicy, hrows, hv⟩⟩ :=
      observe_spec ht.ids owner stampNanos hr
  · -- the publisher is not tracked
    refine ⟨_, hobs, rfl, hok, fun j r hj => ?_⟩
    obtain ⟨p, hp, hfollow⟩ := ht.rows j r hj
    have hp' : ids.table.keys[j]? = some p := by
      rw [hkeys]
      exact getElem?_after hp
    refine ⟨p, hp', fun hlone => ?_⟩
    have hne : p ≠ owner := by
      rintro rfl
      exact position_eq_none.mp hpos (List.mem_of_getElem? hp')
    rw [Function.update_of_ne hne]
    exact hfollow hlone
  · have hid := getElem?_of_position hpos
    have hlt : id < (grown t.rows id).length := lt_length_grown t.rows id
    -- the rows of the others stay
    have hothers : ∀ (j : ℕ) (r : Offset), j ≠ id → t'.rows[j]? = some (some r) →
        ∃ p, ids.table.keys[j]? = some p ∧ p ≠ owner ∧
          (p ≠ lone → Follows d t.policy.resetThresholdNanos (last p) r) := by
      intro j r hj hget
      rw [hrows, List.getElem?_set_ne (Ne.symm hj), getElem?_grown] at hget
      obtain ⟨p, hp, hfollow⟩ := ht.rows j r hget
      have hp' : ids.table.keys[j]? = some p := by
        rw [hkeys]
        exact getElem?_after hp
      refine ⟨p, hp', ?_, hfollow⟩
      rintro rfl
      exact hj ((List.getElem?_inj (List.getElem?_eq_some_iff.mp hp').1
        hok.table.nodup).mp (hp'.trans hid.symm))
    -- that of the publisher, if it is followed
    have hown : owner ≠ lone →
        (fold t.policy.resetThresholdNanos (satSub stampNanos received) received row).2 = none ∧
        Follows d t.policy.resetThresholdNanos (some (satSub stampNanos received))
          (fold t.policy.resetThresholdNanos (satSub stampNanos received) received row).1 := by
      intro hlone
      refine Follows.fold hd hthr (inI64_clampI64 _) received (fun r hr => ?_) (hmove hlone)
      rw [hr, getElem?_grown] at hrow
      obtain ⟨p, hp, hfollow⟩ := ht.rows id r hrow
      have hp' : ids.table.keys[id]? = some p := by
        rw [hkeys]
        exact getElem?_after hp
      obtain rfl : owner = p := Option.some_inj.mp (hid.symm.trans hp')
      exact hfollow hlone
    have hnone : v = none := by
      by_cases hlone : owner = lone
      · -- the others are all followed
        rw [hv]
        cases hstep : (fold t.policy.resetThresholdNanos (satSub stampNanos received) received
            row).2 with
        | none => rfl
        | some delta =>
          refine verdict_eq_none fun j r hj hget => ?_
          obtain ⟨p, -, hne, hfollow⟩ := hothers j r hj hget
          exact (hfollow (hlone ▸ hne)).steady
      · rw [hv, (hown hlone).1]
        rfl
    subst hnone
    refine ⟨t', hobs, hpolicy, hids ▸ hok, fun j r hj => ?_⟩
    rw [hids, hpolicy]
    by_cases hjid : j = id
    · subst hjid
      refine ⟨owner, hid, fun hlone => ?_⟩
      rw [hrows, List.getElem?_set_self hlt] at hj
      cases hj
      rw [Function.update_self]
      exact (hown hlone).2
    · obtain ⟨p, hp, hne, hfollow⟩ := hothers j r hjid hj
      refine ⟨p, hp, fun hlone => ?_⟩
      rw [Function.update_of_ne hne]
      exact hfollow hlone

/-! ## Runs -/

/-- A call of the table. -/
inductive Op where
  | observe (owner : String) (stampNanos received : ℤ)
  | clear
  deriving DecidableEq, Repr

/-- A sequence of calls, with the verdicts. -/
def run (t : OffsetTable F) : List Op → Option (List (Option CommonMode) × OffsetTable F)
  | [] => some ([], t)
  | .observe owner stampNanos received :: ops => do
    let (v, t) ← t.observe owner stampNanos received
    let (vs, t) ← t.run ops
    return (v :: vs, t)
  | .clear :: ops => t.clear.run ops

/-- The offsets of a publisher, in order. A sample without a receipt time has none. -/
def offsetsOf (owner : String) (ops : List Op) : List ℤ :=
  ops.filterMap fun op =>
    match op with
    | .observe p stampNanos received =>
      if p = owner ∧ received ≠ 0 then some (satSub stampNanos received) else none
    | .clear => none

/-- The offset of the publisher changes by at most `d` from one sample to the next. -/
def Drifts (d : ℕ) (owner : String) (ops : List Op) : Prop :=
  (offsetsOf owner ops).IsChain fun a b => |b - a| ≤ (d : ℤ)

omit [Floats F] in
/-- Blank rows are followed. -/
theorem Tracks.clear (ht : t.Tracks d lone last) : t.clear.Tracks d lone last where
  ids := ht.ids
  rows := by
    intro j row hj
    unfold OffsetTable.clear at hj
    rw [List.getElem?_map] at hj
    obtain ⟨_, -, h⟩ := Option.map_eq_some_iff.mp hj
    cases h

omit [Floats F] in
theorem Tracks.new (policy : ClockPolicy F) (d : ℤ) (lone : String) :
    (new policy).Tracks d lone fun _ => none where
  ids := ok_new policy
  rows := fun j row hj => by cases hj

/-- **Run lemma.** No sample of a run is answered with a common-mode step. -/
theorem Tracks.run {d : ℕ} (ht : t.Tracks d lone last)
    (hthr : 8 * d + 7 ≤ t.policy.resetThresholdNanos) (ops : List Op)
    (hdrift : ∀ p : String, p ≠ lone →
      ((last p).toList ++ offsetsOf p ops).IsChain fun a b => |b - a| ≤ (d : ℤ)) :
    ∃ vs t', t.run ops = some (vs, t') ∧ ∀ v ∈ vs, v = none := by
  induction ops generalizing t last with
  | nil => exact ⟨[], t, rfl, fun v hv => by cases hv⟩
  | cons op ops ih =>
    cases op with
    | clear => exact ih ht.clear hthr hdrift
    | observe owner stampNanos received =>
      by_cases hr : received = 0
      · -- the sample is not looked at
        obtain ⟨vs, t', hrun, hvs⟩ := ih ht hthr (fun p hp => by
          have h := hdrift p hp
          rwa [show offsetsOf p (.observe owner stampNanos received :: ops) = offsetsOf p ops by
            simp [offsetsOf, hr]] at h)
        have hobs : t.observe owner stampNanos received = some (none, t) := by
          unfold OffsetTable.observe
          rw [if_pos hr]
          rfl
        refine ⟨none :: vs, t', ?_, by simpa using hvs⟩
        simp only [OffsetTable.run, hobs, hrun, Option.bind_eq_bind, Option.bind_some]
        rfl
      · have hother : ∀ p, p ≠ owner →
            offsetsOf p (.observe owner stampNanos received :: ops) = offsetsOf p ops := by
          intro p hp
          simp [offsetsOf, Ne.symm hp]
        have hself : offsetsOf owner (.observe owner stampNanos received :: ops) =
            satSub stampNanos received :: offsetsOf owner ops := by
          simp [offsetsOf, hr]
        obtain ⟨t₁, hobs, hpolicy, ht₁⟩ := ht.observe owner stampNanos (by omega) hthr hr
          fun hlone o ho => by
            have h := hdrift owner hlone
            rw [ho, hself] at h
            exact (List.isChain_cons_cons.mp h).1
        obtain ⟨vs, t', hrun, hvs⟩ := ih ht₁ (by rw [hpolicy]; exact hthr) fun p hp => by
          have h := hdrift p hp
          by_cases hpo : p = owner
          · subst hpo
            rw [Function.update_self]
            rw [hself] at h
            exact h.right_of_append
          · rw [Function.update_of_ne hpo, ← hother p hpo]
            exact h
        refine ⟨none :: vs, t', ?_, by simpa using hvs⟩
        simp only [OffsetTable.run, hobs, hrun, Option.bind_eq_bind, Option.bind_some]
        rfl

end OffsetTable

/-- **Main theorem.** If the offsets of all publishers but one drift by at most `d` from one
    sample to the next, and `8 * d + 7` is within the threshold, no common-mode step is
    ever reported. -/
theorem slow_drift_never_steps [Floats F] (policy : ClockPolicy F) (d : ℕ)
    (hd : 8 * d + 7 ≤ policy.resetThresholdNanos) (lone : String) (ops : List OffsetTable.Op)
    (hdrift : ∀ p, p ≠ lone → OffsetTable.Drifts d p ops) :
    ∃ vs t, (OffsetTable.new policy).run ops = some (vs, t) ∧ ∀ v ∈ vs, v = none :=
  (OffsetTable.Tracks.new policy d lone).run hd ops hdrift

/-- One publisher drifts, and the other jumps to and fro. -/
theorem slow_drift_never_steps_jump :
    ∃ vs t, (OffsetTable.new (F := Hundredths) ⟨500000000, 1000000000, 0, 50000000, .halt⟩).run
      [.observe "wheels" 100 100, .observe "amcl" 100 100, .observe "wheels" 105 110,
        .observe "amcl" (-9000000000) 110, .observe "wheels" 110 120,
        .observe "amcl" 9000000000 120] = some (vs, t) ∧ ∀ v ∈ vs, v = none :=
  slow_drift_never_steps _ 5 (by decide) "amcl" _ fun p hp => by
    by_cases hw : p = "wheels"
    · subst hw
      unfold OffsetTable.Drifts
      decide
    · simp [OffsetTable.Drifts, OffsetTable.offsetsOf, Ne.symm hp, Ne.symm hw]

end TfTree.Bridge
