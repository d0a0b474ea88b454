import TfTree.Ring.Mem

/-!
# The bracket search

`SampleRing::bracket`, `SampleRing::bracket_from` and `rebase_hint`
(`tf_tree_core/src/sample.rs`). Both searches are written against the facts that
loading a stamp establishes (`Probe`), so the same two specifications serve a
reader that is alone with the ring and one that races its writer.

Results:
* `rebaseHint_mod`: the low half of an index of the window is lifted back to it.
* `bracket_spec`, `bracketFrom_spec`: the searches end at an index probed `≤ t`
  that is probed `> t` itself or whose successor is.
* `bracket_through`, `bracketFrom_through`: a search only loads, and ends inside its
  bounds.
* `bracketFrom_returns_iff`: the galloping search returns unless it leaves `u64`.
* `bracket_run`, `bracketFrom_run`: over a window with nondecreasing stamps both
  return the last index whose stamp is `≤ t`.
-/

namespace TfTree

open Conc

variable {F : Type}

/-! ## Model of `sample.rs` -/

/-- `rebase_hint` (lines 511–522): the high half of `newest` over the low half of
    the hint, one block lower if that passes `newest`. -/
def rebaseHint (hint loLogical newest : ℕ) : ℕ :=
  let block := 2 ^ 32
  if hint ≥ loLogical then hint
  else
    let lifted := newest / block * block + hint % block
    if lifted > newest then lifted - block else lifted

namespace SampleRing

variable (r : SampleRing F)

/-- The `while len > 1` loop of `bracket`. -/
def bracketLoop (base len : ℕ) (t : ℤ) : RingProg F ℕ :=
  if len > 1 then do
    let half := len / 2
    let s ← r.stampAt (base + half)
    if s ≤ t then bracketLoop (base + half) (len - half) t
    else bracketLoop base (len - half) t
  else pure base
termination_by len
decreasing_by all_goals omega

/-- `SampleRing::bracket` (lines 306–317). -/
def bracket (lo hi : ℕ) (t : ℤ) : RingProg F ℕ := do
  let d ← u64Sub hi lo
  r.bracketLoop lo (d + 1) t

/-- The gallop away from a hint at or before `t` (lines 327–330), from
    `step = 2^j` on; returns the final `step`. -/
def gallopUp (hint newest : ℕ) (t : ℤ) (j : ℕ) : RingProg F ℕ :=
  if hint + 2 ^ j < 2 ^ 64 then
    if hint + 2 ^ j < newest then do
      let s ← r.stampAt (hint + 2 ^ j)
      if s ≤ t then
        if 2 ^ j * 2 < 2 ^ 64 then gallopUp hint newest t (j + 1) else .abort
      else pure (2 ^ j)
    else pure (2 ^ j)
  else .abort
termination_by newest - (hint + 2 ^ j)
decreasing_by
  have := Nat.two_pow_pos j
  rw [pow_succ]
  omega

/-- The gallop away from a hint after `t` (lines 333–336). -/
def gallopDown (hint loLogical : ℕ) (t : ℤ) (j : ℕ) : RingProg F ℕ :=
  if hint - 2 ^ j > loLogical then do
    let s ← r.stampAt (hint - 2 ^ j)
    if s > t then
      if 2 ^ j * 2 < 2 ^ 64 then gallopDown hint loLogical t (j + 1) else .abort
    else pure (2 ^ j)
  else pure (2 ^ j)
termination_by hint - 2 ^ j
decreasing_by
  have := Nat.two_pow_pos j
  rw [pow_succ]
  omega

/-- `SampleRing::bracket_from` (lines 324–340). -/
def bracketFrom (loLogical newest : ℕ) (t : ℤ) (hint : ℕ) : RingProg F ℕ := do
  let hint := min (max (rebaseHint hint loLogical newest) loLogical) newest
  let s ← r.stampAt hint
  if s ≤ t then
    let step ← r.gallopUp hint newest t 0
    r.bracket (hint + step / 2) (min (hint + step) newest) t
  else
    let step ← r.gallopDown hint loLogical t 0
    let hi ← u64Sub hint (step / 2)
    r.bracket (max (hint - step) loLogical) hi t

end SampleRing

/-- A truncated index of the window is lifted back to itself. -/
theorem rebaseHint_mod {i loLogical newest : ℕ} (hlo : loLogical ≤ i) (hi : i ≤ newest)
    (hw : newest < loLogical + 2 ^ 32) : rebaseHint (i % 2 ^ 32) loLogical newest = i := by
  have hdi := Nat.div_add_mod i (2 ^ 32)
  have hdn := Nat.div_add_mod newest (2 ^ 32)
  have hmi := Nat.mod_lt i (Nat.two_pow_pos 32)
  have hmn := Nat.mod_lt newest (Nat.two_pow_pos 32)
  simp only [rebaseHint, Nat.mod_mod]
  split_ifs with h1 h2
  · omega
  · omega
  · omega

/-! ## What a probe of a stamp tells -/

/-- In a memory that satisfies `I`, `A i` is what a load of stamp `i` that finds it
    `≤ t` tells and `B i` what one that finds it `> t` tells; both survive the
    environment. -/
structure Probe (r : SampleRing F) (R : RingArena F → RingArena F → Prop) (t : ℤ) (lo hi : ℕ)
    (I : RingArena F → Prop) (A B : ℕ → RingArena F → Prop) : Prop where
  inv : ∀ i m, A i m → I m
  stable_le : ∀ i m m', A i m → R m m' → A i m'
  stable_gt : ∀ i m m', B i m → R m m' → B i m'
  le : ∀ i m, I m → lo ≤ i → i ≤ hi → r.stampOf m i ≤ t → A i m
  gt : ∀ i m, I m → lo ≤ i → i ≤ hi → t < r.stampOf m i → B i m

/-- The end of a search: `i` was probed `≤ t`, and its successor `> t` unless `i`
    itself was, too. -/
def Bracketed (A B : ℕ → RingArena F → Prop) (lo hi : ℕ) (i : ℕ) (m : RingArena F) : Prop :=
  lo ≤ i ∧ i ≤ hi ∧ A i m ∧ ((i < hi ∧ B (i + 1) m) ∨ B i m)

section Spec

variable {r : SampleRing F} {R : RingArena F → RingArena F → Prop} {t : ℤ} {lo hi : ℕ}
  {I : RingArena F → Prop} {A B : ℕ → RingArena F → Prop}

/-- The binary search. The invariant: `base` was probed `≤ t`, and the index after
    the last of the `len` candidates, or that last one, was probed `> t`. -/
theorem bracketLoop_spec (hp : Probe r R t lo hi I A B) {len base : ℕ} {m : RingArena F}
    (hlo : lo ≤ base) (hlen : 0 < len) (hend : base + len ≤ hi + 1) (ha : A base m)
    (hb : (base + len ≤ hi ∧ B (base + len) m) ∨ B (base + len - 1) m) :
    RingProg.wpRead R (r.bracketLoop base len t) (Bracketed A B lo hi) m := by
  induction len using Nat.strong_induction_on generalizing base m with
  | _ len ih =>
    rw [SampleRing.bracketLoop]
    split_ifs with h1
    · refine Prog.wp_seq (r.wpRead_stampAt.mpr fun m' hm => ?_)
      have hidx : base + len / 2 ≤ hi := by omega
      have hI : I m' := hp.inv _ _ (hp.stable_le _ _ _ ha hm)
      split_ifs with hs
      · refine ih (len - len / 2) (by omega) (by omega) (by omega) (by omega)
          (hp.le _ _ hI (by omega) hidx hs) ?_
        rw [show base + len / 2 + (len - len / 2) = base + len by omega]
        exact hb.imp (And.imp_right fun h => hp.stable_gt _ _ _ h hm)
          fun h => hp.stable_gt _ _ _ h hm
      · have hB : B (base + len / 2) m' := hp.gt _ _ hI (by omega) hidx (by omega)
        refine ih (len - len / 2) (by omega) hlo (by omega) (by omega)
          (hp.stable_le _ _ _ ha hm) ?_
        rcases Nat.even_or_odd' len with ⟨k, rfl | rfl⟩
        · rw [show base + (2 * k - 2 * k / 2) = base + 2 * k / 2 by omega]
          exact .inl ⟨hidx, hB⟩
        · -- the probed index stays a candidate
          rw [show base + (2 * k + 1 - (2 * k + 1) / 2) - 1 = base + (2 * k + 1) / 2 by omega]
          exact .inr hB
    · obtain rfl : len = 1 := by omega
      exact ⟨hlo, by omega, ha, hb.imp_left fun h => ⟨by omega, h.2⟩⟩

theorem bracket_spec (hp : Probe r R t lo hi I A B) {lo' hi' : ℕ} {m : RingArena F} (hlo : lo ≤ lo')
    (hle : lo' ≤ hi') (hhi : hi' ≤ hi) (ha : A lo' m) (hb : B hi' m) :
    RingProg.wpRead R (r.bracket lo' hi' t) (Bracketed A B lo hi) m := by
  refine Prog.wp_seq (SampleRing.wpRead_u64Sub fun _ => ?_)
  refine bracketLoop_spec hp hlo (by omega) (by omega) ha (.inr ?_)
  rwa [show lo' + (hi' - lo' + 1) - 1 = hi' by omega]

/-- The gallop up ends at a `step` whose half was probed `≤ t`, past `newest` or
    at an index probed `> t`. -/
theorem gallopUp_spec (hp : Probe r R t lo hi I A B) {hint j : ℕ} {m : RingArena F}
    (hlo : lo ≤ hint) (hle : hint + 2 ^ j / 2 ≤ hi) (ha : A (hint + 2 ^ j / 2) m) (hb : B hi m) :
    RingProg.wpRead R (r.gallopUp hint hi t j) (fun step m =>
      hint + step / 2 ≤ min (hint + step) hi ∧ A (hint + step / 2) m ∧
        B (min (hint + step) hi) m) m := by
  induction hk : hi - (hint + 2 ^ j) using Nat.strong_induction_on generalizing j m with
  | _ k ih =>
    have hpos := Nat.two_pow_pos j
    rw [SampleRing.gallopUp]
    by_cases hov : hint + 2 ^ j < 2 ^ 64
    swap
    · rw [if_neg hov]
      trivial
    rw [if_pos hov]
    by_cases hlt : hint + 2 ^ j < hi
    · rw [if_pos hlt]
      refine Prog.wp_seq (r.wpRead_stampAt.mpr fun m' hm => ?_)
      have hI : I m' := hp.inv _ _ (hp.stable_le _ _ _ ha hm)
      split_ifs with hs
      · refine ih (hi - (hint + 2 ^ (j + 1))) (by rw [pow_succ]; omega) ?_ ?_
          (hp.stable_gt _ _ _ hb hm) rfl
        · rw [pow_succ]; omega
        · rw [pow_succ, Nat.mul_div_cancel _ (by omega)]
          exact hp.le _ _ hI (by omega) (by omega) hs
      · trivial
      · refine ⟨by omega, hp.stable_le _ _ _ ha hm, ?_⟩
        rw [min_eq_left (by omega)]
        exact hp.gt _ _ hI (by omega) (by omega) (by omega)
    · rw [if_neg hlt]
      refine ⟨by omega, ha, ?_⟩
      rwa [min_eq_right (by omega)]

/-- The gallop down ends at a `step` whose half was probed `> t`, below the window
    or at an index probed `≤ t`. -/
theorem gallopDown_spec (hp : Probe r R t lo hi I A B) {hint j : ℕ} {m : RingArena F}
    (hle : hint ≤ hi) (hj : 2 ^ j / 2 ≤ hint) (hlo : lo ≤ hint - 2 ^ j / 2) (ha : A lo m)
    (hb : B (hint - 2 ^ j / 2) m) :
    RingProg.wpRead R (r.gallopDown hint lo t j) (fun step m =>
      step / 2 ≤ hint ∧ max (hint - step) lo ≤ hint - step / 2 ∧ A (max (hint - step) lo) m ∧
        B (hint - step / 2) m) m := by
  induction hk : hint - 2 ^ j using Nat.strong_induction_on generalizing j m with
  | _ k ih =>
    have hpos := Nat.two_pow_pos j
    rw [SampleRing.gallopDown]
    by_cases hgt : hint - 2 ^ j > lo
    · rw [if_pos hgt]
      refine Prog.wp_seq (r.wpRead_stampAt.mpr fun m' hm => ?_)
      have hI : I m' := hp.inv _ _ (hp.stable_le _ _ _ ha hm)
      split_ifs with hs
      · refine ih (hint - 2 ^ (j + 1)) (by rw [pow_succ]; omega) ?_ ?_
          (hp.stable_le _ _ _ ha hm) ?_ rfl
        · rw [pow_succ]; omega
        · rw [pow_succ]; omega
        · rw [pow_succ, Nat.mul_div_cancel _ (by omega)]
          exact hp.gt _ _ hI (by omega) (by omega) hs
      · trivial
      · refine ⟨hj, by omega, ?_, hp.stable_gt _ _ _ hb hm⟩
        rw [max_eq_left (by omega)]
        exact hp.le _ _ hI (by omega) (by omega) (by omega)
    · rw [if_neg hgt]
      refine ⟨hj, by omega, ?_, hb⟩
      rwa [max_eq_right (by omega)]

/-- The galloping search ends as the binary search does, whatever the hint. -/
theorem bracketFrom_spec (hp : Probe r R t lo hi I A B) {hint : ℕ} {m : RingArena F}
    (hle : lo ≤ hi) (ha : A lo m) (hb : B hi m) :
    RingProg.wpRead R (r.bracketFrom lo hi t hint) (Bracketed A B lo hi) m := by
  unfold SampleRing.bracketFrom
  generalize hh : min (max (rebaseHint hint lo hi) lo) hi = h
  refine Prog.wp_seq (r.wpRead_stampAt.mpr fun m' hm => ?_)
  have ha' := hp.stable_le _ _ _ ha hm
  have hb' := hp.stable_gt _ _ _ hb hm
  have hI := hp.inv _ _ ha'
  split_ifs with hs
  · refine Prog.wp_seq (Prog.wp_mono ?_ (gallopUp_spec hp (by omega) (by simp; omega)
      (hp.le _ _ hI (by omega) (by omega) hs) hb'))
    rintro step m'' ⟨h1, h2, h3⟩
    exact bracket_spec hp (by omega) h1 (by omega) h2 h3
  · refine Prog.wp_seq (Prog.wp_mono ?_ (gallopDown_spec hp (by omega) (by simp) (by simp; omega)
      ha' (hp.gt _ _ hI (by omega) (by omega) (by simpa using hs))))
    rintro step m'' ⟨-, h1, h2, h3⟩
    refine Prog.wp_seq (SampleRing.wpRead_u64Sub fun _ => ?_)
    exact bracket_spec hp (by omega) h1 (by omega) h2 h3

end Spec

/-! ## Where a search may end -/

section Through

variable {r : SampleRing F}

theorem u64Sub_through (a b : ℕ) : (SampleRing.u64Sub a b : RingProg F ℕ).Through RingOp.IsLoad
    fun d => b ≤ a ∧ d = a - b := by
  unfold SampleRing.u64Sub
  split_ifs with hle
  · exact ⟨hle, rfl⟩
  · trivial

theorem bracketLoop_through {base len : ℕ} (hlen : 0 < len) (t : ℤ) :
    (r.bracketLoop base len t).Through RingOp.IsLoad fun i => base ≤ i ∧ i < base + len := by
  induction len using Nat.strong_induction_on generalizing base with
  | _ len ih =>
    rw [SampleRing.bracketLoop]
    split_ifs
    · refine (Prog.Through.op trivial).bind fun s _ => ?_
      split_ifs
      · refine (ih _ (by omega) (by omega)).mono fun i hi => ?_
        omega
      · refine (ih _ (by omega) (by omega)).mono fun i hi => ?_
        omega
    · exact ⟨le_rfl, by omega⟩

theorem bracket_through (lo hi : ℕ) (t : ℤ) :
    (r.bracket lo hi t).Through RingOp.IsLoad fun i => lo ≤ i ∧ i ≤ hi := by
  refine (u64Sub_through hi lo).bind fun d hd => ?_
  refine (bracketLoop_through (by omega) t).mono fun i hi => ?_
  omega

/-- The gallop up stops at once, or at the double of a `step` that stayed below
    `newest`. -/
theorem gallopUp_through (hint newest : ℕ) (t : ℤ) (j : ℕ) :
    (r.gallopUp hint newest t j).Through RingOp.IsLoad fun step => hint + step < 2 ^ 64 ∧
      (step = 2 ^ j ∨ hint + step / 2 < newest) := by
  induction hk : newest - (hint + 2 ^ j) using Nat.strong_induction_on generalizing j with
  | _ k ih =>
    have hpos := Nat.two_pow_pos j
    have hpow : 2 ^ (j + 1) = 2 ^ j * 2 := pow_succ 2 j
    rw [SampleRing.gallopUp]
    by_cases hov : hint + 2 ^ j < 2 ^ 64
    swap
    · rw [if_neg hov]
      trivial
    rw [if_pos hov]
    by_cases hlt : hint + 2 ^ j < newest
    · rw [if_pos hlt]
      refine (Prog.Through.op trivial).bind fun s _ => ?_
      split_ifs
      · refine (ih _ (by omega) (j + 1) rfl).mono fun step hstep => ?_
        obtain ⟨h1, h2⟩ := hstep
        exact ⟨h1, .inr (by omega)⟩
      · trivial
      · exact ⟨hov, .inl rfl⟩
    · rw [if_neg hlt]
      exact ⟨hov, .inl rfl⟩

/-- The gallop down stops at once, or at the double of a `step` that stayed above
    `loLogical`. -/
theorem gallopDown_through (hint lo : ℕ) (t : ℤ) (j : ℕ) :
    (r.gallopDown hint lo t j).Through RingOp.IsLoad fun step =>
      step = 2 ^ j ∨ lo < hint - step / 2 := by
  induction hk : hint - 2 ^ j using Nat.strong_induction_on generalizing j with
  | _ k ih =>
    have hpos := Nat.two_pow_pos j
    have hpow : 2 ^ (j + 1) = 2 ^ j * 2 := pow_succ 2 j
    rw [SampleRing.gallopDown]
    by_cases hgt : hint - 2 ^ j > lo
    · rw [if_pos hgt]
      refine (Prog.Through.op trivial).bind fun s _ => ?_
      split_ifs
      · refine (ih _ (by omega) (j + 1) rfl).mono fun step hstep => ?_
        exact .inr (by omega)
      · trivial
      · exact .inl rfl
    · rw [if_neg hgt]
      exact .inl rfl

/-- The galloping search never ends past `newest`. -/
theorem bracketFrom_through (lo newest : ℕ) (t : ℤ) (hint : ℕ) :
    (r.bracketFrom lo newest t hint).Through RingOp.IsLoad fun i => i ≤ newest := by
  unfold SampleRing.bracketFrom
  refine (Prog.Through.op trivial).bind fun s _ => ?_
  split_ifs
  · refine (gallopUp_through _ _ _ _).bind fun step _ => ?_
    exact (bracket_through _ _ _).mono fun i hi => hi.2.trans (min_le_right _ _)
  · refine (gallopDown_through _ _ _ _).bind fun step _ => ?_
    refine (u64Sub_through _ _).bind fun hi hhi => ?_
    refine (bracket_through _ _ _).mono fun i hi' => ?_
    omega

end Through

/-! ## A ring nobody writes -/

section Still

variable {r : SampleRing F} {m : RingArena F} {t : ℤ} {lo hi : ℕ}

/-- The stamps of the indices from `lo` to `hi` do not decrease. -/
def SampleRing.SortedOn (r : SampleRing F) (m : RingArena F) (lo hi : ℕ) : Prop :=
  ∀ i j, lo ≤ i → i ≤ j → j ≤ hi → r.stampOf m i ≤ r.stampOf m j

instance (r : SampleRing F) (m : RingArena F) (lo hi : ℕ) : Decidable (r.SortedOn m lo hi) :=
  decidable_of_iff (∀ j < hi + 1, ∀ i < j + 1, lo ≤ i → r.stampOf m i ≤ r.stampOf m j)
    ⟨fun h i j hi' hij hj => h j (by omega) i (by omega) hi',
      fun h j hj i hij hi' => h i j hi' (by omega) (by omega)⟩

/-- `i` is the last index from `lo` to `hi` whose stamp is `≤ t`. -/
def SampleRing.IsLastLe (r : SampleRing F) (m : RingArena F) (lo hi : ℕ) (t : ℤ) (i : ℕ) : Prop :=
  lo ≤ i ∧ i ≤ hi ∧ r.stampOf m i ≤ t ∧ ∀ j, lo ≤ j → j ≤ hi → r.stampOf m j ≤ t → j ≤ i

theorem SampleRing.IsLastLe.unique {i j : ℕ} (hi' : r.IsLastLe m lo hi t i)
    (hj : r.IsLastLe m lo hi t j) : i = j :=
  le_antisymm (hj.2.2.2 i hi'.1 hi'.2.1 hi'.2.2.1) (hi'.2.2.2 j hj.1 hj.2.1 hj.2.2.1)

/-- On a still memory a probe tells the stamp. -/
theorem Probe.still (r : SampleRing F) (t : ℤ) (lo hi : ℕ) :
    Probe r Eq t lo hi (fun _ => True) (fun i m => r.stampOf m i ≤ t)
      (fun i m => t < r.stampOf m i) where
  inv := fun _ _ _ => trivial
  stable_le := by rintro i m _ h rfl; exact h
  stable_gt := by rintro i m _ h rfl; exact h
  le := fun _ _ _ _ _ h => h
  gt := fun _ _ _ _ _ h => h

theorem Bracketed.isLastLe (hs : r.SortedOn m lo hi) {i : ℕ}
    (h : Bracketed (fun i m => r.stampOf m i ≤ t) (fun i m => t < r.stampOf m i) lo hi i m) :
    r.IsLastLe m lo hi t i ∧ i < hi := by
  obtain ⟨h1, h2, h3, ⟨h4, h5⟩ | h5⟩ := h
  · refine ⟨⟨h1, h2, h3, fun j hj hj' hjt => ?_⟩, h4⟩
    by_contra hij
    have := hs (i + 1) j (by omega) (by omega) hj'
    omega
  · omega

theorem bracketLoop_returns (base len : ℕ) :
    (r.bracketLoop base len t).Returns RingOp.exec m := by
  induction len using Nat.strong_induction_on generalizing base with
  | _ len ih =>
    rw [SampleRing.bracketLoop]
    split_ifs with h1
    · refine (r.returns_stampAt _).bind fun s _ => ?_
      split_ifs
      · exact ih _ (by omega) _
      · exact ih _ (by omega) _
    · exact Prog.Returns.ret _ _

theorem bracket_returns (h : lo ≤ hi) : (r.bracket lo hi t).Returns RingOp.exec m :=
  (SampleRing.returns_u64Sub h).bind fun _ _ => bracketLoop_returns _ _

/-- The gallop up from `hint`, from `step = 2^j` on, leaves `u64` before it stops: all
    it probes on the way is below `newest` and stamped `≤ t`. -/
def SampleRing.GallopRunsOut (r : SampleRing F) (m : RingArena F) (hint newest : ℕ) (t : ℤ)
    (j : ℕ) : Prop :=
  ∃ k, j ≤ k ∧ 2 ^ 64 ≤ hint + 2 ^ k ∧
    ∀ i, j ≤ i → i < k → hint + 2 ^ i < newest ∧ r.stampOf m (hint + 2 ^ i) ≤ t

theorem gallopRunsOut_iff {hint j : ℕ} (hov : hint + 2 ^ j < 2 ^ 64) :
    r.GallopRunsOut m hint hi t j ↔ hint + 2 ^ j < hi ∧ r.stampOf m (hint + 2 ^ j) ≤ t ∧
      r.GallopRunsOut m hint hi t (j + 1) := by
  constructor
  · rintro ⟨k, hjk, hk, hprobed⟩
    have hne : j ≠ k := by
      rintro rfl
      omega
    obtain ⟨h1, h2⟩ := hprobed j le_rfl (by omega)
    exact ⟨h1, h2, k, by omega, hk, fun i hi' => hprobed i (by omega)⟩
  · rintro ⟨h1, h2, k, hjk, hk, hprobed⟩
    refine ⟨k, by omega, hk, fun i hi' hik => ?_⟩
    rcases Nat.eq_or_lt_of_le hi' with rfl | hlt
    · exact ⟨h1, h2⟩
    · exact hprobed i (by omega) hik

/-- The gallop cannot leave `u64` when `newest` is below `2^63`. -/
theorem not_gallopRunsOut {hint : ℕ} (hhi : hi < 2 ^ 63) (hle : hint ≤ hi) :
    ¬ r.GallopRunsOut m hint hi t 0 := by
  rintro ⟨k, -, hk, hprobed⟩
  cases k with
  | zero => omega
  | succ k =>
    have hlast := (hprobed k (by omega) (by omega)).1
    rw [pow_succ] at hk
    omega

theorem gallopUp_returns_iff (hint j : ℕ) : (r.gallopUp hint hi t j).Returns RingOp.exec m ↔
    ¬ r.GallopRunsOut m hint hi t j := by
  induction hk : hi - (hint + 2 ^ j) using Nat.strong_induction_on generalizing j with
  | _ k ih =>
    have hpos := Nat.two_pow_pos j
    rw [SampleRing.gallopUp]
    by_cases hov : hint + 2 ^ j < 2 ^ 64
    swap
    · rw [if_neg hov]
      refine iff_of_false Prog.not_returns_abort (not_not.mpr ⟨j, le_rfl, by omega, ?_⟩)
      intro i hi' hij
      omega
    rw [if_pos hov, gallopRunsOut_iff hov]
    by_cases hlt : hint + 2 ^ j < hi
    swap
    · rw [if_neg hlt]
      exact iff_of_true (Prog.Returns.ret _ _) fun h => hlt h.1
    rw [if_pos hlt, Prog.returns_seq (r.run_stampAt _)]
    by_cases hs : r.stampOf m (hint + 2 ^ j) ≤ t
    swap
    · rw [if_neg hs]
      exact iff_of_true (Prog.Returns.ret _ _) fun h => hs h.2.1
    rw [if_pos hs]
    by_cases hdouble : 2 ^ j * 2 < 2 ^ 64
    · rw [if_pos hdouble, ih _ (by rw [pow_succ]; omega) (j + 1) rfl]
      simp only [hlt, hs, true_and]
    · rw [if_neg hdouble]
      refine iff_of_false Prog.not_returns_abort (not_not.mpr ⟨hlt, hs, j + 1, le_rfl, ?_, ?_⟩)
      · rw [pow_succ]
        omega
      · intro i hi' hij
        omega

/-- The gallop down stays inside a window narrower than `2^63`. -/
theorem gallopDown_returns {hint j : ℕ} (hw : hint < lo + 2 ^ 63) :
    (r.gallopDown hint lo t j).Returns RingOp.exec m := by
  induction hk : hint - 2 ^ j using Nat.strong_induction_on generalizing j with
  | _ k ih =>
    have hpos := Nat.two_pow_pos j
    rw [SampleRing.gallopDown]
    by_cases hgt : hint - 2 ^ j > lo
    · rw [if_pos hgt, if_pos (by omega)]
      refine (r.returns_stampAt _).bind fun s _ => ?_
      split_ifs
      · exact ih _ (by rw [pow_succ]; omega) rfl
      · exact Prog.Returns.ret _ _
    · rw [if_neg hgt]
      exact Prog.Returns.ret _ _

/-- The index the galloping search starts from. -/
def seededHint (hint loLogical newest : ℕ) : ℕ :=
  min (max (rebaseHint hint loLogical newest) loLogical) newest

/-- The galloping search returns unless its gallop up leaves `u64`. -/
theorem bracketFrom_returns_iff {hint : ℕ} (hle : lo ≤ hi) (hw : hi < lo + 2 ^ 63)
    (ha : r.stampOf m lo ≤ t) (hb : t < r.stampOf m hi) :
    (r.bracketFrom lo hi t hint).Returns RingOp.exec m ↔
      ¬ (r.stampOf m (seededHint hint lo hi) ≤ t ∧
        r.GallopRunsOut m (seededHint hint lo hi) hi t 0) := by
  have hp := Probe.still r t lo hi
  unfold SampleRing.bracketFrom seededHint
  generalize hh : min (max (rebaseHint hint lo hi) lo) hi = h
  rw [Prog.returns_seq (r.run_stampAt h)]
  by_cases hs : r.stampOf m h ≤ t
  · rw [if_pos hs]
    simp only [hs, true_and]
    rw [← gallopUp_returns_iff]
    constructor
    · intro hret
      exact hret.of_bind fun a m' hrun =>
        (gallopUp_through h hi t 0).run_eq (fun o m ho => RingOp.exec_of_isLoad ho m) hrun
    · intro hret
      refine hret.bind fun step hstep => ?_
      obtain ⟨h1, -, -⟩ := Prog.wp_run
        (gallopUp_spec hp (by omega) (by simp; omega) (by simpa using hs) hb) hstep
      exact bracket_returns h1
  · rw [if_neg hs]
    refine iff_of_true ?_ fun h => hs h.1
    refine (gallopDown_returns (by omega)).bind fun step hstep => ?_
    obtain ⟨h0, h1, -, -⟩ := Prog.wp_run
      (gallopDown_spec hp (by omega) (by simp) (by simp; omega) ha (by simpa using hs)) hstep
    refine (SampleRing.returns_u64Sub h0).bind fun d hd => ?_
    rw [SampleRing.run_u64Sub h0] at hd
    obtain rfl := congrArg Prod.fst (Option.some_inj.mp hd)
    exact bracket_returns h1

theorem bracketFrom_returns {hint : ℕ} (hle : lo ≤ hi) (hhi : hi < 2 ^ 63)
    (ha : r.stampOf m lo ≤ t) (hb : t < r.stampOf m hi) :
    (r.bracketFrom lo hi t hint).Returns RingOp.exec m :=
  (bracketFrom_returns_iff hle (by omega) ha hb).mpr fun h =>
    not_gallopRunsOut hhi (min_le_right _ _) h.2

theorem bracket_run (hs : r.SortedOn m lo hi) (hle : lo ≤ hi) (ha : r.stampOf m lo ≤ t)
    (hb : t < r.stampOf m hi) : ∃ i, (r.bracket lo hi t).run RingOp.exec m = some (i, m) ∧
      r.IsLastLe m lo hi t i ∧ i < hi := by
  obtain ⟨i, hi'⟩ : (r.bracket lo hi t).Returns RingOp.exec m := bracket_returns hle
  have hspec := bracket_spec (Probe.still r t lo hi) le_rfl hle le_rfl ha hb
  exact ⟨i, hi', Bracketed.isLastLe hs (Prog.wp_run hspec hi')⟩

theorem bracketFrom_run (hint : ℕ) (hs : r.SortedOn m lo hi) (hle : lo ≤ hi) (hhi : hi < 2 ^ 63)
    (ha : r.stampOf m lo ≤ t) (hb : t < r.stampOf m hi) :
    ∃ i, (r.bracketFrom lo hi t hint).run RingOp.exec m = some (i, m) ∧
      r.IsLastLe m lo hi t i ∧ i < hi := by
  obtain ⟨i, hi'⟩ : (r.bracketFrom lo hi t hint).Returns RingOp.exec m :=
    bracketFrom_returns hle hhi ha hb
  have hspec : RingProg.wpRead Eq (r.bracketFrom lo hi t hint) _ m :=
    bracketFrom_spec (Probe.still r t lo hi) hle ha hb
  exact ⟨i, hi', Bracketed.isLastLe hs (Prog.wp_run hspec hi')⟩

/-- The galloping search returns what the binary search returns, from any hint. -/
theorem bracketFrom_eq_bracket (hint : ℕ) (hs : r.SortedOn m lo hi) (hle : lo ≤ hi)
    (hhi : hi < 2 ^ 63) (ha : r.stampOf m lo ≤ t) (hb : t < r.stampOf m hi) :
    (r.bracketFrom lo hi t hint).run RingOp.exec m = (r.bracket lo hi t).run RingOp.exec m := by
  obtain ⟨i, hi1, hi2, -⟩ := bracket_run hs hle ha hb
  obtain ⟨j, hj1, hj2, -⟩ := bracketFrom_run hint hs hle hhi ha hb
  rw [hi1, hj1, hi2.unique hj2]

end Still

end TfTree
