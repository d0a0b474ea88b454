import TfTree.Math.Checked
import TfTree.Arena.View
import TfTree.Ring.Access
import TfTree.Ring.Window

/-!
# The checks of a reader

The readers of `tf_tree_core/src/sample.rs` with every check a debug build makes written
out: each `u64` operation that could leave `u64`, each index into the ring's slices, the
bounds of `clamp`, and the assertion of the interpolation. A failed check is `abort`. An
accepted arena fixes the geometry of a ring only, so `head`, the stamps and the slots hold
anything here.

Results:
* `bracketFrom_checked`, `held_checked`: over a ring of an accepted arena the checks of the
  arithmetic and of the indices that the readers of `Ring.Sample` leave out all pass.
* `readBracket_returns_iff`, `constantTwist_returns_iff`: what is left is the assertion.
* `readers_return_iff`: `sample` returns exactly when the poses it interpolates meet the
  assertion, `read_from` when its gallop stays inside `u64`, too.
-/

namespace TfTree

open Conc

variable {F : Type}

/-! ## Model of `sample.rs`, with its checks -/

namespace SampleRing.Checked

/-- `a + b` in `u64`. -/
def u64Add (a b : ℕ) : RingProg F ℕ := if a + b < 2 ^ 64 then pure (a + b) else .abort

/-- `Ord::clamp`, which asserts that the bounds are ordered. -/
def clamp (x lo hi : ℕ) : RingProg F ℕ := if lo ≤ hi then pure (min (max x lo) hi) else .abort

/-- `rebase_hint` (lines 511–522). -/
def rebaseHint (hint loLogical newest : ℕ) : RingProg F ℕ :=
  let block := 2 ^ 32
  if hint ≥ loLogical then pure hint
  else
    let lifted := newest / block * block + hint % block
    if lifted > newest then u64Sub lifted block else pure lifted

variable (r : SampleRing F)

/-- `SampleRing::stamp_at` (lines 297–299). -/
def stampAt (logical : ℕ) : RingProg F ℤ :=
  if r.slot logical < r.capacity then r.stampAt logical else .abort

/-- `SampleRing::read_slot` (`buffer.rs`, lines 254–273). -/
def readSlot [Zero F] (idx : ℕ) : RingM F (Iso3 F) :=
  if idx < r.capacity then r.readSlot idx else ExceptT.mk .abort

/-- The `while len > 1` loop of `bracket`. -/
def bracketLoop (base len : ℕ) (t : ℤ) : RingProg F ℕ :=
  if len > 1 then do
    let half := len / 2
    let probe ← u64Add base half
    let s ← stampAt r probe
    if s ≤ t then bracketLoop (base + half) (len - half) t
    else bracketLoop base (len - half) t
  else pure base
termination_by len
decreasing_by all_goals omega

/-- `SampleRing::bracket` (lines 306–317). -/
def bracket (lo hi : ℕ) (t : ℤ) : RingProg F ℕ := do
  let d ← u64Sub hi lo
  let len ← u64Add d 1
  bracketLoop r lo len t

/-- The gallop away from a hint at or before `t` (lines 327–330). -/
def gallopUp (hint newest : ℕ) (t : ℤ) (j : ℕ) : RingProg F ℕ :=
  if hint + 2 ^ j < 2 ^ 64 then
    if hint + 2 ^ j < newest then do
      let s ← stampAt r (hint + 2 ^ j)
      if s ≤ t then
        if 2 ^ j * 2 < 2 ^ 64 then gallopUp hint newest t (j + 1) else .abort
      else pure (2 ^ j)
    else pure (2 ^ j)
  else .abort
termination_by newest - (hint + 2 ^ j)
decreasing_by
  have := Nat.two_pow_pos j
  rw [pow_succ]
  omega

/-- The gallop away from a hint after `t` (lines 333–336). -/
def gallopDown (hint loLogical : ℕ) (t : ℤ) (j : ℕ) : RingProg F ℕ :=
  if hint - 2 ^ j > loLogical then do
    let s ← stampAt r (hint - 2 ^ j)
    if s > t then
      if 2 ^ j * 2 < 2 ^ 64 then gallopDown hint loLogical t (j + 1) else .abort
    else pure (2 ^ j)
  else pure (2 ^ j)
termination_by hint - 2 ^ j
decreasing_by
  have := Nat.two_pow_pos j
  rw [pow_succ]
  omega

/-- `SampleRing::bracket_from` (lines 324–340). -/
def bracketFrom (loLogical newest : ℕ) (t : ℤ) (hint : ℕ) : RingProg F ℕ := do
  let rebased ← rebaseHint hint loLogical newest
  let hint ← clamp rebased loLogical newest
  let s ← stampAt r hint
  if s ≤ t then
    let step ← gallopUp r hint newest t 0
    let lo ← u64Add hint (step / 2)
    let hi ← u64Add hint step
    bracket r lo (min hi newest) t
  else
    let step ← gallopDown r hint loLogical t 0
    let hi ← u64Sub hint (step / 2)
    bracket r (max (hint - step) loLogical) hi t

variable [Libm F] (log : Quat F → Vec3 F)

/-- The newest sample, revalidated (lines 151–153, 159–162). -/
def held (newest : ℕ) : RingM F (Iso3 F) := do
  let p ← readSlot r (r.slot newest)
  r.revalidated newest p

/-- A kernel that fails its assertion panics. -/
def asserted {α : Type} : Option α → RingProg F α
  | some v => pure v
  | none => .abort

/-- The pose and twist of `constant_twist` from its two samples (lines 489–496). -/
def extendTwist (tPrev tNew t : ℤ) (a b : Iso3 F) : Option (Iso3 F × Twist F) :=
  let dt := spanNs tPrev tNew
  if dt = 0 then some (b, Twist.zero)
  else do
    let (pose, xi) ← ScLerp.evalWithTwistChecked log a b ((spanNs tPrev t : F) / (dt : F))
    return (pose, xi.scale (((10 ^ 9 : ℕ) : F) / (dt : F)))

/-- `SampleRing::constant_twist` (lines 475–502). -/
def constantTwist (loLogical newest : ℕ) (t tNew : ℤ) : RingM F (Iso3 F × Twist F) := do
  if newest = loLogical then
    let p ← readSlot r (r.slot newest)
    r.revalidated newest (p, Twist.zero)
  else
    let prev ← (u64Sub newest 1 : RingProg F ℕ)
    let tPrev ← stampAt r prev
    let a ← readSlot r (r.slot prev)
    let b ← readSlot r (r.slot newest)
    let result ← (asserted (extendTwist log tPrev tNew t a b) : RingProg F (Iso3 F × Twist F))
    r.revalidated prev result

/-- The `t > t_new` arm of `sample` and `read_from`. -/
def extrapolated (loLogical newest : ℕ) (t tOld tNew : ℤ) : ExtrapPolicy → RingM F (Iso3 F)
  | .error => throw (.extrapolation r.edge t tOld tNew)
  | .hold => held r newest
  | .constantTwist => do
    let (pose, _) ← constantTwist r log loLogical newest t tNew
    return pose

/-- `sample` and `read_from` from the bracket index on. -/
def readBracket {B : Type} (exact : Iso3 F → B) (between : Iso3 F → Iso3 F → F → Option B) (i : ℕ)
    (t : ℤ) : RingM F B := do
  let ti ← stampAt r i
  if ti = t then
    let p ← readSlot r (r.slot i)
    r.revalidated i (exact p)
  else
    let j ← (u64Add i 1 : RingProg F ℕ)
    let tj ← stampAt r j
    let a ← readSlot r (r.slot i)
    let b ← readSlot r (r.slot j)
    let s := (spanNs ti t : F) / (spanNs ti tj : F)
    let result ← (asserted (between a b s) : RingProg F B)
    r.revalidated i result

/-- `readWith` after the load of `head`. -/
def readFromHead {B : Type} (exact : Iso3 F → B) (between : Iso3 F → Iso3 F → F → Option B)
    (seek : ℕ → ℕ → RingProg F ℕ) (t : ℤ) (policy : ExtrapPolicy) (cursor h : ℕ) :
    RingProg F (Except LookupError B × ℕ) :=
  if h = 0 then
    return (.error (.noData r.edge), cursor)
  else do
    let loLogical ← u64Sub h (min h r.retained)
    let newest ← u64Sub h 1
    let tOld ← stampAt r loLogical
    let tNew ← stampAt r newest
    if t < tOld then
      return (.error (.extrapolation r.edge t tOld tNew), cursor)
    else if t > tNew then
      let out ← (extrapolated r log loLogical newest t tOld tNew policy).run
      return (out.map exact, newest)
    else if t = tNew then
      let out ← (held r newest).run
      return (out.map exact, newest)
    else
      let i ← seek loLogical newest
      let out ← (readBracket r exact between i t).run
      return (out, i)

/-- The body of `sample` and of `read_from` over the search `seek`. -/
def readWith {B : Type} (exact : Iso3 F → B) (between : Iso3 F → Iso3 F → F → Option B)
    (seek : ℕ → ℕ → RingProg F ℕ) (t : ℤ) (policy : ExtrapPolicy) (cursor : ℕ) :
    RingProg F (Except LookupError B × ℕ) := do
  let h ← r.loadHead
  readFromHead r log exact between seek t policy cursor h

/-- `SampleRing::sample` (lines 124–183) under an interpolation policy. -/
def sample (interp : InterpPolicy) (t : ℤ) (policy : ExtrapPolicy) :
    RingProg F (Except LookupError (Iso3 F)) := do
  let out ← readWith r log id (interp.evalChecked log) (fun lo hi => bracket r lo hi t) t policy 0
  return out.1

/-- `SampleRing::read_from` (lines 210–278); returns the result and the cursor. `exact` and
    `between` are the two constructors of `FromBracket`. -/
def readFrom {B : Type} (exact : Iso3 F → B) (between : Iso3 F → Iso3 F → F → Option B) (t : ℤ)
    (policy : ExtrapPolicy) (cursor : ℕ) : RingProg F (Except LookupError B × ℕ) :=
  readWith r log exact between (fun lo hi => bracketFrom r lo hi t cursor) t policy cursor

/-- `SampleRing::sample_from` (lines 285–292). -/
def sampleFrom (interp : InterpPolicy) (t : ℤ) (policy : ExtrapPolicy) (cursor : ℕ) :
    RingProg F (Except LookupError (Iso3 F) × ℕ) :=
  readFrom r log id (interp.evalChecked log) t policy cursor

end SampleRing.Checked

/-! ## The checks that always pass -/

section Checked

open SampleRing

variable {r : SampleRing F} {t : ℤ} {lo hi : ℕ}

theorem u64Add_checked {a b : ℕ} (h : a + b < 2 ^ 64) :
    (Checked.u64Add a b : RingProg F ℕ) = pure (a + b) := if_pos h

theorem u64Sub_checked {a b : ℕ} (h : b ≤ a) : (u64Sub a b : RingProg F ℕ) = pure (a - b) :=
  if_pos h

/-- The lifted hint is below a block only when it is the hint. -/
theorem rebaseHint_checked {hint : ℕ} (hle : lo ≤ hi) :
    (Checked.rebaseHint hint lo hi : RingProg F ℕ) = pure (rebaseHint hint lo hi) := by
  have hdi := Nat.div_add_mod hint (2 ^ 32)
  have hdn := Nat.div_add_mod hi (2 ^ 32)
  simp only [Checked.rebaseHint, rebaseHint]
  split_ifs with h1 h2
  · rfl
  · exact u64Sub_checked (by omega)
  · rfl

theorem clamp_checked {x : ℕ} (hle : lo ≤ hi) :
    (Checked.clamp x lo hi : RingProg F ℕ) = pure (min (max x lo) hi) := if_pos hle

theorem stampAt_checked (hr : r.PowerOfTwo) (i : ℕ) : Checked.stampAt r i = r.stampAt i :=
  if_pos (slot_lt hr i)

theorem readSlot_checked [Zero F] (hr : r.PowerOfTwo) (i : ℕ) :
    Checked.readSlot r (r.slot i) = r.readSlot (r.slot i) := if_pos (slot_lt hr i)

theorem bracketLoop_checked (hr : r.PowerOfTwo) {base len : ℕ} (h : base + len ≤ 2 ^ 64) :
    Checked.bracketLoop r base len t = r.bracketLoop base len t := by
  induction len using Nat.strong_induction_on generalizing base with
  | _ len ih =>
    rw [Checked.bracketLoop, SampleRing.bracketLoop]
    by_cases h1 : len > 1
    · rw [if_pos h1, if_pos h1]
      dsimp only
      rw [u64Add_checked (show base + len / 2 < 2 ^ 64 by omega)]
      show (Checked.stampAt r (base + len / 2) >>= fun s => _) = _
      rw [stampAt_checked hr, ih _ (by omega) (by omega), ih _ (by omega) (by omega)]
    · rw [if_neg h1, if_neg h1]

theorem bracket_checked (hr : r.PowerOfTwo) (h : hi + 1 < 2 ^ 64) :
    Checked.bracket r lo hi t = r.bracket lo hi t := by
  refine (u64Sub_through hi lo).bind_congr fun d hd => ?_
  rw [u64Add_checked (by omega)]
  exact bracketLoop_checked hr (by omega)

theorem gallopUp_checked (hr : r.PowerOfTwo) (hint j : ℕ) :
    Checked.gallopUp r hint hi t j = r.gallopUp hint hi t j := by
  induction hk : hi - (hint + 2 ^ j) using Nat.strong_induction_on generalizing j with
  | _ k ih =>
    have hpos := Nat.two_pow_pos j
    rw [Checked.gallopUp, SampleRing.gallopUp]
    by_cases hlt : hint + 2 ^ j < hi
    · rw [if_pos hlt, if_pos hlt, stampAt_checked hr, ih _ (by rw [pow_succ]; omega) (j + 1) rfl]
    · rw [if_neg hlt, if_neg hlt]

theorem gallopDown_checked (hr : r.PowerOfTwo) (hint j : ℕ) :
    Checked.gallopDown r hint lo t j = r.gallopDown hint lo t j := by
  induction hk : hint - 2 ^ j using Nat.strong_induction_on generalizing j with
  | _ k ih =>
    have hpos := Nat.two_pow_pos j
    rw [Checked.gallopDown, SampleRing.gallopDown]
    by_cases hgt : hint - 2 ^ j > lo
    · rw [if_pos hgt, if_pos hgt, stampAt_checked hr, ih _ (by rw [pow_succ]; omega) (j + 1) rfl]
    · rw [if_neg hgt, if_neg hgt]

/-- Past the gallop, every sum and difference of the search is inside `u64`. -/
theorem bracketFrom_checked (hr : r.PowerOfTwo) {hint : ℕ} (hle : lo ≤ hi)
    (h : hi + 1 < 2 ^ 64) : Checked.bracketFrom r lo hi t hint = r.bracketFrom lo hi t hint := by
  unfold Checked.bracketFrom SampleRing.bracketFrom
  rw [rebaseHint_checked hle]
  show (Checked.clamp _ lo hi >>= fun hint => _) = _
  rw [clamp_checked hle]
  show (Checked.stampAt r _ >>= fun s => _) = _
  rw [stampAt_checked hr]
  generalize hh : min (max (rebaseHint hint lo hi) lo) hi = k
  congr 1
  funext s
  split_ifs
  · rw [gallopUp_checked hr]
    refine (gallopUp_through k hi t 0).bind_congr fun step hstep => ?_
    rw [u64Add_checked (by omega)]
    show (Checked.u64Add k step >>= fun hi' => _) = _
    rw [u64Add_checked hstep.1]
    exact bracket_checked hr (by omega)
  · rw [gallopDown_checked hr]
    congr 1
    funext step
    refine (u64Sub_through k (step / 2)).bind_congr fun hi' hd => ?_
    exact bracket_checked hr (by omega)

variable [Libm F] {log : Quat F → Vec3 F}

theorem held_checked (hr : r.PowerOfTwo) (i : ℕ) : Checked.held r i = r.held i := by
  unfold Checked.held SampleRing.held
  rw [readSlot_checked hr]

/-! ## The assertion -/

/-- The slot of the index is not being written. -/
def SampleRing.Unlocked (r : SampleRing F) (m : RingArena F) (i : ℕ) : Prop :=
  (m r.edge).seq (r.slot i) &&& 1#32 = 0#32

/-- The samples `i` and `i + 1` can be interpolated at `t`, if they have to be. -/
def SampleRing.BetweenPasses {B : Type} (r : SampleRing F) (m : RingArena F)
    (between : Iso3 F → Iso3 F → F → Option B) (t : ℤ) (i : ℕ) : Prop :=
  r.stampOf m i ≠ t → r.Unlocked m i → r.Unlocked m (i + 1) →
    (between (r.poseOf m i) (r.poseOf m (i + 1)) ((spanNs (r.stampOf m i) t : F) /
      (spanNs (r.stampOf m i) (r.stampOf m (i + 1)) : F))).isSome

/-- The motion between the two newest samples has a twist, if it is needed. -/
def SampleRing.TwistPasses (r : SampleRing F) (m : RingArena F) (log : Quat F → Vec3 F) : Prop :=
  let newest := (m r.edge).head - 1
  newest ≠ r.lowest m → r.Unlocked m (newest - 1) → r.Unlocked m newest →
    spanNs (r.stampOf m (newest - 1)) (r.stampOf m newest) ≠ 0 →
    ¬ OffBranch log ((r.poseOf m (newest - 1)).invMul (r.poseOf m newest))

section Still

variable {m : RingArena F} {B : Type} {exact' : Iso3 F → B}
  {between : Iso3 F → Iso3 F → F → Option B} {i : ℕ}

/-- A slot that is being written ends the read. -/
theorem readSlot_seq_iff {α : Type} {f : Iso3 F → RingM F α} :
    (r.readSlot (r.slot i) >>= f).run.Returns RingOp.exec m ↔
      (r.Unlocked m i → (f (r.poseOf m i)).run.Returns RingOp.exec m) := by
  have hrun := run_readSlot (r := r) (m := m) (r.slot i)
  unfold SampleRing.Unlocked
  by_cases hfree : (m r.edge).seq (r.slot i) &&& 1#32 = 0#32
  · rw [if_pos hfree] at hrun
    rw [Prog.returnsE_seq hrun]
    exact ⟨fun h _ => h, fun h => h hfree⟩
  · rw [if_neg hfree] at hrun
    exact iff_of_true (Prog.returnsE_error hrun) fun h => absurd h hfree

omit [Libm F] in
/-- A kernel is evaluated between its two loads and the revalidation. -/
theorem asserted_seq_iff {α : Type} (v : Option α) (h : i ≤ (m r.edge).head) :
    ((liftM (Checked.asserted v : RingProg F α) : RingM F α) >>= fun result =>
      r.revalidated i result).run.Returns RingOp.exec m ↔ v.isSome := by
  cases v with
  | none => exact iff_of_false Prog.not_returnsE_abort nofun
  | some v =>
    refine iff_of_true ?_ rfl
    exact Prog.returnsE_pure.mpr (revalidated_returns h)

/-- **Step lemma.** From the bracket index on, the readers return when the kernel does. -/
theorem readBracket_returns_iff (hr : r.PowerOfTwo) (hi : i + 1 < 2 ^ 64)
    (hle : i ≤ (m r.edge).head) :
    (Checked.readBracket r exact' between i t).run.Returns RingOp.exec m ↔
      r.BetweenPasses m between t i := by
  unfold Checked.readBracket SampleRing.BetweenPasses
  rw [stampAt_checked hr, Prog.returnsE_lift (r.run_stampAt i), readSlot_checked hr]
  by_cases hexact : r.stampOf m i = t
  · rw [if_pos hexact]
    refine iff_of_true ?_ fun hne => absurd hexact hne
    exact Prog.Returns.bindE (readSlot_returns _) fun _ _ => revalidated_returns hle
  · rw [if_neg hexact, u64Add_checked hi, Prog.returnsE_pure,
      stampAt_checked hr, Prog.returnsE_lift (r.run_stampAt (i + 1)), readSlot_seq_iff,
      readSlot_checked hr, readSlot_seq_iff, asserted_seq_iff _ hle]
    exact ⟨fun h _ => h, fun h => h hexact⟩

theorem extendTwist_isSome_iff {tPrev tNew : ℤ} {a b : Iso3 F} :
    (Checked.extendTwist log tPrev tNew t a b).isSome ↔
      (spanNs tPrev tNew ≠ 0 → ¬ OffBranch log (a.invMul b)) := by
  unfold Checked.extendTwist
  dsimp only
  split_ifs with h0
  · exact iff_of_true rfl fun hne => absurd h0 hne
  · rw [← ScLerp.evalWithTwistChecked_isSome_iff
      (s := (spanNs tPrev t : F) / (spanNs tPrev tNew : F))]
    cases ScLerp.evalWithTwistChecked log a b ((spanNs tPrev t : F) / (spanNs tPrev tNew : F)) <;>
      simp [h0]

/-- **Step lemma.** The extrapolation by the newest motion returns when it has a twist. -/
theorem constantTwist_returns_iff (hr : r.PowerOfTwo) (hle : r.lowest m ≤ (m r.edge).head - 1) :
    (Checked.constantTwist r log (r.lowest m) ((m r.edge).head - 1) t
      (r.stampOf m ((m r.edge).head - 1))).run.Returns RingOp.exec m ↔ r.TwistPasses m log := by
  generalize hn : (m r.edge).head - 1 = newest at hle ⊢
  unfold Checked.constantTwist SampleRing.TwistPasses
  dsimp only
  rw [hn]
  by_cases heq : newest = r.lowest m
  · rw [if_pos heq, readSlot_checked hr]
    refine iff_of_true ?_ fun hne => absurd heq hne
    exact Prog.Returns.bindE (readSlot_returns _) fun _ _ => revalidated_returns (by omega)
  · rw [if_neg heq, u64Sub_checked (by omega), Prog.returnsE_pure,
      stampAt_checked hr, Prog.returnsE_lift (r.run_stampAt (newest - 1)), readSlot_checked hr,
      readSlot_seq_iff, readSlot_checked hr, readSlot_seq_iff, asserted_seq_iff _ (by omega),
      extendTwist_isSome_iff]
    exact ⟨fun h _ => h, fun h => h heq⟩

end Still

/-! ## When the readers return -/

/-- The query is inside the window of the ring. -/
def SampleRing.InWindow (r : SampleRing F) (m : RingArena F) (t : ℤ) : Prop :=
  (m r.edge).head ≠ 0 ∧ r.oldest m ≤ t ∧ t < r.newest m

/-- The query is past the window of the ring. -/
def SampleRing.PastWindow (r : SampleRing F) (m : RingArena F) (t : ℤ) : Prop :=
  (m r.edge).head ≠ 0 ∧ r.oldest m ≤ t ∧ r.newest m < t

/-- The kernels that a query evaluates meet their assertion: that of the interpolation where the
    search inside the window ends, that of the twist past it. -/
structure SampleRing.Passes {B : Type} (r : SampleRing F) (m : RingArena F)
    (log : Quat F → Vec3 F) (between : Iso3 F → Iso3 F → F → Option B)
    (seek : ℕ → ℕ → RingProg F ℕ) (t : ℤ) (policy : ExtrapPolicy) : Prop where
  inside : r.InWindow m t → ∀ i,
    (seek (r.lowest m) ((m r.edge).head - 1)).run RingOp.exec m = some (i, m) →
    r.BetweenPasses m between t i
  past : r.PastWindow m t → policy = .constantTwist → r.TwistPasses m log

/-- The query is inside the window, and the gallop from the cursor leaves `u64`. -/
def SampleRing.GallopOverflows (r : SampleRing F) (m : RingArena F) (t : ℤ) (cursor : ℕ) : Prop :=
  let lo := r.lowest m
  let newest := (m r.edge).head - 1
  (m r.edge).head ≠ 0 ∧ r.stampOf m lo ≤ t ∧ t < r.stampOf m newest ∧
    r.stampOf m (seededHint cursor lo newest) ≤ t ∧
    r.GallopRunsOut m (seededHint cursor lo newest) newest t 0

section Readers

variable {m : RingArena F} {B : Type} {exact' : Iso3 F → B}
  {between : Iso3 F → Iso3 F → F → Option B} {policy : ExtrapPolicy} {cursor : ℕ}

/-- **Step lemma.** A query past the window. -/
theorem extrapolated_returns_iff (hr : r.PowerOfTwo) (hle : r.lowest m ≤ (m r.edge).head - 1)
    (tOld : ℤ) :
    (Checked.extrapolated r log (r.lowest m) ((m r.edge).head - 1) t tOld
      (r.stampOf m ((m r.edge).head - 1)) policy).run.Returns RingOp.exec m ↔
      (policy = .constantTwist → r.TwistPasses m log) := by
  cases policy with
  | error => exact iff_of_true (Prog.Returns.ret _ _) nofun
  | hold =>
    refine iff_of_true ?_ nofun
    unfold Checked.extrapolated
    rw [held_checked hr]
    exact held_returns (Nat.sub_le _ _)
  | constantTwist =>
    rw [← constantTwist_returns_iff (t := t) hr hle]
    unfold Checked.extrapolated
    rw [Prog.returnsE_map]
    exact ⟨fun h _ => h, fun h => h rfl⟩

/-- The readers return when their search does, and the kernels that they evaluate. -/
theorem readWith_returns_iff {seek seek' : ℕ → ℕ → RingProg F ℕ} (hr : r.PowerOfTwo)
    (hhead : (m r.edge).head < 2 ^ 64)
    (hseek : ∀ lo hi, lo ≤ hi → hi + 1 < 2 ^ 64 → seek' lo hi = seek lo hi)
    (hin : ∀ lo hi, (seek lo hi).Through RingOp.IsLoad fun i => i ≤ hi) :
    (Checked.readWith r log exact' between seek' t policy cursor).Returns RingOp.exec m ↔
      (r.InWindow m t → (seek (r.lowest m) ((m r.edge).head - 1)).Returns RingOp.exec m) ∧
        r.Passes m log between seek t policy := by
  have hloads : ∀ (o : RingOp F) m, o.IsLoad → (o.exec m).2 = m :=
    fun o m ho => RingOp.exec_of_isLoad ho m
  unfold Checked.readWith
  rw [Prog.returns_seq r.run_loadHead]
  unfold Checked.readFromHead
  by_cases h0 : (m r.edge).head = 0
  · rw [if_pos h0]
    refine iff_of_true (Prog.Returns.ret _ _) ⟨fun h => absurd h0 h.1, fun h => absurd h0 h.1,
      fun h => absurd h0 h.1⟩
  have hpos := retained_pos hr
  have hle : r.lowest m ≤ (m r.edge).head - 1 := by
    unfold SampleRing.lowest
    omega
  rw [if_neg h0, u64Sub_checked (Nat.min_le_left _ _)]
  show (u64Sub (m r.edge).head 1 >>= fun newest => Checked.stampAt r (r.lowest m) >>= _).Returns
    _ _ ↔ _
  rw [u64Sub_checked (Nat.one_le_iff_ne_zero.mpr h0)]
  show (Checked.stampAt r (r.lowest m) >>= fun tOld =>
    Checked.stampAt r ((m r.edge).head - 1) >>= fun tNew => _).Returns _ _ ↔ _
  rw [stampAt_checked hr, Prog.returns_seq (r.run_stampAt _), stampAt_checked hr,
    Prog.returns_seq (r.run_stampAt _)]
  by_cases hold : t < r.stampOf m (r.lowest m)
  · rw [if_pos hold]
    refine iff_of_true (Prog.Returns.ret _ _) ⟨fun h => absurd h.2.1 (not_le.mpr hold),
      fun h => absurd h.2.1 (not_le.mpr hold), fun h => absurd h.2.1 (not_le.mpr hold)⟩
  rw [if_neg hold]
  have hold := not_lt.mp hold
  by_cases hpast : t > r.stampOf m ((m r.edge).head - 1)
  · rw [if_pos hpast]
    refine Prog.returns_map.trans ((extrapolated_returns_iff hr hle _).trans ?_)
    constructor
    · exact fun htwist => ⟨fun h => absurd h.2.2 (lt_asymm hpast),
        fun h => absurd h.2.2 (lt_asymm hpast), fun _ => htwist⟩
    · exact fun h => h.2.past ⟨h0, hold, hpast⟩
  rw [if_neg hpast]
  by_cases hnew : t = r.stampOf m ((m r.edge).head - 1)
  · rw [if_pos hnew, held_checked hr]
    refine iff_of_true (Prog.returns_map.mpr (held_returns (Nat.sub_le _ _))) ?_
    exact ⟨fun h => absurd hnew h.2.2.ne, fun h => absurd hnew h.2.2.ne,
      fun h => absurd h.2.2 hpast⟩
  have hsame : seek' ((m r.edge).head - min (m r.edge).head r.retained) ((m r.edge).head - 1) =
      seek (r.lowest m) ((m r.edge).head - 1) := hseek _ _ hle (by omega)
  rw [if_neg hnew, hsame]
  have hinside : r.InWindow m t := ⟨h0, hold, lt_of_le_of_ne (not_lt.mp hpast) hnew⟩
  -- the kernel is evaluated where the search ends
  have hend : ∀ i, (seek (r.lowest m) ((m r.edge).head - 1)).run RingOp.exec m = some (i, m) →
      ((seek (r.lowest m) ((m r.edge).head - 1) >>= fun i =>
        (Checked.readBracket r exact' between i t).run >>= fun out => Prog.ret (out, i)).Returns
          RingOp.exec m ↔ r.BetweenPasses m between t i) := by
    intro i hi
    have hspec := Prog.wp_through (R := Eq) hloads (hin (r.lowest m) ((m r.edge).head - 1)) m
    have hlast : i ≤ (m r.edge).head - 1 :=
      Prog.wp_run (Q := fun i _ => i ≤ (m r.edge).head - 1) hspec hi
    rw [Prog.returns_seq hi, Prog.returns_map]
    exact readBracket_returns_iff hr (by omega) (by omega)
  constructor
  · intro hret
    refine ⟨fun _ => hret.of_bind fun i m' hrun => (hin _ _).run_eq hloads hrun,
      fun _ i hi => (hend i hi).mp hret, fun h => absurd h.2.2 hpast⟩
  · rintro ⟨hsearch, hpasses⟩
    obtain ⟨i, hi⟩ := hsearch hinside
    exact (hend i hi).mpr (hpasses.inside hinside i hi)

/-- **Step lemma.** `sample` returns when the kernel does, whatever the ring holds. -/
theorem sample_returns_iff {interp : InterpPolicy} (hr : r.PowerOfTwo)
    (hhead : (m r.edge).head < 2 ^ 64) :
    (Checked.sample r log interp t policy).Returns RingOp.exec m ↔
      r.Passes m log (interp.evalChecked log) (fun lo hi => r.bracket lo hi t) t policy := by
  refine Prog.returns_map.trans ((readWith_returns_iff hr hhead
    (fun lo hi _ h => bracket_checked hr h)
    fun lo hi => (bracket_through lo hi t).mono fun i hi => hi.2).trans ?_)
  refine and_iff_right_of_imp fun _ _ => bracket_returns ?_
  have hpos := retained_pos hr
  unfold SampleRing.lowest
  omega

/-- **Step lemma.** `read_from` returns when the kernel does, unless its gallop leaves `u64`. -/
theorem readFrom_returns_iff (hr : r.PowerOfTwo) (hhead : (m r.edge).head < 2 ^ 64)
    (hcap : r.capacity ≤ 2 ^ 63) :
    (Checked.readFrom r log exact' between t policy cursor).Returns RingOp.exec m ↔
      ¬ r.GallopOverflows m t cursor ∧
        r.Passes m log between (fun lo hi => r.bracketFrom lo hi t cursor) t policy := by
  have hpos := retained_pos hr
  have hretained := r.retained_le
  refine (readWith_returns_iff hr hhead (fun _ _ hle h => bracketFrom_checked hr hle h)
    fun lo hi => bracketFrom_through lo hi t cursor).trans (and_congr_left fun _ => ?_)
  have hle : r.lowest m ≤ (m r.edge).head - 1 := by
    unfold SampleRing.lowest
    omega
  have hw : (m r.edge).head - 1 < r.lowest m + 2 ^ 63 := by
    unfold SampleRing.lowest
    omega
  constructor
  · rintro hret ⟨h0, h1, h2, hover⟩
    exact (bracketFrom_returns_iff hle hw h1 h2).mp (hret ⟨h0, h1, h2⟩) hover
  · rintro hnot ⟨h0, h1, h2⟩
    exact (bracketFrom_returns_iff hle hw h1 h2).mpr fun hover => hnot ⟨h0, h1, h2, hover⟩

end Readers

end Checked

/-! ## Rings of an accepted arena -/

section Arena

variable {h : ArenaHeader} {size : ℕ} {edge : EdgeRecord}

theorem RingFits.powerOfTwo_ring (hfits : RingFits h edge) (id : EdgeId) :
    (⟨id, edge.capacity⟩ : SampleRing F).PowerOfTwo := by
  have hpow := hfits.powerOfTwo
  unfold ArenaView.isPowerOfTwo at hpow
  simp only [Bool.and_eq_true, decide_eq_true_eq] at hpow
  exact Nat.ne_zero_and_sub_one_eq_zero_iff_isPowerOfTwo.mp hpow

theorem RingFits.capacity_lt (hv : h.Valid size) (hfits : RingFits h edge) :
    edge.capacity < 2 ^ 32 := by
  have hend : (h.implied.region .stamp).offset + (h.implied.region .stamp).size ≤
    h.implied.totalSize := compute_end .stamp
  have hsize : (h.implied.region .stamp).size = align64 (h.stampSlots * 8) := rfl
  have hle := le_align64 (h.stampSlots * 8)
  have hstamps := hfits.stamps
  have htotal := hv.totalSize
  have hsmall := hv.fits
  omega

variable [Libm F]

/-- **Main theorem.** Over a ring of an accepted arena, whatever its `head`, stamps and slots
    hold, `sample` returns exactly when the kernels it evaluates meet their assertion, and
    `read_from` exactly when they do and its gallop stays inside `u64`. -/
theorem readers_return_iff {B : Type} (hok : validateArenaHeader h size = .ok ())
    {bytes : ℕ × ℕ × ℕ} (hring : ArenaView.ringBytes h edge = some bytes) (id : EdgeId)
    {m : RingArena F} (hhead : (m id).head < 2 ^ 64) (t : ℤ) (policy : ExtrapPolicy) (cursor : ℕ)
    (log : Quat F → Vec3 F) (interp : InterpPolicy) (exact' : Iso3 F → B)
    (between : Iso3 F → Iso3 F → F → Option B) :
    ((SampleRing.Checked.sample ⟨id, edge.capacity⟩ log interp t policy).Returns RingOp.exec m ↔
        (⟨id, edge.capacity⟩ : SampleRing F).Passes m log (interp.evalChecked log)
          (fun lo hi => (⟨id, edge.capacity⟩ : SampleRing F).bracket lo hi t) t policy) ∧
      ((SampleRing.Checked.readFrom ⟨id, edge.capacity⟩ log exact' between t policy cursor).Returns
          RingOp.exec m ↔
        ¬ (⟨id, edge.capacity⟩ : SampleRing F).GallopOverflows m t cursor ∧
          (⟨id, edge.capacity⟩ : SampleRing F).Passes m log between
            (fun lo hi => (⟨id, edge.capacity⟩ : SampleRing F).bracketFrom lo hi t cursor) t
            policy) := by
  obtain ⟨hfits, -⟩ := ringBytes_eq_some.mp hring
  have hcap := hfits.capacity_lt (.of_validate hok)
  have hr := hfits.powerOfTwo_ring (F := F) id
  exact ⟨sample_returns_iff hr hhead, readFrom_returns_iff hr hhead (hcap.le.trans (by decide))⟩

end Arena

/-! ## A ring whose `head` is the largest `u64` -/

/-- A ring of eight slots whose `head` is the largest `u64`: its stamps are `0` but for that of
    the newest sample, and its poses are the identity. -/
def lastArena : RingArena ℚ := fun _ =>
  { head := 2 ^ 64 - 1, heartbeat := 0, stamps := upd (fun _ => 0) 6 10, seq := fun _ => 0,
    data := fun _ => upd (fun _ => 0) 0 1, published := [] }

theorem ringFits_small : RingFits smallHeader ⟨8, 0, 0⟩ := ⟨by decide, by decide, by decide⟩

/-- The window of that ring begins at `2^64 - 8`; the indices one, two and four past it
    are below the newest one, and eight past it is `2^64`. -/
theorem gallopOverflows_last : (⟨0, 8⟩ : SampleRing ℚ).GallopOverflows lastArena 5 0 := by
  refine ⟨by decide, by decide, by decide, by decide, 3, by decide, by decide, ?_⟩
  decide

/-- The reader of that ring does not return from the cursor `0`. -/
theorem readFrom_overflows : ArenaView.ringBytes smallHeader ⟨8, 0, 0⟩ ≠ none ∧
    validateArenaHeader smallHeader smallHeader.arenaSize = .ok () ∧
    (lastArena 0).head < 2 ^ 64 ∧
    ¬ (@SampleRing.Checked.sampleFrom ℚ ⟨0, 8⟩ translationLibm (@logSo3 ℚ translationLibm) .scLerp
      5 .error 0).Returns RingOp.exec lastArena := by
  refine ⟨?_, validate_smallHeader, by decide, fun hret => ?_⟩
  · rw [Option.ne_none_iff_exists']
    exact ⟨_, ringBytes_eq_some.mpr ⟨ringFits_small, rfl⟩⟩
  · let _ := translationLibm
    exact ((readFrom_returns_iff ⟨3, rfl⟩ (by decide) (by decide)).mp hret).1 gallopOverflows_last

/-- The kernel meets its assertion wherever a search of that ring ends. -/
theorem passes_last (seek : ℕ → ℕ → RingProg ℚ ℕ) :
    @SampleRing.Passes ℚ translationLibm _ ⟨0, 8⟩ lastArena (@logSo3 ℚ translationLibm)
      (@InterpPolicy.evalChecked ℚ translationLibm (@logSo3 ℚ translationLibm) .scLerp) seek 5
      .error := by
  let _ := translationLibm
  refine ⟨fun _ i _ _ _ _ => ?_, fun _ => nofun⟩
  have hone : ∀ i, (⟨0, 8⟩ : SampleRing ℚ).poseOf lastArena i = 1 := fun _ => rfl
  have hrel : (1 : Iso3 ℚ).invMul 1 = ⟨⟨1, 0, 0, 0⟩, ⟨0, 0, 0⟩⟩ := by with_unfolding_all decide
  rw [hone, hone]
  refine ScLerp.evalChecked_isSome_iff.mpr (.inr (.inr ?_))
  rw [hrel]
  exact not_offBranch_translation _

/-- Both readers of that ring return, from a cursor at the newest sample. -/
theorem readers_return_iff_last :
    (@SampleRing.Checked.sample ℚ ⟨0, 8⟩ translationLibm (@logSo3 ℚ translationLibm) .scLerp
      5 .error).Returns RingOp.exec lastArena ∧
    (@SampleRing.Checked.sampleFrom ℚ ⟨0, 8⟩ translationLibm (@logSo3 ℚ translationLibm) .scLerp
      5 .error (2 ^ 64 - 2)).Returns RingOp.exec lastArena := by
  let _ := translationLibm
  obtain ⟨h1, h2⟩ := readers_return_iff validate_smallHeader
    (ringBytes_eq_some.mpr ⟨ringFits_small, rfl⟩) 0 (m := lastArena) (by decide) 5 .error
    (2 ^ 64 - 2) logSo3 .scLerp id (InterpPolicy.scLerp.evalChecked logSo3)
  refine ⟨h1.mpr (passes_last _), h2.mpr ⟨?_, passes_last _⟩⟩
  rintro ⟨-, -, -, hle, -⟩
  exact absurd hle (by decide)

end TfTree
