import TfTree.Math.Interp
import TfTree.Ring.Search

/-!
# Sampling a ring

`SampleRing::sample`, `read_from`, `sample_from` and the twist variants
(`tf_tree_core/src/sample.rs`). The plain and the cursor-seeking readers differ
in the search only, so they are one body over the search (`readWith`,
`sampleWithTwistSeeking`).

Results:
* `readWith_returns`, `sampleWithTwistSeeking_returns`: a read of a ring nobody
  writes returns.
* `readWith_congr`, `sampleWithTwistSeeking_congr`: searches that agree give the
  same value or error.
* `sampleFrom_agrees`, `sampleWithTwistFrom_agrees`: the cursor of a reader changes
  neither, over a window with nondecreasing stamps.
-/

namespace TfTree

open Conc

variable {F : Type}

/-! ## Model of `sample.rs` -/

/-- `ExtrapPolicy`. -/
inductive ExtrapPolicy where
  | error
  | hold
  | constantTwist
  deriving DecidableEq, Repr

/-- `span_ns` (lines 108–110) before its conversion: the `u64` difference. -/
def spanNs (start stop : ℤ) : ℕ := ((stop - start) % 2 ^ 64).toNat

namespace SampleRing

variable [Kernels F] (r : SampleRing F)

/-- `SampleRing::revalidated` (lines 192–197), and the same check at the end of
    the other readers. -/
def revalidated {α : Type} (i : ℕ) (v : α) : RingM F α := do
  let h ← r.loadHead
  let d ← (u64Sub h i : RingProg F ℕ)
  if d > r.retained then throw (.slotRecycled r.edge) else return v

/-- The newest sample, revalidated (lines 151–153, 159–162). -/
def held (newest : ℕ) : RingM F (Iso3 F) := do
  let p ← r.readSlot (r.slot newest)
  r.revalidated newest p

/-- The pose and twist of `constant_twist` from its two samples (lines 489–496). -/
def extendTwist (tPrev tNew t : ℤ) (a b : Iso3 F) : Iso3 F × Twist F :=
  let dt := spanNs tPrev tNew
  if dt = 0 then (b, Twist.zero)
  else
    let (pose, xi) := Kernels.scLerpWithTwist a b ((spanNs tPrev t : F) / (dt : F))
    (pose, xi.scale (((10 ^ 9 : ℕ) : F) / (dt : F)))

/-- `SampleRing::constant_twist` (lines 475–502). -/
def constantTwist (loLogical newest : ℕ) (t tNew : ℤ) : RingM F (Iso3 F × Twist F) := do
  if newest = loLogical then
    let p ← r.readSlot (r.slot newest)
    r.revalidated newest (p, Twist.zero)
  else
    let prev := newest - 1
    let tPrev ← r.stampAt prev
    let a ← r.readSlot (r.slot prev)
    let b ← r.readSlot (r.slot newest)
    r.revalidated prev (extendTwist tPrev tNew t a b)

/-- The `t > t_new` arm of `sample` and `read_from`. -/
def extrapolated (loLogical newest : ℕ) (t tOld tNew : ℤ) : ExtrapPolicy → RingM F (Iso3 F)
  | .error => throw (.extrapolation r.edge t tOld tNew)
  | .hold => r.held newest
  | .constantTwist => do
    let (pose, _) ← r.constantTwist loLogical newest t tNew
    return pose

/-- `sample` and `read_from` from the bracket index on. -/
def readBracket {B : Type} (exact : Iso3 F → B) (between : Iso3 F → Iso3 F → F → B) (i : ℕ)
    (t : ℤ) : RingM F B := do
  let ti ← r.stampAt i
  if ti = t then
    let p ← r.readSlot (r.slot i)
    r.revalidated i (exact p)
  else
    let tj ← r.stampAt (i + 1)
    let a ← r.readSlot (r.slot i)
    let b ← r.readSlot (r.slot (i + 1))
    r.revalidated i (between a b ((spanNs ti t : F) / (spanNs ti tj : F)))

/-- The body of `sample` and of `read_from` (lines 124–278) over the search `seek`;
    returns the result and the cursor. `exact` and `between` are the two
    constructors of `FromBracket`. -/
def readWith {B : Type} (exact : Iso3 F → B) (between : Iso3 F → Iso3 F → F → B)
    (seek : ℕ → ℕ → RingProg F ℕ) (t : ℤ) (policy : ExtrapPolicy) (cursor : ℕ) :
    RingProg F (Except LookupError B × ℕ) := do
  let h ← r.loadHead
  if h = 0 then
    return (.error (.noData r.edge), cursor)
  else
    let loLogical := h - min h r.retained
    let newest := h - 1
    let tOld ← r.stampAt loLogical
    let tNew ← r.stampAt newest
    if t < tOld then
      return (.error (.extrapolation r.edge t tOld tNew), cursor)
    else if t > tNew then
      let out ← (r.extrapolated loLogical newest t tOld tNew policy).run
      return (out.map exact, newest)
    else if t = tNew then
      let out ← (r.held newest).run
      return (out.map exact, newest)
    else
      let i ← seek loLogical newest
      let out ← (r.readBracket exact between i t).run
      return (out, i)

/-- `SampleRing::sample` (lines 124–183). -/
def sample (interp : Iso3 F → Iso3 F → F → Iso3 F) (t : ℤ) (policy : ExtrapPolicy) :
    RingProg F (Except LookupError (Iso3 F)) := do
  let out ← r.readWith id interp (fun lo hi => r.bracket lo hi t) t policy 0
  return out.1

/-- `SampleRing::read_from` (lines 210–278); returns the result and the cursor. -/
def readFrom {B : Type} (exact : Iso3 F → B) (between : Iso3 F → Iso3 F → F → B) (t : ℤ)
    (policy : ExtrapPolicy) (cursor : ℕ) : RingProg F (Except LookupError B × ℕ) :=
  r.readWith exact between (fun lo hi => r.bracketFrom lo hi t cursor) t policy cursor

/-- `SampleRing::sample_from` (lines 285–292). -/
def sampleFrom (interp : Iso3 F → Iso3 F → F → Iso3 F) (t : ℤ) (policy : ExtrapPolicy)
    (cursor : ℕ) : RingProg F (Except LookupError (Iso3 F) × ℕ) :=
  r.readFrom id interp t policy cursor

/-- `sample_with_twist_seeking` from the segment index on (lines 453–469). -/
def readSegment (i : ℕ) (t : ℤ) : RingM F (Iso3 F × Twist F) := do
  let ti ← r.stampAt i
  let tj ← r.stampAt (i + 1)
  let dt := spanNs ti tj
  if dt = 0 then
    throw (.noSegment r.edge)
  else
    let a ← r.readSlot (r.slot i)
    let b ← r.readSlot (r.slot (i + 1))
    let (pose, xi) := Kernels.scLerpWithTwist a b ((spanNs ti t : F) / (dt : F))
    r.revalidated i (pose, xi.scale (((10 ^ 9 : ℕ) : F) / (dt : F)))

/-- The `t > t_new` arm of `sample_with_twist_seeking` (lines 422–442). -/
def extrapolatedWithTwist (loLogical newest : ℕ) (t tOld tNew : ℤ) :
    ExtrapPolicy → RingM F (Iso3 F × Twist F)
  | .error => throw (.extrapolation r.edge t tOld tNew)
  | .hold => do
    let p ← r.readSlot (r.slot newest)
    r.revalidated newest (p, Twist.zero)
  | .constantTwist =>
    if newest = loLogical then throw (.noSegment r.edge)
    else r.constantTwist loLogical newest t tNew

/-- `SampleRing::sample_with_twist_seeking` (lines 394–470); returns the result and
    the cursor. -/
def sampleWithTwistSeeking (seek : ℕ → ℕ → RingProg F ℕ) (t : ℤ) (policy : ExtrapPolicy)
    (cursor : ℕ) : RingProg F (Except LookupError (Iso3 F × Twist F) × ℕ) := do
  let h ← r.loadHead
  if h = 0 then
    return (.error (.noData r.edge), cursor)
  else
    let loLogical := h - min h r.retained
    let newest := h - 1
    let tOld ← r.stampAt loLogical
    let tNew ← r.stampAt newest
    if t < tOld then
      return (.error (.extrapolation r.edge t tOld tNew), cursor)
    else if t > tNew then
      let out ← (r.extrapolatedWithTwist loLogical newest t tOld tNew policy).run
      return (out, cursor)
    else if newest = loLogical then
      return (.error (.noSegment r.edge), cursor)
    else if t = tNew then
      let out ← (r.readSegment (newest - 1) t).run
      return (out, cursor)
    else
      let i ← seek loLogical newest
      let out ← (r.readSegment i t).run
      return (out, i)

/-- `SampleRing::sample_with_twist` (lines 365–371). -/
def sampleWithTwist (t : ℤ) (policy : ExtrapPolicy) :
    RingProg F (Except LookupError (Iso3 F × Twist F)) := do
  let out ← r.sampleWithTwistSeeking (fun lo hi => r.bracket lo hi t) t policy 0
  return out.1

/-- `SampleRing::sample_with_twist_from` (lines 379–390). -/
def sampleWithTwistFrom (t : ℤ) (policy : ExtrapPolicy) (cursor : ℕ) :
    RingProg F (Except LookupError (Iso3 F × Twist F) × ℕ) :=
  r.sampleWithTwistSeeking (fun lo hi => r.bracketFrom lo hi t cursor) t policy cursor

end SampleRing

/-! ## Reading a slot of a still ring -/

section Still

variable {r : SampleRing F} {m : RingArena F}

theorem run_loadWords (idx : ℕ) (is : List (Fin 7)) (bits : Fin 7 → F) :
    (r.loadWords idx is bits).run RingOp.exec m =
      some (fun i => if i ∈ is then (m r.edge).data idx i else bits i, m) := by
  induction is generalizing bits with
  | nil => simp [SampleRing.loadWords]
  | cons i is ih =>
    rw [SampleRing.loadWords, Prog.run_bind, r.run_loadData, Option.bind_some, ih]
    congr 2
    funext j
    rw [upd_apply]
    by_cases hji : j = i
    · subst hji; simp
    · simp [hji]

/-- A slot reads back exactly when its sequence word is even. -/
theorem run_readSlot [Zero F] (idx : ℕ) : (r.readSlot idx).run.run RingOp.exec m =
    some (if (m r.edge).seq idx &&& 1#32 = 0#32
      then .ok (Iso3.fromBits ((m r.edge).data idx)) else .error (.slotContended r.edge), m) := by
  have hloop : ∀ n, (r.readSlotLoop idx n).run RingOp.exec m =
      some (if (m r.edge).seq idx &&& 1#32 = 0#32 ∧ 0 < n
        then .ok (Iso3.fromBits ((m r.edge).data idx))
        else .error (.slotContended r.edge), m) := by
    intro n
    induction n with
    | zero => simp [SampleRing.readSlotLoop]
    | succ n ih =>
      rw [SampleRing.readSlotLoop, Prog.run_bind, r.run_loadSeq, Option.bind_some]
      by_cases hodd : (m r.edge).seq idx &&& 1#32 = 0#32
      · simp only [ne_eq, hodd, not_true_eq_false, if_false, Prog.run_bind, run_loadWords,
          r.run_loadSeq, Option.bind_some]
        simp
      · rw [if_pos hodd, ih]
        simp [hodd]
  rw [SampleRing.readSlot, ExceptT.run_mk, hloop]
  simp [SampleRing.seqRetryLimit]

theorem readSlot_returns [Zero F] (idx : ℕ) : (r.readSlot idx).run.Returns RingOp.exec m :=
  ⟨_, run_readSlot idx⟩

theorem revalidated_returns {α : Type} {i : ℕ} {v : α} (h : i ≤ (m r.edge).head) :
    (r.revalidated i v).run.Returns RingOp.exec m := by
  refine Prog.Returns.bindE (Prog.Returns.liftE r.returns_loadHead) fun head hhead => ?_
  obtain rfl : (m r.edge).head = head :=
    Except.ok.inj (congrArg Prod.fst (Option.some_inj.mp hhead))
  refine Prog.Returns.bindE (Prog.Returns.liftE (SampleRing.returns_u64Sub h)) fun d _ => ?_
  split_ifs
  · exact Prog.Returns.ret _ _
  · exact Prog.Returns.ret _ _

variable [Kernels F]

theorem held_returns {newest : ℕ} (h : newest ≤ (m r.edge).head) :
    (r.held newest).run.Returns RingOp.exec m :=
  Prog.Returns.bindE (readSlot_returns _) fun _ _ => revalidated_returns h

theorem constantTwist_returns {lo newest : ℕ} {t tNew : ℤ} (h : newest ≤ (m r.edge).head) :
    (r.constantTwist lo newest t tNew).run.Returns RingOp.exec m := by
  unfold SampleRing.constantTwist
  split_ifs
  · exact Prog.Returns.bindE (readSlot_returns _) fun _ _ => revalidated_returns h
  · refine Prog.Returns.bindE (Prog.Returns.liftE (r.returns_stampAt _)) fun tPrev _ => ?_
    refine Prog.Returns.bindE (readSlot_returns _) fun a _ => ?_
    refine Prog.Returns.bindE (readSlot_returns _) fun b _ => ?_
    exact revalidated_returns (by omega)

theorem extrapolated_returns {lo newest : ℕ} {t tOld tNew : ℤ} {policy : ExtrapPolicy}
    (h : newest ≤ (m r.edge).head) :
    (r.extrapolated lo newest t tOld tNew policy).run.Returns RingOp.exec m := by
  cases policy with
  | error => exact Prog.Returns.ret _ _
  | hold => exact held_returns h
  | constantTwist =>
    exact Prog.Returns.bindE (constantTwist_returns h) fun _ _ => Prog.Returns.ret _ _

theorem readBracket_returns {B : Type} {exact' : Iso3 F → B} {between : Iso3 F → Iso3 F → F → B}
    {i : ℕ} {t : ℤ} (h : i ≤ (m r.edge).head) :
    (r.readBracket exact' between i t).run.Returns RingOp.exec m := by
  unfold SampleRing.readBracket
  refine Prog.Returns.bindE (Prog.Returns.liftE (r.returns_stampAt _)) fun ti _ => ?_
  split_ifs
  · exact Prog.Returns.bindE (readSlot_returns _) fun _ _ => revalidated_returns h
  · refine Prog.Returns.bindE (Prog.Returns.liftE (r.returns_stampAt _)) fun tj _ => ?_
    refine Prog.Returns.bindE (readSlot_returns _) fun a _ => ?_
    refine Prog.Returns.bindE (readSlot_returns _) fun b _ => ?_
    exact revalidated_returns h

theorem readSegment_returns {i : ℕ} {t : ℤ} (h : i ≤ (m r.edge).head) :
    (r.readSegment i t).run.Returns RingOp.exec m := by
  unfold SampleRing.readSegment
  refine Prog.Returns.bindE (Prog.Returns.liftE (r.returns_stampAt _)) fun ti _ => ?_
  refine Prog.Returns.bindE (Prog.Returns.liftE (r.returns_stampAt _)) fun tj _ => ?_
  dsimp only
  split_ifs
  · exact Prog.Returns.ret _ _
  · refine Prog.Returns.bindE (readSlot_returns _) fun a _ => ?_
    refine Prog.Returns.bindE (readSlot_returns _) fun b _ => ?_
    exact revalidated_returns h

theorem extrapolatedWithTwist_returns {lo newest : ℕ} {t tOld tNew : ℤ} {policy : ExtrapPolicy}
    (h : newest ≤ (m r.edge).head) :
    (r.extrapolatedWithTwist lo newest t tOld tNew policy).run.Returns RingOp.exec m := by
  cases policy with
  | error => exact Prog.Returns.ret _ _
  | hold => exact Prog.Returns.bindE (readSlot_returns _) fun _ _ => revalidated_returns h
  | constantTwist =>
    unfold SampleRing.extrapolatedWithTwist
    split_ifs
    · exact Prog.Returns.ret _ _
    · exact constantTwist_returns h

/-! ## The readers on a still ring -/

/-- The oldest and the newest index of the retained window. -/
def SampleRing.lowest (r : SampleRing F) (m : RingArena F) : ℕ :=
  (m r.edge).head - min (m r.edge).head r.retained

/-- The search finds an index of the window, whenever the query is inside it. -/
def Seeks (r : SampleRing F) (m : RingArena F) (t : ℤ) (seek : ℕ → ℕ → RingProg F ℕ) : Prop :=
  (m r.edge).head ≠ 0 → r.stampOf m (r.lowest m) ≤ t → t < r.stampOf m ((m r.edge).head - 1) →
    ∃ i, (seek (r.lowest m) ((m r.edge).head - 1)).run RingOp.exec m = some (i, m) ∧
      i ≤ (m r.edge).head

/-- Two searches that agree whenever the query is inside the window. -/
def SeeksAgree (r : SampleRing F) (m : RingArena F) (t : ℤ) (seek seek' : ℕ → ℕ → RingProg F ℕ) :
    Prop :=
  (m r.edge).head ≠ 0 → r.stampOf m (r.lowest m) ≤ t → t < r.stampOf m ((m r.edge).head - 1) →
    (seek (r.lowest m) ((m r.edge).head - 1)).run RingOp.exec m =
      (seek' (r.lowest m) ((m r.edge).head - 1)).run RingOp.exec m

section Readers

variable {t : ℤ} {policy : ExtrapPolicy} {seek seek' : ℕ → ℕ → RingProg F ℕ} {cursor cursor' : ℕ}

theorem readWith_returns {B : Type} {exact' : Iso3 F → B} {between : Iso3 F → Iso3 F → F → B}
    (h : Seeks r m t seek) :
    (r.readWith exact' between seek t policy cursor).Returns RingOp.exec m := by
  unfold SampleRing.readWith
  refine r.returns_loadHead.bind fun head hh => ?_
  obtain rfl : (m r.edge).head = head := congrArg Prod.fst (Option.some_inj.mp hh)
  split_ifs with h0
  · exact Prog.Returns.ret _ _
  · refine (r.returns_stampAt _).bind fun tOld hOld => ?_
    obtain rfl : r.stampOf m (r.lowest m) = tOld := congrArg Prod.fst (Option.some_inj.mp hOld)
    refine (r.returns_stampAt _).bind fun tNew hNew => ?_
    obtain rfl : r.stampOf m ((m r.edge).head - 1) = tNew :=
      congrArg Prod.fst (Option.some_inj.mp hNew)
    split_ifs with h1 h2 h3
    · exact Prog.Returns.ret _ _
    · exact (extrapolated_returns (by omega)).bind fun _ _ => Prog.Returns.ret _ _
    · exact (held_returns (by omega)).bind fun _ _ => Prog.Returns.ret _ _
    · obtain ⟨i, hi, hle⟩ := h h0 (by omega) (by omega)
      refine Prog.Returns.bind ⟨i, hi⟩ fun j hj => ?_
      obtain rfl : i = j := congrArg Prod.fst (Option.some_inj.mp (hi.symm.trans hj))
      exact (readBracket_returns hle).bind fun _ _ => Prog.Returns.ret _ _

theorem readWith_congr {B : Type} {exact' : Iso3 F → B} {between : Iso3 F → Iso3 F → F → B}
    (h : SeeksAgree r m t seek seek') :
    ((r.readWith exact' between seek t policy cursor).run RingOp.exec m).map (·.1.1) =
      ((r.readWith exact' between seek' t policy cursor').run RingOp.exec m).map (·.1.1) := by
  simp only [SampleRing.readWith, Prog.run_bind, SampleRing.run_loadHead, Option.bind_some]
  split_ifs with h0
  · rfl
  · simp only [Prog.run_bind, SampleRing.run_stampAt, Option.bind_some]
    split_ifs with h1 h2 h3
    · rfl
    · rfl
    · rfl
    · have hseek := h h0 (by unfold SampleRing.lowest; omega) (by omega)
      unfold SampleRing.lowest at hseek
      rw [Prog.run_bind, Prog.run_bind, hseek]

theorem sampleWithTwistSeeking_returns (h : Seeks r m t seek) :
    (r.sampleWithTwistSeeking seek t policy cursor).Returns RingOp.exec m := by
  unfold SampleRing.sampleWithTwistSeeking
  refine r.returns_loadHead.bind fun head hh => ?_
  obtain rfl : (m r.edge).head = head := congrArg Prod.fst (Option.some_inj.mp hh)
  split_ifs with h0
  · exact Prog.Returns.ret _ _
  · refine (r.returns_stampAt _).bind fun tOld hOld => ?_
    obtain rfl : r.stampOf m (r.lowest m) = tOld := congrArg Prod.fst (Option.some_inj.mp hOld)
    refine (r.returns_stampAt _).bind fun tNew hNew => ?_
    obtain rfl : r.stampOf m ((m r.edge).head - 1) = tNew :=
      congrArg Prod.fst (Option.some_inj.mp hNew)
    split_ifs with h1 h2 h3 h4
    · exact Prog.Returns.ret _ _
    · exact (extrapolatedWithTwist_returns (by omega)).bind fun _ _ => Prog.Returns.ret _ _
    · exact Prog.Returns.ret _ _
    · exact (readSegment_returns (by omega)).bind fun _ _ => Prog.Returns.ret _ _
    · obtain ⟨i, hi, hle⟩ := h h0 (by omega) (by omega)
      refine Prog.Returns.bind ⟨i, hi⟩ fun j hj => ?_
      obtain rfl : i = j := congrArg Prod.fst (Option.some_inj.mp (hi.symm.trans hj))
      exact (readSegment_returns hle).bind fun _ _ => Prog.Returns.ret _ _

theorem sampleWithTwistSeeking_congr (h : SeeksAgree r m t seek seek') :
    ((r.sampleWithTwistSeeking seek t policy cursor).run RingOp.exec m).map (·.1.1) =
      ((r.sampleWithTwistSeeking seek' t policy cursor').run RingOp.exec m).map (·.1.1) := by
  simp only [SampleRing.sampleWithTwistSeeking, Prog.run_bind, SampleRing.run_loadHead,
    Option.bind_some]
  by_cases h0 : (m r.edge).head = 0
  · rw [if_pos h0, if_pos h0]
    rfl
  · rw [if_neg h0, if_neg h0]
    simp only [Prog.run_bind, SampleRing.run_stampAt, Option.bind_some]
    split_ifs with h1 h2 h3 h4
    · rfl
    · simp only [Prog.run_bind, Option.map_bind]
      rfl
    · rfl
    · simp only [Prog.run_bind, Option.map_bind]
      rfl
    · have hseek := h h0 (by unfold SampleRing.lowest; omega) (by omega)
      unfold SampleRing.lowest at hseek
      rw [Prog.run_bind, Prog.run_bind, hseek]

end Readers

/-! ## Readers of a function of the pose -/

section Map

variable {B B' : Type} (f : B → B') (exact' : Iso3 F → B) (between : Iso3 F → Iso3 F → F → B)

omit [Kernels F] in
theorem revalidated_map {α β : Type} (f : α → β) (i : ℕ) (v : α) :
    r.revalidated i (f v) = f <$> r.revalidated i v := by
  unfold SampleRing.revalidated
  simp only [map_bind]
  congr 1
  funext h
  congr 1
  funext d
  split_ifs <;> rfl

theorem readBracket_map (i : ℕ) (t : ℤ) :
    r.readBracket (fun p => f (exact' p)) (fun a b s => f (between a b s)) i t =
      f <$> r.readBracket exact' between i t := by
  unfold SampleRing.readBracket
  simp only [map_bind]
  congr 1
  funext ti
  split_ifs
  · simp only [map_bind, revalidated_map f]
  · simp only [map_bind, revalidated_map f]

/-- A function applied to the pose a reader builds may be applied to its result. -/
theorem readWith_map (seek : ℕ → ℕ → RingProg F ℕ) (t : ℤ) (policy : ExtrapPolicy) (cursor : ℕ) :
    r.readWith (fun p => f (exact' p)) (fun a b s => f (between a b s)) seek t policy cursor =
      r.readWith exact' between seek t policy cursor >>= fun out => pure (out.1.map f, out.2) := by
  have hmap : ∀ out : Except LookupError (Iso3 F),
      out.map (fun p => f (exact' p)) = (out.map exact').map f := by
    intro out
    cases out <;> rfl
  unfold SampleRing.readWith
  rw [bind_assoc]
  congr 1
  funext h
  split_ifs
  · rfl
  · simp only [bind_assoc]
    congr 1
    funext tOld
    congr 1
    funext tNew
    split_ifs
    · rfl
    · simp only [bind_assoc, hmap]
      rfl
    · simp only [bind_assoc, hmap]
      rfl
    · simp only [bind_assoc, readBracket_map]
      congr 1
      funext i
      rw [ExceptT.run_map, map_eq_pure_bind, bind_assoc]
      rfl

end Map

/-! ## The cursor does not change the outcome -/

/-- The stamps of the retained window do not decrease, and `head` leaves the gallop
    room. -/
structure SampleRing.Readable (r : SampleRing F) (m : RingArena F) : Prop where
  capacity : 0 < r.capacity
  sorted : r.SortedOn m (r.lowest m) ((m r.edge).head - 1)
  bound : (m r.edge).head < 2 ^ 63

omit [Kernels F] in
theorem SampleRing.Readable.lowest_lt (h : r.Readable m) (h0 : (m r.edge).head ≠ 0) :
    r.lowest m < (m r.edge).head := by
  have hc := h.capacity
  unfold SampleRing.lowest SampleRing.retained
  split_ifs <;> omega

/-- `p` and `q` return the same outcome, `q` next to a cursor, and change nothing. -/
def SameOutcome {α C : Type} (m : RingArena F) (p : RingProg F α) (q : RingProg F (α × C)) :
    Prop :=
  ∃ v c, p.run RingOp.exec m = some (v, m) ∧ q.run RingOp.exec m = some ((v, c), m)

omit [Kernels F] in
theorem SameOutcome.of_run {α C C' : Type} {q : RingProg F (α × C)} {q' : RingProg F (α × C')}
    (hq : q.Returns RingOp.exec m) (hq' : q'.Returns RingOp.exec m)
    (h : (q.run RingOp.exec m).map (·.1.1) = (q'.run RingOp.exec m).map (·.1.1)) :
    SameOutcome m (q >>= fun out => pure out.1) q' := by
  obtain ⟨⟨v, c⟩, hv⟩ := hq
  obtain ⟨⟨v', c'⟩, hv'⟩ := hq'
  rw [hv, hv'] at h
  obtain rfl : v = v' := Option.some_inj.mp h
  exact ⟨v, c', by rw [Prog.run_bind, hv]; rfl, hv'⟩

section Agree

variable (hr : r.Readable m) (t : ℤ) (policy : ExtrapPolicy) (cursor : ℕ)

include hr

omit [Kernels F] in
theorem seeks_bracket : Seeks r m t fun lo hi => r.bracket lo hi t := by
  intro h0 ha hb
  have hne := hr.lowest_lt h0
  obtain ⟨i, hi, -, hlt⟩ := bracket_run hr.sorted (by omega) ha hb
  exact ⟨i, hi, by omega⟩

omit [Kernels F] in
theorem seeks_bracketFrom : Seeks r m t fun lo hi => r.bracketFrom lo hi t cursor := by
  intro h0 ha hb
  have hne := hr.lowest_lt h0
  have hbound := hr.bound
  obtain ⟨i, hi, -, hlt⟩ := bracketFrom_run cursor hr.sorted (by omega) (by omega) ha hb
  exact ⟨i, hi, by omega⟩

omit [Kernels F] in
theorem seeksAgree_bracketFrom : SeeksAgree r m t (fun lo hi => r.bracket lo hi t)
    fun lo hi => r.bracketFrom lo hi t cursor := by
  intro h0 ha hb
  have hne := hr.lowest_lt h0
  have hbound := hr.bound
  exact (bracketFrom_eq_bracket cursor hr.sorted (by omega) (by omega) ha hb).symm

/-- `sample_from` returns what `sample` returns, from any cursor. -/
theorem sampleFrom_agrees (interp : Iso3 F → Iso3 F → F → Iso3 F) :
    SameOutcome m (r.sample interp t policy) (r.sampleFrom interp t policy cursor) := by
  unfold SampleRing.sample SampleRing.sampleFrom SampleRing.readFrom
  refine SameOutcome.of_run ?_ ?_ ?_
  · exact readWith_returns (seeks_bracket hr t)
  · exact readWith_returns (seeks_bracketFrom hr t cursor)
  · exact readWith_congr (seeksAgree_bracketFrom hr t cursor)

/-- `sample_with_twist_from` returns what `sample_with_twist` returns, from any
    cursor. -/
theorem sampleWithTwistFrom_agrees :
    SameOutcome m (r.sampleWithTwist t policy) (r.sampleWithTwistFrom t policy cursor) := by
  unfold SampleRing.sampleWithTwist SampleRing.sampleWithTwistFrom
  refine SameOutcome.of_run ?_ ?_ ?_
  · exact sampleWithTwistSeeking_returns (seeks_bracket hr t)
  · exact sampleWithTwistSeeking_returns (seeks_bracketFrom hr t cursor)
  · exact sampleWithTwistSeeking_congr (seeksAgree_bracketFrom hr t cursor)

end Agree

end Still

end TfTree
