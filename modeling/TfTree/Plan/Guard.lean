import TfTree.Ring.Sample
import TfTree.Plan.Compile

/-!
# Guards

The sampling half of `Guard` (`tf_tree_core/src/plan.rs`): dispatch on an edge's
interpolation policy, and the cursors a guard keeps for its plan's steps. The
diagnostic counters are left out.

Results:
* `hinted_reads_agree`: no cursor, whatever it holds, changes what a read returns.
* `sample_agrees`, `sampleHinted_agrees`, `sampleWithTwistFrom_agrees`: the same
  through the guard, edges without a ring included.
-/

namespace TfTree

open Conc

variable {F : Type}

/-! ## Model of `plan.rs` -/

/-- The part of an `ArenaView` that sampling reads: the `interp` byte and the ring
    capacity of every edge that has a ring (`ArenaView::sampler`). -/
structure ArenaView where
  rings : EdgeId → Option (ℕ × ℕ)

namespace ArenaView

/-- `ArenaView::sampler`. -/
def sampler (view : ArenaView) (edge : EdgeId) : Option (ℕ × SampleRing F) :=
  (view.rings edge).map fun (interp, capacity) => (interp, ⟨edge, capacity⟩)

variable [Kernels F] (view : ArenaView)

/-- `Guard::sample` (lines 1605–1619). -/
def sample (edge : EdgeId) (t : ℤ) (policy : ExtrapPolicy) :
    RingProg F (Except LookupError (Iso3 F)) :=
  match view.sampler edge with
  | none => return .error (.unknownEdge edge)
  | some (interp, ring) => ring.sample (InterpPolicy.fromU8 interp).eval t policy

/-- `Guard::sample_from` (lines 1687–1702); returns the result and the cursor. -/
def sampleFrom (edge : EdgeId) (t : ℤ) (policy : ExtrapPolicy) (cursor : ℕ) :
    RingProg F (Except LookupError (Iso3 F) × ℕ) :=
  match view.sampler edge with
  | none => return (.error (.unknownEdge edge), cursor)
  | some (interp, ring) => ring.sampleFrom (InterpPolicy.fromU8 interp).eval t policy cursor

/-- `Guard::sample_hinted` (lines 1624–1646). `cursors` are the guard's cells, each
    an edge in its high half and the low half of a logical index. -/
def sampleHinted (cursors : ℕ → ℕ) (k : ℕ) (edge : EdgeId) (t : ℤ) (policy : ExtrapPolicy) :
    RingProg F (Except LookupError (Iso3 F) × (ℕ → ℕ)) :=
  if k < maxDepth then do
    let packed := cursors k
    let cursor := if packed / 2 ^ 32 % 2 ^ 32 = edge then packed % 2 ^ 32 else 0
    let (out, cursor) ← view.sampleFrom edge t policy cursor
    match out with
    | .ok p => return (.ok p, upd cursors k (edge * 2 ^ 32 + cursor % 2 ^ 32))
    | .error e => return (.error e, cursors)
  else do
    let out ← view.sample edge t policy
    return (out, cursors)

/-- `Guard::sample_with_twist` (lines 1650–1664). -/
def sampleWithTwist (edge : EdgeId) (t : ℤ) (policy : ExtrapPolicy) :
    RingProg F (Except LookupError (Iso3 F × Twist F)) :=
  match view.sampler edge with
  | none => return .error (.unknownEdge edge)
  | some (interp, ring) =>
    match InterpPolicy.fromU8 interp with
    | .scLerp => ring.sampleWithTwist t policy
    | .lerpSlerp => return .error (.derivativesUnavailable edge interp)

/-- `Guard::sample_with_twist_from` (lines 1668–1682); returns the result and the
    cursor. -/
def sampleWithTwistFrom (edge : EdgeId) (t : ℤ) (policy : ExtrapPolicy) (cursor : ℕ) :
    RingProg F (Except LookupError (Iso3 F × Twist F) × ℕ) :=
  match view.sampler edge with
  | none => return (.error (.unknownEdge edge), cursor)
  | some (interp, ring) =>
    match InterpPolicy.fromU8 interp with
    | .scLerp => ring.sampleWithTwistFrom t policy cursor
    | .lerpSlerp => return (.error (.derivativesUnavailable edge interp), cursor)

end ArenaView

/-! ## Cursors and outcomes -/

section Still

variable [Kernels F] {view : ArenaView} {m : RingArena F}

/-- The ring of the edge, if it has one, is readable. -/
def ArenaView.Readable (view : ArenaView) (m : RingArena F) (edge : EdgeId) : Prop :=
  ∀ interp (ring : SampleRing F), view.sampler edge = some (interp, ring) →
    ring.Readable m

theorem ArenaView.sampleFrom_agrees {edge : EdgeId} (hr : view.Readable m edge) (t : ℤ)
    (policy : ExtrapPolicy) (cursor : ℕ) :
    SameOutcome m (view.sample edge t policy) (view.sampleFrom edge t policy cursor) := by
  unfold ArenaView.sample ArenaView.sampleFrom
  cases h : (view.sampler edge : Option (ℕ × SampleRing F)) with
  | none => exact ⟨_, _, rfl, rfl⟩
  | some s =>
    obtain ⟨interp, ring⟩ := s
    exact TfTree.sampleFrom_agrees (hr interp ring h) t policy cursor _

/-- The guard's cursors, whatever they hold, do not change what `sample` returns. -/
theorem ArenaView.sampleHinted_agrees {edge : EdgeId} (hr : view.Readable m edge) (t : ℤ)
    (policy : ExtrapPolicy) (cursors : ℕ → ℕ) (k : ℕ) :
    SameOutcome m (view.sample edge t policy) (view.sampleHinted cursors k edge t policy) := by
  unfold ArenaView.sampleHinted
  split_ifs with hk
  · obtain ⟨v, c, h1, h2⟩ := ArenaView.sampleFrom_agrees hr t policy
      (if cursors k / 2 ^ 32 % 2 ^ 32 = edge then cursors k % 2 ^ 32 else 0)
    cases v with
    | ok p => exact ⟨_, _, h1, by rw [Prog.run_bind, h2]; rfl⟩
    | error e => exact ⟨_, _, h1, by rw [Prog.run_bind, h2]; rfl⟩
  · obtain ⟨v, -, h1, -⟩ := ArenaView.sampleFrom_agrees hr t policy 0
    exact ⟨v, cursors, h1, by rw [Prog.run_bind, h1]; rfl⟩

theorem ArenaView.sampleWithTwistFrom_agrees {edge : EdgeId} (hr : view.Readable m edge) (t : ℤ)
    (policy : ExtrapPolicy) (cursor : ℕ) :
    SameOutcome m (view.sampleWithTwist edge t policy)
      (view.sampleWithTwistFrom edge t policy cursor) := by
  unfold ArenaView.sampleWithTwist ArenaView.sampleWithTwistFrom
  cases h : (view.sampler edge : Option (ℕ × SampleRing F)) with
  | none => exact ⟨_, _, rfl, rfl⟩
  | some s =>
    obtain ⟨interp, ring⟩ := s
    dsimp only
    cases InterpPolicy.fromU8 interp with
    | lerpSlerp => exact ⟨_, _, rfl, rfl⟩
    | scLerp => exact TfTree.sampleWithTwistFrom_agrees (hr interp ring h) t policy cursor

/-- **Main theorem.** Over a nonempty window with nondecreasing stamps the galloping
    search from any hint ends where the binary search ends, at the last index whose
    stamp is `≤ t`; so every reader that resumes from a cursor, the guard's included,
    returns what its cursorless counterpart returns. -/
theorem hinted_reads_agree {r : SampleRing F} (hr : r.Readable m) (h0 : 0 < (m r.edge).head)
    (t : ℤ) (policy : ExtrapPolicy) (hint : ℕ) :
    (r.stampOf m (r.lowest m) ≤ t → t < r.stampOf m ((m r.edge).head - 1) → ∃ i,
      (r.bracket (r.lowest m) ((m r.edge).head - 1) t).run RingOp.exec m = some (i, m) ∧
      (r.bracketFrom (r.lowest m) ((m r.edge).head - 1) t hint).run RingOp.exec m =
        some (i, m) ∧
      r.IsLastLe m (r.lowest m) ((m r.edge).head - 1) t i) ∧
    (∀ interp : Iso3 F → Iso3 F → F → Iso3 F,
      SameOutcome m (r.sample interp t policy) (r.sampleFrom interp t policy hint)) ∧
    SameOutcome m (r.sampleWithTwist t policy) (r.sampleWithTwistFrom t policy hint) ∧
    (∀ (view : ArenaView) (byte : ℕ), view.sampler r.edge = some (byte, r) →
      ∀ (cursors : ℕ → ℕ) (k : ℕ), SameOutcome m (view.sample r.edge t policy)
        (view.sampleHinted cursors k r.edge t policy)) := by
  have hlt := hr.lowest_lt (by omega)
  have hbound := hr.bound
  refine ⟨fun ha hb => ?_, fun interp => TfTree.sampleFrom_agrees hr t policy hint interp,
    TfTree.sampleWithTwistFrom_agrees hr t policy hint, fun view byte hv cursors k => ?_⟩
  · obtain ⟨i, h1, h2, -⟩ := bracket_run hr.sorted (by omega) ha hb
    have hsame := bracketFrom_eq_bracket hint hr.sorted (by omega) (by omega) ha hb
    exact ⟨i, h1, hsame.trans h1, h2⟩
  · refine ArenaView.sampleHinted_agrees (fun interp ring h => ?_) t policy cursors k
    obtain ⟨-, rfl⟩ := Prod.mk.inj (Option.some_inj.mp (hv.symm.trans h))
    exact hr

/-- A ring of four slots whose window has lapped: indices 3 to 5 hold the stamps
    30, 40 and 50. -/
def lappedRing : RingArena ℚ := fun _ =>
  { head := 6
    heartbeat := 6
    stamps := fun idx => [40, 50, 20, 30].getD idx 0
    seq := fun _ => 4#32
    data := fun idx => ![1, 0, 0, 0, idx, 0, 0]
    published := [] }

theorem hinted_reads_agree_lapped :
    (⟨7, 4⟩ : SampleRing ℚ).Readable lappedRing ∧ 0 < (lappedRing 7).head ∧
    @SameOutcome ℚ _ _ lappedRing
      (@SampleRing.sampleWithTwist ℚ translationKernels ⟨7, 4⟩ 45 .error)
      (@SampleRing.sampleWithTwistFrom ℚ translationKernels ⟨7, 4⟩ 45 .error 1000) := by
  have hr : (⟨7, 4⟩ : SampleRing ℚ).Readable lappedRing := ⟨by decide, by decide, by decide⟩
  have h0 : 0 < (lappedRing 7).head := by decide
  exact ⟨hr, h0,
    (@hinted_reads_agree ℚ translationKernels lappedRing ⟨7, 4⟩ hr h0 45 .error 1000).2.2.1⟩

end Still

end TfTree
