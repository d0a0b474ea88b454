import TfTree.Plan.Eval
import TfTree.Plan.Layout
import TfTree.Data.OkPrefix
import Mathlib.Data.List.Chain

/-!
# Batch lookups

`at_many`, `at_many_into` and the twist batch (`tf_tree_core/src/plan.rs`). A long
sorted batch is folded step by step over chunks of lanes (`foldChunked`), any other
batch stamp by stamp.

Results:
* `foldChunkSteps_answers`: a chunk folded step by step keeps the lanes before the
  first stamp that fails, and that stamp's error.
* `foldBatch_answers`, `foldBatchWithTwist_answers`: every batch loop writes the rows
  before the first stamp that fails.
* `batch_agrees`: the batch lookups and the single lookups agree stamp by stamp.
-/

namespace TfTree

open Conc Data

variable {F : Type}

/-! ## Model of `plan.rs` -/

/-- `FOLD_LANES`. -/
def foldLaneCount : ℕ := 16

/-- `FOLD_MIN_BATCH`. -/
def foldMinBatch : ℕ := 3

/-- `Bracket` (`sample.rs`). -/
inductive Bracket (F : Type) where
  | exact (p : Iso3 F)
  | between (a b : Iso3 F) (s : F)

/-- `Bracket::eval` under an interpolation policy. -/
def Bracket.eval (interp : Iso3 F → Iso3 F → F → Iso3 F) : Bracket F → Iso3 F
  | .exact p => p
  | .between a b s => interp a b s

/-- The loop `for (v, dst) in values.zip(out.chunks_exact_mut(elems))`. -/
def writeRows {V T : Type} (enc : Encoder V T) : List V → List T → List T
  | [], out => out
  | v :: vs, out =>
    if out.length < enc.elems then out
    else enc.write v ++ writeRows enc vs (out.drop enc.elems)

/-- The loop `for (s, dst) in stamps.zip(out.chunks_exact_mut(elems))` over a lookup
    that threads cursors; returns the result and the buffer. -/
def batchRows {V T C : Type} (enc : Encoder V T)
    (lookup : ℤ → C → RingProg F (Except LookupError V × C)) :
    List ℤ → List T → C → RingProg F ((Except LookupError Unit × List T) × C)
  | [], out, c => return ((.ok (), out), c)
  | t :: ts, out, c =>
    if out.length < enc.elems then return ((.ok (), out), c)
    else do
      let (r, c) ← lookup t c
      match r with
      | .error e => return ((.error e, out), c)
      | .ok v => do
        let ((res, rest), c) ← batchRows enc lookup ts (out.drop enc.elems) c
        return ((res, enc.write v ++ rest), c)

section Model

variable [Kernels F]

/-- The lane loop of `fold_chunked` (lines 1079–1091): the brackets read, the error
    that stopped it, and the cursor. -/
def readLanes (ring : SampleRing F) :
    List ℤ → ℕ → RingProg F ((List (Bracket F) × Option LookupError) × ℕ)
  | [], cursor => return (([], none), cursor)
  | t :: ts, cursor => do
    let (b, cursor) ← ring.readFrom .exact .between t .error cursor
    match b with
    | .error e => return (([], some e), cursor)
    | .ok b => do
      let ((bs, failure), cursor) ← readLanes ring ts cursor
      return ((b :: bs, failure), cursor)

/-- `fold_lanes`. -/
def foldLanes (interp : Iso3 F → Iso3 F → F → Iso3 F) (inverted : Bool) (acc : List (Iso3 F))
    (brackets : List (Bracket F)) : List (Iso3 F) :=
  List.zipWith (fun a b => composeDyn a inverted (b.eval interp)) acc brackets

/-- The step loop of `fold_chunked` over one chunk (lines 1064–1114). `acc` is
    `acc[..live]`. -/
def foldChunkSteps (view : ArenaView) (chunk : List ℤ) :
    ℕ → List (Step (Iso3 F)) → List (Iso3 F) → Option LookupError → Cursors →
    RingProg F ((List (Iso3 F) × Option LookupError) × Cursors)
  | _, [], acc, failure, cursors => return ((acc, failure), cursors)
  | k, .static m :: steps, acc, failure, cursors =>
    foldChunkSteps view chunk (k + 1) steps (acc.map (· * m)) failure cursors
  | k, .dyn edge inverted :: steps, acc, failure, cursors =>
    match view.sampler edge with
    | none => return (([], some (.unknownEdge edge)), cursors)
    | some (interp, ring) => do
      let ((brackets, err), cursor) ← readLanes ring (chunk.take acc.length) (cursors k)
      let cursors := upd cursors k cursor
      let failure := err <|> failure
      let acc := foldLanes (InterpPolicy.fromU8 interp).eval inverted acc brackets
      if acc.length = 0 then return ((acc, failure), cursors)
      else foldChunkSteps view chunk (k + 1) steps acc failure cursors

/-- The chunk loop of `fold_chunked` (lines 1056–1126), over `n` chunks. The caller has
    checked that the buffer has a row for each stamp. -/
def foldChunks {T : Type} (view : ArenaView) (steps : List (Step (Iso3 F)))
    (enc : Encoder (Iso3 F) T) :
    ℕ → List ℤ → List T → Cursors → RingProg F ((Except LookupError Unit × List T) × Cursors)
  | 0, _, out, cursors => return ((.ok (), out), cursors)
  | n + 1, stamps, out, cursors => do
    let chunk := stamps.take foldLaneCount
    let ((acc, failure), cursors) ← foldChunkSteps view chunk 0 steps (chunk.map fun _ => 1) none
      cursors
    let dst := out.take (foldLaneCount * enc.elems)
    let rest := out.drop (foldLaneCount * enc.elems)
    match failure with
    | some e => return ((.error e, writeRows enc acc dst ++ rest), cursors)
    | none => do
      let ((res, rest), cursors) ← foldChunks view steps enc n (stamps.drop foldLaneCount) rest
        cursors
      return ((res, writeRows enc acc dst ++ rest), cursors)

namespace Plan

variable (plan : Plan (Iso3 F)) (g : Guard)

/-- `Plan::fold_chunked` (lines 1037–1128). -/
def foldChunked {T : Type} (stamps : List ℤ) (enc : Encoder (Iso3 F) T) (out : List T) :
    RingProg F ((Except LookupError Unit × List T) × Cursors) :=
  foldChunks g.view plan.steps enc ((stamps.length + foldLaneCount - 1) / foldLaneCount) stamps out
    fun _ => 0

/-- `Plan::fold_batch` (lines 997–1031). The result's cursors are the guard's, except
    in the two sorted branches, which use cursors of their own. -/
def foldBatch {T : Type} (stamps : List ℤ) (enc : Encoder (Iso3 F) T) (out : List T)
    (cursors : Cursors) : RingProg F ((Except LookupError Unit × List T) × Cursors) :=
  if ¬ stamps.IsChain (· ≤ ·) then batchRows enc (plan.foldAt g) stamps out cursors
  else if stamps.length < foldMinBatch then do
    let (res, _) ← batchRows enc (plan.foldAtCursors g) stamps out fun _ => 0
    return (res, cursors)
  else do
    let (res, _) ← plan.foldChunked g stamps enc out
    return (res, cursors)

/-- `Plan::fold_batch_with_twist` (lines 1133–1155). -/
def foldBatchWithTwist (stamps : List ℤ) (out : List F) (cursors : Cursors) :
    RingProg F ((Except LookupError Unit × List F) × Cursors) :=
  if stamps.IsChain (· ≤ ·) then do
    let (res, _) ← batchRows writeQuatTwist (plan.foldAtWithDerivativesCursors g) stamps out
      fun _ => 0
    return (res, cursors)
  else do
    let (res, _) ←
      batchRows writeQuatTwist (fun t _ => plan.foldAtWithDerivatives g t) stamps out ()
    return (res, cursors)

/-- The checks and the loop shared by the batch lookups, once the layout is settled. -/
def batch {T : Type} (domain need : ℕ) (out : List T) (cursors : Cursors)
    (loop : RingProg F ((Except LookupError Unit × List T) × Cursors)) :
    RingProg F ((Except LookupError Unit × List T) × Cursors) :=
  if out.length < need then return ((.error (.bufferTooSmall need out.length), out), cursors)
  else
    match plan.check g domain with
    | .error e => return ((.error e, out), cursors)
    | .ok () => loop

/-- `Plan::at_many` (lines 857–880). -/
def atMany (stamps : List ℤ) (domain : ℕ) (out : List (Iso3 F)) (cursors : Cursors) :
    RingProg F ((Except LookupError Unit × List (Iso3 F)) × Cursors) :=
  plan.batch g domain stamps.length out cursors (plan.foldBatch g stamps poseRow out cursors)

/-- `stamps.len().saturating_mul(layout.elems())`. -/
def need (stamps : List ℤ) (layout : Layout) : ℕ := min (2 ^ 64 - 1) (stamps.length * layout.elems)

/-- `Plan::at_many_into_tagged` (lines 912–940). -/
def atManyIntoTagged (stamps : List ℤ) (domain : ℕ) (layout : Layout) (out : List F)
    (cursors : Cursors) : RingProg F ((Except LookupError Unit × List F) × Cursors) :=
  if layout.isF32 then return ((.error .wrongElementType, out), cursors)
  else plan.batch g domain (need stamps layout) out cursors <|
    match layout with
    | .mat4 => plan.foldBatch g stamps writeMat4 out cursors
    | .quat => plan.foldBatch g stamps writeQuat out cursors
    | .quatTwist => plan.foldBatchWithTwist g stamps out cursors
    | .affine32 => return ((.error .wrongElementType, out), cursors)

/-- `Plan::at_many_into_f32_tagged` (lines 965–988). -/
def atManyIntoF32Tagged {F32 : Type} (narrow : F → F32) (stamps : List ℤ) (domain : ℕ)
    (layout : Layout) (out : List F32) (cursors : Cursors) :
    RingProg F ((Except LookupError Unit × List F32) × Cursors) :=
  if ¬ layout.isF32 then return ((.error .wrongElementType, out), cursors)
  else plan.batch g domain (need stamps layout) out cursors
    (plan.foldBatch g stamps (writeAffine32 narrow) out cursors)

end Plan

end Model

/-! ## Rows of a buffer -/

section Rows

variable {V T C : Type} {enc : Encoder V T} {vs : List V} {out : List T} {m : RingArena F}

/-- The result and the buffer of a batch that keeps these values and has this error. -/
def batchOut (enc : Encoder V T) (kept : List V × Option LookupError) (out : List T) :
    Except LookupError Unit × List T :=
  (match kept.2 with
    | none => .ok ()
    | some e => .error e, writeRows enc kept.1 out)

theorem length_flatMap_write (vs : List V) :
    (vs.flatMap enc.write).length = vs.length * enc.elems := by
  induction vs with
  | nil => simp
  | cons v vs ih =>
    rw [List.flatMap_cons, List.length_append, ih, enc.write_length, List.length_cons, Nat.succ_mul]
    omega

/-- A buffer that is long enough is overwritten from its start. -/
theorem writeRows_eq (h : vs.length * enc.elems ≤ out.length) :
    writeRows enc vs out = vs.flatMap enc.write ++ out.drop (vs.length * enc.elems) := by
  induction vs generalizing out with
  | nil => simp [writeRows]
  | cons v vs ih =>
    rw [List.length_cons, Nat.succ_mul] at h
    have hrest : vs.length * enc.elems ≤ (out.drop enc.elems).length := by
      rw [List.length_drop]
      omega
    rw [writeRows, if_neg (by omega), ih hrest, List.drop_drop, List.flatMap_cons,
      List.append_assoc,
      List.length_cons, Nat.succ_mul, Nat.add_comm enc.elems]

/-- Rows written into the first part of a buffer. -/
theorem writeRows_take {n : ℕ} (hn : vs.length * enc.elems ≤ n)
    (h : vs.length * enc.elems ≤ out.length) :
    writeRows enc vs (out.take n) ++ out.drop n = writeRows enc vs out := by
  have htake : vs.length * enc.elems ≤ (out.take n).length := by
    rw [List.length_take]
    omega
  rw [writeRows_eq h, writeRows_eq htake, List.append_assoc,
    ← List.drop_append_of_le_length htake, List.take_append_drop]

/-- Rows written into the two parts of a buffer, the first part filled completely. -/
theorem writeRows_append {ws : List V} (h : (vs.length + ws.length) * enc.elems ≤ out.length) :
    writeRows enc vs (out.take (vs.length * enc.elems)) ++
      writeRows enc ws (out.drop (vs.length * enc.elems)) = writeRows enc (vs ++ ws) out := by
  rw [Nat.add_mul] at h
  have hws : ws.length * enc.elems ≤ (out.drop (vs.length * enc.elems)).length := by
    rw [List.length_drop]
    omega
  have hvs : vs.length * enc.elems ≤ (out.take (vs.length * enc.elems)).length := by
    rw [List.length_take]
    omega
  have hall : (vs ++ ws).length * enc.elems ≤ out.length := by
    rw [List.length_append, Nat.add_mul]
    exact h
  rw [writeRows_eq hvs, writeRows_eq hws, writeRows_eq hall, List.drop_drop, List.flatMap_append,
    List.length_append, Nat.add_mul, List.drop_eq_nil_of_le (List.length_take_le _ _),
    List.append_nil, List.append_assoc]

/-- The `j`-th row of the buffer. -/
theorem writeRows_row {j : ℕ} (h : vs.length * enc.elems ≤ out.length) (hj : j < vs.length) :
    ((writeRows enc vs out).drop (j * enc.elems)).take enc.elems = enc.write vs[j] := by
  induction vs generalizing j out with
  | nil => exact absurd hj (Nat.not_lt_zero j)
  | cons v vs ih =>
    rw [List.length_cons, Nat.succ_mul] at h
    rw [writeRows, if_neg (by omega)]
    cases j with
    | zero => rw [Nat.zero_mul, List.drop_zero, List.take_left' (enc.write_length v)]; rfl
    | succ j =>
      have hrest : vs.length * enc.elems ≤ (out.drop enc.elems).length := by
        rw [List.length_drop]
        omega
      have hdrop : (j + 1) * enc.elems = (enc.write v).length + j * enc.elems := by
        rw [enc.write_length, Nat.succ_mul, Nat.add_comm]
      rw [hdrop, ← List.drop_drop, List.drop_left]
      exact ih hrest (Nat.lt_of_succ_lt_succ hj)

/-- The rows before `n` are those of the single lookup, the others as they were. -/
structure RowsOf (enc : Encoder V T) (single : ℤ → Except LookupError V) (stamps : List ℤ)
    (out out' : List T) (n : ℕ) : Prop where
  length : out'.length = out.length
  rows : ∀ j < n, ∃ t v, stamps[j]? = some t ∧ single t = .ok v ∧
    (out'.drop (j * enc.elems)).take enc.elems = enc.write v
  rest : out'.drop (n * enc.elems) = out.drop (n * enc.elems)

/-- The outcomes of a batch lookup: the result, and the buffer it leaves. -/
inductive BatchOutcome (enc : Encoder V T) (single : ℤ → Except LookupError V) (stamps : List ℤ)
    (need : ℕ) (out : List T) : Except LookupError Unit → List T → Prop
  /-- The buffer has no room. -/
  | tooSmall : out.length < need →
      BatchOutcome enc single stamps need out (.error (.bufferTooSmall need out.length)) out
  /-- No stamp, and a plan that refuses every lookup. -/
  | refused {e : LookupError} : need ≤ out.length → stamps = [] → (∀ t, single t = .error e) →
      BatchOutcome enc single stamps need out (.error e) out
  /-- The single lookup fails at the `n`-th stamp, and at none before it. -/
  | failed {n : ℕ} {t : ℤ} {e : LookupError} {out' : List T} : need ≤ out.length →
      stamps[n]? = some t → single t = .error e → RowsOf enc single stamps out out' n →
      BatchOutcome enc single stamps need out (.error e) out'
  | done {out' : List T} : need ≤ out.length →
      RowsOf enc single stamps out out' stamps.length →
      BatchOutcome enc single stamps need out (.ok ()) out'

/-- A loop that stops at the first failing stamp has one of these outcomes. -/
theorem batchOut_outcome {f : ℤ → Except LookupError V} {stamps : List ℤ} {need : ℕ}
    (hneed : need ≤ out.length) (hlen : stamps.length * enc.elems ≤ out.length) :
    BatchOutcome enc f stamps need out (batchOut enc (okPrefix f stamps) out).1
      (batchOut enc (okPrefix f stamps) out).2 := by
  obtain ⟨hle, hval, hnone, hsome⟩ := okPrefix_spec f stamps
  have hroom : (okPrefix f stamps).1.length * enc.elems ≤ out.length :=
    (Nat.mul_le_mul_right _ hle).trans hlen
  have hrows : RowsOf enc f stamps out (writeRows enc (okPrefix f stamps).1 out)
      (okPrefix f stamps).1.length := by
    refine ⟨?_, fun j hj => ?_, ?_⟩
    · rw [writeRows_eq hroom, List.length_append, length_flatMap_write, List.length_drop]
      omega
    · obtain ⟨t, ht, hv⟩ := hval j hj
      exact ⟨t, _, ht, hv, writeRows_row hroom hj⟩
    · rw [writeRows_eq hroom, List.drop_left' (length_flatMap_write _)]
  unfold batchOut
  cases herr : (okPrefix f stamps).2 with
  | none => exact .done hneed (hnone herr ▸ hrows)
  | some e =>
    obtain ⟨t, ht, he⟩ := hsome e herr
    exact .failed hneed ht he hrows

/-- The stamp-by-stamp loop over a lookup whose answers do not depend on its cursors. -/
theorem batchRows_answers {lookup : ℤ → C → RingProg F (Except LookupError V × C)}
    {f : ℤ → Except LookupError V} (h : ∀ t c, Answers m (lookup t c) (f t)) (stamps : List ℤ)
    (out : List T) (c : C) (hlen : stamps.length * enc.elems ≤ out.length) :
    Answers m (batchRows enc lookup stamps out c) (batchOut enc (okPrefix f stamps) out) := by
  induction stamps generalizing out c with
  | nil => exact .ret _ _
  | cons t ts ih =>
    rw [List.length_cons, Nat.succ_mul] at hlen
    rw [batchRows, if_neg (by omega)]
    refine (h t c).bind fun c' => ?_
    cases hf : f t with
    | error e =>
      rw [okPrefix_cons_error hf]
      exact .ret _ _
    | ok v =>
      have hrest : ts.length * enc.elems ≤ (out.drop enc.elems).length := by
        rw [List.length_drop]
        omega
      rw [okPrefix_cons_ok hf]
      refine (ih (out.drop enc.elems) c' hrest).bind fun c'' => ?_
      have hrows : writeRows enc (v :: (okPrefix f ts).1) out =
          enc.write v ++ writeRows enc (okPrefix f ts).1 (out.drop enc.elems) := by
        rw [writeRows, if_neg (by omega)]
      show Answers m
        (.ret ((_, enc.write v ++ writeRows enc (okPrefix f ts).1 (out.drop enc.elems)),
        c'')) (batchOut enc (v :: (okPrefix f ts).1, (okPrefix f ts).2) out)
      rw [← hrows]
      exact .ret _ _

end Rows

/-! ## A chunk, step by step -/

section Chunk

variable [Kernels F] {m : RingArena F} {view : ArenaView}
  {pose : EdgeId → ℤ → Except LookupError (Iso3 F)}
  {twist : EdgeId → ℤ → Except LookupError (Iso3 F × Twist F)}

theorem readLanes_answers {ring : SampleRing F} {b : ℤ → Except LookupError (Bracket F)}
    (h : ∀ t cursor, Answers m (ring.readFrom .exact .between t .error cursor) (b t))
    (ts : List ℤ) (cursor : ℕ) : Answers m (readLanes ring ts cursor) (okPrefix b ts) := by
  induction ts generalizing cursor with
  | nil => exact .ret _ _
  | cons t ts ih =>
    refine (h t cursor).bind fun c => ?_
    cases hb : b t with
    | error e =>
      rw [okPrefix_cons_error hb]
      exact .ret _ _
    | ok v =>
      rw [okPrefix_cons_ok hb]
      exact (ih c).bind fun c' => .ret _ _

/-- The brackets a lane reads evaluate to what the edge answers. -/
theorem exists_brackets (h : Reads m view pose twist) {edge : EdgeId} (hr : view.Readable m edge)
    {interp : ℕ} {ring : SampleRing F} (hs : view.sampler edge = some (interp, ring)) :
    ∃ b : ℤ → Except LookupError (Bracket F),
      (∀ t cursor, Answers m (ring.readFrom .exact .between t .error cursor) (b t)) ∧
      ∀ t, (b t).map (Bracket.eval (InterpPolicy.fromU8 interp).eval) = pose edge t := by
  have hring : ring.Readable m := hr interp ring hs
  have hall : ∀ t, ∃ v : Except LookupError (Bracket F), ∀ cursor,
      Answers m (ring.readFrom .exact .between t .error cursor) v := by
    intro t
    have hplain : (ring.readWith .exact .between (fun lo hi => ring.bracket lo hi t) t .error 0 :
        RingProg F (Except LookupError (Bracket F) × ℕ)).Returns RingOp.exec m :=
      readWith_returns (seeks_bracket hring t)
    obtain ⟨⟨v, c⟩, hv⟩ := hplain
    refine ⟨v, fun cursor => ?_⟩
    have hseeking : (ring.readFrom .exact .between t .error cursor :
        RingProg F (Except LookupError (Bracket F) × ℕ)).Returns RingOp.exec m :=
      readWith_returns (seeks_bracketFrom hring t cursor)
    obtain ⟨⟨v', c'⟩, hv'⟩ := hseeking
    have hsame : ((ring.readWith .exact .between (fun lo hi => ring.bracket lo hi t) t .error 0 :
        RingProg F (Except LookupError (Bracket F) × ℕ)).run RingOp.exec m).map (·.1.1) =
        ((ring.readFrom .exact .between t .error cursor).run RingOp.exec m).map (·.1.1) :=
      readWith_congr (seeksAgree_bracketFrom hring t cursor)
    rw [hv, hv'] at hsame
    cases hsame
    exact ⟨c', hv'⟩
  choose b hb using hall
  refine ⟨b, hb, fun t => ?_⟩
  obtain ⟨c, hc⟩ := hb t 0
  obtain ⟨c', hc'⟩ := h.sampleFrom edge t 0
  have hmap := readWith_map (r := ring) (Bracket.eval (InterpPolicy.fromU8 interp).eval)
    Bracket.exact Bracket.between (fun lo hi => ring.bracketFrom lo hi t 0) t .error 0
  unfold ArenaView.sampleFrom at hc'
  rw [hs] at hc'
  have hrun : ((ring.readFrom .exact .between t .error 0 >>= fun out =>
      pure (out.1.map (Bracket.eval (InterpPolicy.fromU8 interp).eval), out.2)).run
        RingOp.exec m) = some ((pose edge t, c'), m) := by
    unfold SampleRing.readFrom
    rw [← hmap]
    exact hc'
  rw [Prog.run_bind, hc] at hrun
  exact congrArg (fun out => out.1.1) (Option.some_inj.mp hrun)

theorem unknownEdge_answers (h : Reads m view pose twist) {edge : EdgeId}
    (hs : (view.sampler edge : Option (ℕ × SampleRing F)) = none) (t : ℤ) :
    pose edge t = .error (.unknownEdge edge) := by
  obtain ⟨c, hc⟩ := h.sampleFrom edge t 0
  unfold ArenaView.sampleFrom at hc
  rw [hs] at hc
  exact (congrArg (fun out => out.1.1) (Option.some_inj.mp hc)).symm

/-- The step loop over a chunk. `f` is the fold of the steps already done: the live
    lanes are the stamps before its first error, and `failure` is that error. -/
theorem foldChunkSteps_answers (h : Reads m view pose twist) (hr : ∀ edge, view.Readable m edge)
    (chunk : List ℤ) (steps : List (Step (Iso3 F))) (f : ℤ → Except LookupError (Iso3 F)) (k : ℕ)
    (cursors : Cursors) (hne : (okPrefix f chunk).1 ≠ []) :
    Answers m (foldChunkSteps view chunk k steps (okPrefix f chunk).1 (okPrefix f chunk).2 cursors)
      (okPrefix (fun t => f t >>= evalSteps (· * ·) composeDyn (pose · t) steps) chunk) := by
  induction steps generalizing f k cursors with
  | nil =>
    have hf : (fun t => f t >>= evalSteps (· * ·) composeDyn (pose · t) []) = f := by
      funext t
      cases f t <;> rfl
    rw [hf]
    exact .ret _ _
  | cons s steps ih =>
    cases s with
    | static p =>
      have hstep := okPrefix_map (f := f) (· * p) chunk
      have hcont : (fun t => f t >>= evalSteps (· * ·) composeDyn (pose · t) (.static p :: steps)) =
          fun t => (f t).map (· * p) >>= evalSteps (· * ·) composeDyn (pose · t) steps := by
        funext t
        cases f t <;> rfl
      have hnext := ih (fun t => (f t).map (· * p)) (k + 1) cursors
      rw [hstep] at hnext
      rw [hcont]
      exact hnext (by simpa using hne)
    | dyn edge inverted =>
      cases hs : (view.sampler edge : Option (ℕ × SampleRing F)) with
      | none =>
        -- the first stamp got this far, so it is the first to fail
        obtain ⟨x, xs, rfl⟩ : ∃ x xs, chunk = x :: xs := by
          cases chunk with
          | nil => exact absurd rfl hne
          | cons x xs => exact ⟨x, xs, rfl⟩
        have hx : ∃ a, f x = .ok a := by
          cases hf : f x with
          | ok a => exact ⟨a, rfl⟩
          | error e =>
            rw [okPrefix_cons_error hf] at hne
            exact absurd rfl hne
        obtain ⟨a, hx⟩ := hx
        have hfail :
          (f x >>= evalSteps (· * ·) composeDyn (pose · x) (.dyn edge inverted :: steps)) =
            .error (.unknownEdge edge) := by
          rw [hx]
          show (pose edge x).map _ >>= _ = _
          rw [unknownEdge_answers h hs]
          rfl
        rw [okPrefix_cons_error (f := fun t => f t >>= evalSteps (· * ·) composeDyn (pose · t)
          (.dyn edge inverted :: steps)) hfail, foldChunkSteps, hs]
        exact .ret _ _
      | some entry =>
        obtain ⟨interp, ring⟩ := entry
        obtain ⟨b, hb, hpose⟩ := exists_brackets h (hr edge) hs
        have hbind := okPrefix_bind (f := f) (g := b) (fun a br => composeDyn a inverted
          (br.eval (InterpPolicy.fromU8 interp).eval)) chunk
        have hcont : (fun t => f t >>= evalSteps (· * ·) composeDyn (pose · t)
            (.dyn edge inverted :: steps)) = fun t => (f t >>= fun a => (b t).map (fun br =>
              composeDyn a inverted (br.eval (InterpPolicy.fromU8 interp).eval))) >>=
                evalSteps (· * ·) composeDyn (pose · t) steps := by
          funext t
          cases hf : f t with
          | error e => rfl
          | ok a =>
            show (pose edge t).map _ >>= _ = _
            rw [← hpose t]
            cases b t <;> rfl
        rw [foldChunkSteps, hs, hcont]
        refine (readLanes_answers hb _ _).bind fun c => ?_
        dsimp only
        generalize hg : (fun t => f t >>= fun a => (b t).map (fun br =>
          composeDyn a inverted (br.eval (InterpPolicy.fromU8 interp).eval))) = f' at hbind
        have hcut : foldLanes (InterpPolicy.fromU8 interp).eval inverted (okPrefix f chunk).1
            (okPrefix b (chunk.take (okPrefix f chunk).1.length)).1 = (okPrefix f' chunk).1 := by
          rw [hbind]
          rfl
        have hfailure : ((okPrefix b (chunk.take (okPrefix f chunk).1.length)).2 <|>
            (okPrefix f chunk).2) = (okPrefix f' chunk).2 := by
          rw [hbind]
        rw [hcut, hfailure]
        have hfun : (fun t => (f t >>= fun a => (b t).map (fun br => composeDyn a inverted
            (br.eval (InterpPolicy.fromU8 interp).eval))) >>=
              evalSteps (· * ·) composeDyn (pose · t) steps) =
            fun t => f' t >>= evalSteps (· * ·) composeDyn (pose · t) steps := by
          rw [← hg]
        rw [hfun]
        by_cases hzero : (okPrefix f' chunk).1.length = 0
        · -- no lane is live: the loop breaks, and no later step can change anything
          have hchunk : chunk ≠ [] := by
            rintro rfl
            exact hne rfl
          have hnil := List.eq_nil_of_length_eq_zero hzero
          rw [if_pos hzero, okPrefix_bind_of_nil
            (fun t => evalSteps (· * ·) composeDyn (pose · t) steps) hchunk hnil, hnil]
          exact .ret _ _
        · rw [if_neg hzero]
          exact ih f' (k + 1) _ fun hnil => hzero (by rw [hnil]; rfl)

/-- The chunk loop. -/
theorem foldChunks_answers (h : Reads m view pose twist) (hr : ∀ edge, view.Readable m edge)
    {T : Type} (enc : Encoder (Iso3 F) T) (steps : List (Step (Iso3 F))) (n : ℕ)
    (stamps : List ℤ) (out : List T) (cursors : Cursors)
    (hn : n = (stamps.length + foldLaneCount - 1) / foldLaneCount)
    (hlen : stamps.length * enc.elems ≤ out.length) :
    Answers m (foldChunks view steps enc n stamps out cursors)
      (batchOut enc (okPrefix (fun t => evalSteps (· * ·) composeDyn (pose · t) steps 1) stamps)
        out) := by
  induction n generalizing stamps out cursors with
  | zero =>
    obtain rfl : stamps = [] := by
      refine List.eq_nil_of_length_eq_zero ?_
      unfold foldLaneCount at hn
      omega
    exact .ret _ _
  | succ n ih =>
    rw [foldChunks]
    generalize hf : (fun t => evalSteps (· * ·) composeDyn (pose · t) steps 1) = f
    have hpos : stamps ≠ [] := by
      rintro rfl
      unfold foldLaneCount at hn
      simp at hn
    have hchunk : stamps.take foldLaneCount ≠ [] := by
      intro hnil
      rcases List.take_eq_nil_iff.mp hnil with h0 | h0
      · cases h0
      · exact hpos h0
    -- every lane starts live, with the identity
    have hstart := okPrefix_pure (ε := LookupError) (fun _ : ℤ => (1 : Iso3 F))
      (stamps.take foldLaneCount)
    have hsteps := foldChunkSteps_answers h hr (stamps.take foldLaneCount) steps (fun _ => .ok 1) 0
      cursors (by rw [hstart]; simpa using hchunk)
    have hfun : (fun t => (Except.ok 1 : Except LookupError (Iso3 F)) >>=
        evalSteps (· * ·) composeDyn (pose · t) steps) = f := hf
    rw [hstart, hfun] at hsteps
    have hsplit := okPrefix_append f (stamps.take foldLaneCount) (stamps.drop foldLaneCount)
    rw [List.take_append_drop] at hsplit
    obtain ⟨hle, -, hnone, -⟩ := okPrefix_spec f (stamps.take foldLaneCount)
    have htake : (stamps.take foldLaneCount).length = min foldLaneCount stamps.length :=
      List.length_take
    generalize okPrefix f (stamps.take foldLaneCount) = kept at hsteps hsplit hle hnone
    obtain ⟨acc, failure⟩ := kept
    dsimp only at hle hnone hsplit
    refine hsteps.bind fun c => ?_
    have hacc : acc.length * enc.elems ≤ foldLaneCount * enc.elems :=
      Nat.mul_le_mul_right _ (by omega)
    have hroom : acc.length * enc.elems ≤ out.length :=
      (Nat.mul_le_mul_right _ (by omega)).trans hlen
    cases failure with
    | some e =>
      have hrows := writeRows_take hacc hroom
      rw [hsplit]
      show Answers m (.ret ((_, writeRows enc acc (out.take (foldLaneCount * enc.elems)) ++
        out.drop (foldLaneCount * enc.elems)), c)) _
      rw [hrows]
      exact .ret _ _
    | none =>
      have hfull := hnone rfl
      have hrest : (stamps.drop foldLaneCount).length * enc.elems ≤
          (out.drop (foldLaneCount * enc.elems)).length := by
        rw [List.length_drop, List.length_drop, Nat.sub_mul]
        omega
      have hcount : n = ((stamps.drop foldLaneCount).length + foldLaneCount - 1) /
          foldLaneCount := by
        rw [List.length_drop]
        unfold foldLaneCount at hn ⊢
        omega
      have hih :=
        ih (stamps.drop foldLaneCount) (out.drop (foldLaneCount * enc.elems)) c hcount hrest
      rw [hf] at hih
      refine hih.bind fun c' => ?_
      have hrows : writeRows enc acc (out.take (foldLaneCount * enc.elems)) ++
          writeRows enc (okPrefix f (stamps.drop foldLaneCount)).1
            (out.drop (foldLaneCount * enc.elems)) =
          writeRows enc (acc ++ (okPrefix f (stamps.drop foldLaneCount)).1) out := by
        by_cases hlast : stamps.length ≤ foldLaneCount
        · have hdrop : stamps.drop foldLaneCount = [] := List.drop_eq_nil_of_le hlast
          rw [hdrop, okPrefix_nil, List.append_nil]
          exact writeRows_take hacc hroom
        · have heq : acc.length = foldLaneCount := by omega
          obtain ⟨hle', -⟩ := okPrefix_spec f (stamps.drop foldLaneCount)
          rw [List.length_drop] at hle'
          have hall : (acc.length + (okPrefix f (stamps.drop foldLaneCount)).1.length) * enc.elems ≤
              out.length := (Nat.mul_le_mul_right _ (by omega)).trans hlen
          have happend := writeRows_append hall
          rwa [heq] at happend
      rw [hsplit]
      show Answers m (.ret ((_, writeRows enc acc (out.take (foldLaneCount * enc.elems)) ++
        writeRows enc (okPrefix f (stamps.drop foldLaneCount)).1
          (out.drop (foldLaneCount * enc.elems))), c')) _
      rw [hrows]
      exact .ret _ _

end Chunk

/-! ## Batches -/

section Batch

variable [Kernels F] {m : RingArena F} {plan : Plan (Iso3 F)} {g : Guard}
  {pose : EdgeId → ℤ → Except LookupError (Iso3 F)}
  {twist : EdgeId → ℤ → Except LookupError (Iso3 F × Twist F)} {stamps : List ℤ}

/-- All three branches write the rows before the first stamp that fails. -/
theorem foldBatch_answers (h : Reads m g.view pose twist)
    (hr : ∀ edge, g.view.Readable m edge) {T : Type} {enc : Encoder (Iso3 F) T} {out : List T}
    (hlen : stamps.length * enc.elems ≤ out.length) (cursors : Cursors) :
    Answers m (plan.foldBatch g stamps enc out cursors)
      (batchOut enc (okPrefix (plan.evalAt pose) stamps) out) := by
  unfold Plan.foldBatch
  by_cases hsorted : stamps.IsChain (· ≤ ·)
  · rw [if_neg (not_not.mpr hsorted)]
    split_ifs
    · refine (batchRows_answers (fun t c => foldAtCursors_answers h t c) stamps out _ hlen).bind ?_
      exact fun c => .ret _ _
    · refine (foldChunks_answers h hr enc plan.steps _ stamps out _ rfl hlen).bind ?_
      exact fun c => .ret _ _
  · rw [if_pos hsorted]
    exact batchRows_answers (fun t c => foldAt_answers h t c) stamps out cursors hlen

theorem foldBatchWithTwist_answers (h : Reads m g.view pose twist) {out : List F}
    (hlen : stamps.length * (writeQuatTwist : Encoder (Iso3 F × Twist F) F).elems ≤ out.length)
    (cursors : Cursors) :
    Answers m (plan.foldBatchWithTwist g stamps out cursors)
      (batchOut writeQuatTwist (okPrefix (plan.evalTwistAt twist) stamps) out) := by
  unfold Plan.foldBatchWithTwist
  split_ifs
  · refine (batchRows_answers (fun t c => foldAtWithDerivativesCursors_answers h t c) stamps out _
      hlen).bind ?_
    exact fun c => .ret _ _
  · refine (batchRows_answers (fun t _ => foldAtWithDerivatives_answers h t) stamps out _
      hlen).bind ?_
    exact fun c => .ret _ _

omit [Kernels F] in
/-- The checks of a batch lookup are those of the single lookup. -/
theorem batch_outcome {V T : Type} {enc : Encoder V T} {f : ℤ → Except LookupError V}
    {domain need : ℕ} {out : List T} {cursors : Cursors}
    {loop : RingProg F ((Except LookupError Unit × List T) × Cursors)}
    (hlen : need ≤ out.length → stamps.length * enc.elems ≤ out.length)
    (hloop : stamps.length * enc.elems ≤ out.length →
      Answers m loop (batchOut enc (okPrefix f stamps) out)) :
    ∃ res out', Answers m (plan.batch g domain need out cursors loop) (res, out') ∧
      BatchOutcome enc (fun t => plan.check g domain >>= fun _ => f t) stamps need out res
        out' := by
  unfold Plan.batch
  by_cases hneed : out.length < need
  · rw [if_pos hneed]
    exact ⟨_, _, .ret _ _, .tooSmall hneed⟩
  · rw [if_neg hneed]
    have hneed := not_lt.mp hneed
    cases hcheck : plan.check g domain with
    | ok u => exact ⟨_, _, hloop (hlen hneed), batchOut_outcome hneed (hlen hneed)⟩
    | error e =>
      refine ⟨_, _, .ret _ _, ?_⟩
      cases stamps with
      | nil => exact .refused hneed rfl fun t => rfl
      | cons t ts => exact .failed (n := 0) hneed rfl rfl ⟨rfl, fun j hj => by omega, rfl⟩

/-- **Main theorem.** The batch lookups against the single ones, for every list of
    stamps and every layout: rows and errors agree stamp by stamp. -/
theorem batch_agrees (plan : Plan (Iso3 F)) (g : Guard) (hr : ∀ edge, g.view.Readable m edge)
    (domain : ℕ) (stamps : List ℤ) {F32 : Type} (narrow : F → F32) :
    ∃ single twist,
      (∀ t cursors, Answers m (plan.atTagged g t domain cursors) (single t)) ∧
      (∀ t, Answers m (plan.atWithDerivativesTagged g t domain) (twist t)) ∧
      (∀ out cursors, ∃ res out', Answers m (plan.atMany g stamps domain out cursors) (res, out') ∧
        BatchOutcome poseRow single stamps stamps.length out res out') ∧
      (∀ layout out cursors, out.length < 2 ^ 63 → ∃ res out',
        Answers m (plan.atManyIntoTagged g stamps domain layout out cursors) (res, out') ∧
        match layout with
        | .mat4 => BatchOutcome writeMat4 single stamps (Plan.need stamps layout) out res out'
        | .quat => BatchOutcome writeQuat single stamps (Plan.need stamps layout) out res out'
        | .quatTwist =>
          BatchOutcome writeQuatTwist twist stamps (Plan.need stamps layout) out res out'
        | .affine32 => res = .error .wrongElementType ∧ out' = out) ∧
      (∀ layout out cursors, out.length < 2 ^ 63 → ∃ res out',
        Answers m (plan.atManyIntoF32Tagged g narrow stamps domain layout out cursors) (res, out') ∧
        match layout with
        | .affine32 =>
          BatchOutcome (writeAffine32 narrow) single stamps (Plan.need stamps layout) out
            res out'
        | _ => res = .error .wrongElementType ∧ out' = out) := by
  obtain ⟨pose, twist, h⟩ := exists_reads hr
  have hsat : ∀ {layout : Layout} {len : ℕ}, len < 2 ^ 63 → Plan.need stamps layout ≤ len →
      stamps.length * layout.elems ≤ len := by
    intro layout len hlen hneed
    unfold Plan.need at hneed
    omega
  refine ⟨_, _, fun t => atTagged_answers h t domain,
    fun t => atWithDerivativesTagged_answers h t domain, fun out cursors => ?_,
    fun layout out cursors hout => ?_, fun layout out cursors hout => ?_⟩
  · refine batch_outcome (fun hneed => ?_) fun hlen => foldBatch_answers h hr hlen cursors
    show stamps.length * 1 ≤ out.length
    omega
  · unfold Plan.atManyIntoTagged
    cases layout with
    | mat4 => exact batch_outcome (hsat hout) fun hlen => foldBatch_answers h hr hlen cursors
    | quat => exact batch_outcome (hsat hout) fun hlen => foldBatch_answers h hr hlen cursors
    | quatTwist =>
      exact batch_outcome (hsat hout) fun hlen => foldBatchWithTwist_answers h hlen cursors
    | affine32 => exact ⟨_, _, .ret _ _, rfl, rfl⟩
  · unfold Plan.atManyIntoF32Tagged
    cases layout with
    | affine32 => exact batch_outcome (hsat hout) fun hlen => foldBatch_answers h hr hlen cursors
    | mat4 => exact ⟨_, _, .ret _ _, rfl, rfl⟩
    | quat => exact ⟨_, _, .ret _ _, rfl, rfl⟩
    | quatTwist => exact ⟨_, _, .ret _ _, rfl, rfl⟩

/-- One dynamic edge of time domain `5`, over the lapped ring. -/
def lappedPlan : Plan (Iso3 ℚ) where
  generation := 1
  steps := [.static 1, .dyn 7 false]
  domain := 5
  dynCount := 1
  firstDyn := 7
  steps_le := by decide

/-- Its guard: edge `7` has a ring of four slots, no other edge has one. -/
def lappedGuard : Guard where
  view := ⟨fun edge => if edge = 7 then some (0, 4) else none⟩
  generation := 1

theorem lappedGuard_readable (edge : EdgeId) : lappedGuard.view.Readable lappedRing edge := by
  intro interp ring h
  by_cases he : edge = 7
  · subst he
    cases h
    exact ⟨by decide, by decide, by decide⟩
  · unfold ArenaView.sampler lappedGuard at h
    simp only [if_neg he] at h
    cases h

theorem batch_agrees_lapped :
    ∃ single : ℤ → Except LookupError (Iso3 ℚ),
      (∀ t cursors, Answers lappedRing (lappedPlan.atTagged lappedGuard t 5 cursors) (single t)) ∧
      ∃ res out', Answers lappedRing
          (lappedPlan.atMany lappedGuard [30, 45, 45, 99] 5 [1, 1, 1, 1, 1] fun _ => 0)
          (res, out') ∧
        BatchOutcome poseRow single [30, 45, 45, 99] 4 [1, 1, 1, 1, 1] res out' := by
  obtain ⟨single, -, hat, -, hmany, -⟩ := batch_agrees lappedPlan lappedGuard lappedGuard_readable 5
    [30, 45, 45, 99] (id : ℚ → ℚ)
  exact ⟨single, hat, hmany [1, 1, 1, 1, 1] fun _ => 0⟩

/-- Two failures of a batch at no failing stamp: an empty batch under the wrong time
    domain, and a buffer without a row for its stamp. -/
theorem batch_fails_without_failing_stamp :
    (∃ e, Answers lappedRing (lappedPlan.atMany lappedGuard [] 3 [] fun _ => 0) (.error e, []) ∧
      ¬ ∃ t ∈ ([] : List ℤ),
        Answers lappedRing (lappedPlan.atTagged lappedGuard t 3 fun _ => 0) (.error e)) ∧
    (∃ e, Answers lappedRing ((Plan.identity 1).atMany lappedGuard [0] 5 [] fun _ => 0)
        (.error e, []) ∧
      ¬ ∃ t ∈ ([0] : List ℤ),
        Answers lappedRing ((Plan.identity 1).atTagged lappedGuard t 5 fun _ => 0) (.error e)) := by
  refine ⟨⟨.timeDomainMismatch 5 3, ⟨fun _ => 0, rfl⟩, ?_⟩,
    ⟨.bufferTooSmall 1 0, ⟨fun _ => 0, rfl⟩, ?_⟩⟩
  · rintro ⟨t, ht, -⟩
    cases ht
  · rintro ⟨t, -, c, hc⟩
    cases hc

end Batch

end TfTree
