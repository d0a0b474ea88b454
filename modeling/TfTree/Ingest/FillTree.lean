import Mathlib
import TfTree.Math.Screw
import TfTree.Ingest.Fill
import TfTree.Ingest.Groups
import TfTree.Ingest.Surveyed
import TfTree.Tree.Writer

/-!
# Pass two: the fill

`fill` of `tf_tree_ingest/src/ingest.rs`: the tree of a survey, and the reads of the recording
that push the samples of its edges, for each group of edges one. The recording is the one of
pass one, and what is written to a spill file is read back: the failures of the file system
are left out.
-/

namespace TfTree.Offline

open Data Mcap Bridge

/-- What the two passes do with an `f64`. -/
class Doubles (F : Type) extends Floats F, Libm F

variable {F : Type}

/-! ## The tree -/

/-- `iso_from_canonical` (lines 918–923). -/
def isoFromCanonical [Libm F] (p : Fin 7 → F) : Iso3 F :=
  ⟨Quat.normalize ⟨p 0, p 1, p 2, p 3⟩, ⟨p 4, p 5, p 6⟩⟩

/-- `clamp_u32` (lines 926–928). -/
def clampU32 (v : ℕ) : ℕ := min v (2 ^ 32 - 1)

/-- The names of the edge of a slot. -/
def namesAt (s : Survey F) (i : ℕ) : WithBot (Lex (String × String)) :=
  s.edges[i]?.map fun e => toLex (s.frames.edge e.1)

/-- `canonical_order` (lines 905–913). -/
def canonicalOrder (s : Survey F) : List ℕ :=
  (List.range s.edges.length).mergeSort (keyLe (namesAt s))

/-- The declaration of an edge (lines 606–610). -/
def declOf [Libm F] (s : Survey F) (e : EdgeKey × SurveyRow F) : EdgeDecl F where
  parent := s.frames.name e.1.1
  child := s.frames.name e.1.2
  kind :=
    match e.2.staticPose with
    | some pose => .static (isoFromCanonical pose)
    | none => .dynamic (.ofSlots (clampU32 e.2.samples))

/-- The builder (lines 596–611). -/
def builder [Libm F] (s : Survey F) : TreeBuilder F where
  frames := s.frames.names.mergeSort (keyLe fun name => name)
  edges := (canonicalOrder s).filterMap fun i => s.edges[i]?.map (declOf s)

/-- The edges as `plan_groups` reads them. -/
def planned (s : Survey F) : List (EdgeSurvey F) :=
  s.edges.map fun e => ⟨e.2.staticPose, UInt64.ofNat e.2.samples⟩

/-- `index` (lines 615–620). -/
def indexOf (s : Survey F) : EdgeKey → Option ℕ :=
  s.edges.zipIdx.foldl (fun index e => Function.update index e.1.1 (some e.2)) fun _ => none

/-! ## The reads -/

/-- The sample of a record. -/
def sampleOf (rec : RawRecord F) : Sample F := ⟨rec.stampNs, rec.pose⟩

/-- The frames of a sample, and its edge (lines 634–643 and 800–809). -/
def lookup (frames : Frames) (normalizer : NameNormalizer) (rec : RawRecord F) :
    Option EdgeKey × NameNormalizer :=
  if rec.isStatic ∨ rec.stampNs = 0 then (none, normalizer)
  else
    let (p, normalizer) := normalizer.normalize rec.parent
    let (c, normalizer) := normalizer.normalize rec.child
    (do
      let p ← p
      let c ← c
      let pi ← frames.id p.name
      let ci ← frames.id c.name
      return (pi, ci), normalizer)

/-- The variables of the read for a group in memory. -/
structure Gather (F : Type) where
  normalizer : NameNormalizer
  buffers : ℕ → Option (List (Sample F))

/-- The callback for a group in memory (lines 633–648). -/
def Gather.step (s : Survey F) (st : Gather F) (rec : RawRecord F) : Gather F :=
  let (key, normalizer) := lookup s.frames st.normalizer rec
  match key.bind (indexOf s) with
  | none => { st with normalizer := normalizer }
  | some slot =>
    match st.buffers slot with
    | none => { st with normalizer := normalizer }
    | some buf => ⟨normalizer, Function.update st.buffers slot (some (buf ++ [sampleOf rec]))⟩

/-- The variables of the read for an edge that is spilled. -/
structure Scatter (F : Type) where
  normalizer : NameNormalizer
  runs : RunFile
  buf : List (Sample F)

/-- The callback for an edge that is spilled (lines 799–818). -/
def Scatter.step [LeBytes F] (s : Survey F) (plan : SpillPlan) (want : EdgeKey)
    (st : Scatter F) (rec : RawRecord F) : Scatter F :=
  let (key, normalizer) := lookup s.frames st.normalizer rec
  if key = some want then
    let (runs, buf) := spillSample plan (st.runs, st.buf) (sampleOf rec)
    ⟨normalizer, runs, buf⟩
  else { st with normalizer := normalizer }

/-! ## The pushes -/

/-- `IngestError`, as `fill` returns it. The callbacks of both passes have one error type. -/
inductive FillError where
  | build (e : BuildError)
  | read (e : ReadError (Stop SurveyError))
  | frameLost (frame : ℕ)
  | claim (e : ClaimApiError)
  | edge (e : IngestError)

/-- A part of `fill`: `none` when it panics, or waits for ever. -/
abbrev FillM (α : Type) := ExceptT FillError Option α

/-- The tree with the writer of an edge, and how many pushes there were. -/
structure Feed (F : Type) where
  tree : HeapTree F
  writer : EdgeWriter F
  calls : ℕ

/-- `writer.push(stamp, &iso_from_canonical(pose))`, with what the clock answers at each push.
A push that panics leaves `none`, to which nothing is pushed. -/
def feedSample [Libm F] (clock : ℕ → Option ℤ) (st : Option (Feed F)) (s : Sample F) :
    Except PushError (Option (Feed F)) :=
  match st with
  | none => .ok none
  | some f =>
    match f.tree.push f.writer (clock f.calls) s.ns (isoFromCanonical s.pose) with
    | none => .ok none
    | some (.error e, _) => .error e
    | some (.ok w, t) => .ok (some ⟨t, w, f.calls + 1⟩)

/-- The tree, the number of pushes so far, and `FillStats` without what it says of the spill
files. -/
structure FillState (F : Type) where
  tree : HeapTree F
  calls : ℕ
  passes : ℕ
  peakBufferBytes : ℕ
  pushed : ℕ
  duplicates : ℕ

/-- `stats.peak_buffer_bytes.max(..)`. -/
def FillState.peak (st : FillState F) (bytes : ℕ) : FillState F :=
  { st with peakBufferBytes := max st.peakBufferBytes bytes }

/-- `tree.frame(frames.name(id)).map_err(..)`. -/
def frameOf (t : HeapTree F) (fuel : ℕ) (frames : Frames) (id : ℕ) : FillM (FrameId × HeapTree F) :=
  match t.frame fuel (frames.name id) with
  | none => none
  | some (.error _) => some (.error (.frameLost id))
  | some (.ok r) => some (.ok r)

/-- The frames and the claim of an edge, its pushes, and the drop of the writer (lines 674–697
and 867–900). -/
def withWriter (fuel : ℕ) (s : Survey F) (slot : ℕ)
    (pushes : Filled (Option (Feed F)) → Except IngestError (Filled (Option (Feed F))))
    (st : FillState F) : FillM (FillState F) :=
  match s.edges[slot]? with
  | none => none
  | some (key, _) => do
    let (parent, tree) ← frameOf st.tree fuel s.frames key.1
    let (child, tree) ← frameOf tree fuel s.frames key.2
    match tree.claim child parent with
    | none => none
    | some (.error e, _) => some (.error (.claim e))
    | some (.ok w, tree) =>
      match pushes ⟨some ⟨tree, w, st.calls⟩, st.pushed, st.duplicates⟩ with
      | .error e => some (.error (.edge e))
      | .ok ⟨none, _, _⟩ => none
      | .ok ⟨some f, pushed, duplicates⟩ =>
        some (.ok { st with
          tree := f.tree.drop f.writer
          calls := f.calls
          pushed := pushed
          duplicates := duplicates })

/-! ## The groups -/

section Groups

variable [Doubles F] [LeBytes F] (crates : Crates) (opts : IngestOptions) (file : List UInt8)
  (s : Survey F) (fuel : ℕ) (clock : ℕ → Option ℤ)

/-- One turn of the loop over the buffers (lines 667–698), with `remaining`. -/
def fillBuffer (buffers : ℕ → Option (List (Sample F))) (st : FillState F × ℕ) (slot : ℕ) :
    FillM (FillState F × ℕ) := do
  let buf := (buffers slot).getD []
  let held := buf.length * SAMPLE_BYTES
  let fill ← withWriter fuel s slot (fun filled => fillInMemory (feedSample clock) filled buf)
    (st.1.peak (st.2 + held))
  return (fill, st.2 - held)

/-- A group in memory (lines 628–698). A `BTreeMap` is its entries in order. -/
def fillGroup (slots : List ℕ) (st : FillState F) : FillM (FillState F) :=
  let slots := slots.dedup.mergeSort (keyLe fun slot => slot)
  match readTfWith crates opts.roles opts.readPolicy file
      (fun st rec => (.ok (Gather.step s st rec) : Except (Stop SurveyError) (Gather F)))
      ⟨opts.normalizer, fun slot => if slot ∈ slots then some [] else none⟩ with
  | .error e => some (.error (.read e))
  | .ok (_, g) => do
    let remaining := (slots.map fun slot => ((g.buffers slot).getD []).length * SAMPLE_BYTES).sum
    let (fill, _) ← slots.foldlM (fillBuffer s fuel clock g.buffers)
      ({ st with passes := st.passes + 1 }, remaining)
    return fill

/-- What a merge of `runs` runs holds (`Merger::resident_bytes`). -/
def residentBytes (plan : SpillPlan) (runs : ℕ) : ℕ :=
  runs * plan.window runs * ENCODED + plan.window runs * ENCODED

/-- The largest buffers of the reduce passes (lines 838–842). -/
def reducePeak (F : Type) [LeBytes F] (plan : SpillPlan) (runs : RunFile) : ℕ :=
  if _hlt : plan.fanIn < runs.runs.length then
    let chunked := (chunks plan.fanIn runs.runs).map fun chunk =>
      residentBytes plan chunk.length + 2 * plan.staging
    match _h : reducePass plan F runs with
    | .error _ => chunked.foldl max 0
    | .ok next => max (chunked.foldl max 0) (reducePeak F plan next)
  else 0
termination_by runs.runs.length
decreasing_by exact reducePass_runs_lt _hlt _h

/-- The pushes of `fill_spilled` from a merge (lines 876–898). -/
def drain {σ : Type} (push : σ → Sample F → Except PushError σ) (runs : RunFile)
    (merged : Merger F runs.runs.length) (st : Filled σ) : Except IngestError (Filled σ) :=
  match merged.forEach (delayStep push) (none, st) with
  | .error e => .error e
  | .ok st => delayEnd push st

/-- `fill_spilled` (lines 770–900). -/
def fillSpilledEdge (slot : ℕ) (st : FillState F) : FillM (FillState F) :=
  match s.edges[slot]? with
  | none => none
  | some (key, _) =>
    let plan := SpillPlan.ofCap opts.maxMemoryBytes.toNat
    match readTfWith crates opts.roles opts.readPolicy file
        (fun st rec =>
          (.ok (Scatter.step s plan key st rec) : Except (Stop SurveyError) (Scatter F)))
        ⟨opts.normalizer, RunFile.create plan.staging, []⟩ with
    | .error e => some (.error (.read e))
    | .ok (_, g) =>
      let runs := if g.buf = [] then g.runs else g.runs.writeRun (sortRun g.buf)
      let st := { st with passes := st.passes + 1 }.peak
        (2 * plan.runSamples * SAMPLE_BYTES + plan.staging)
      match reduce plan F runs with
      | .error e => some (.error (.edge e))
      | .ok reduced =>
        let st := st.peak (reducePeak F plan runs)
        let n := reduced.runs.length
        match reduced.mergeRuns (F := F) reduced.runs (plan.window n) with
        | .error e => some (.error (.edge e))
        | .ok merged =>
          withWriter fuel s slot (drain (feedSample clock) reduced merged)
            (st.peak (residentBytes plan n + plan.staging))

/-- `fill` (lines 590–698): the tree, and what the fill did. -/
def fill (hash : List UInt8 → ℕ) (uuid : Vector UInt8 16) (participant : Slot) :
    FillM (FillState F) :=
  match (builder s).buildWith hash uuid fuel with
  | none => none
  | some (.error e) => some (.error (.build e))
  | some (.ok a) =>
    match planGroups (planned s) (canonicalOrder s) opts.maxMemoryBytes.toNat with
    | none => none
    | some groups =>
      groups.foldlM (fun st group =>
          match group with
          | .inMemory slots => fillGroup crates opts file s fuel clock slots st
          | .spilled slot => fillSpilledEdge crates opts file s fuel clock slot st)
        ⟨⟨a, fun _ => .new, participant⟩, 0, 0, 0, 0, 0⟩

end Groups

end TfTree.Offline
