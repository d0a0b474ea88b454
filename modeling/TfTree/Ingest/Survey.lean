import Mathlib
import TfTree.Bridge.Clock
import TfTree.Bridge.Statics
import TfTree.Data.Keyed
import TfTree.Ingest.Callback

/-!
# Pass one: the survey

`survey` of `tf_tree_ingest/src/ingest.rs`: one read of the recording that discovers the frames
and the edges, counts the samples of each edge, and refuses a recording whose edges change
their kind or whose clocks step back.

The vectors `edges`, `clocks` and `dynamic_seen` grow together and are one list of rows here.
Ids and counters are `ℕ`.
-/

namespace TfTree.Offline

open Data Mcap Bridge

/-! ## Options -/

/-- `ClockResetPolicy`. -/
inductive ClockResetPolicy where
  | halt
  | split
  deriving DecidableEq, Repr

/-- `IngestOptions`, without the directory of the spill file. -/
structure IngestOptions where
  roles : TopicRoles
  maxMemoryBytes : UInt64
  onClockReset : ClockResetPolicy
  onBadChunk : OnBadChunk
  clockResetThresholdNs : ℤ
  futureHorizonNs : ℤ
  tfPrefix : Option String
  maxChunkUncompressedBytes : UInt64
  maxRecordBytes : UInt64
  maxChunkExpansionRatio : UInt64

namespace IngestOptions

/-- `IngestOptions::default` (lines 123–139). -/
def default : IngestOptions where
  roles := ⟨[], []⟩
  maxMemoryBytes := 4 * 1024 * 1024 * 1024
  onClockReset := .halt
  onBadChunk := .skip
  clockResetThresholdNs := 100000000
  futureHorizonNs := 10000000000
  tfPrefix := none
  maxChunkUncompressedBytes := 64 * 1024 * 1024
  maxRecordBytes := 256 * 1024 * 1024
  maxChunkExpansionRatio := 1024

/-- `read_policy` and `chunk_limits` (lines 142–159). -/
def readPolicy (opts : IngestOptions) : ReadPolicy where
  onBad := opts.onBadChunk
  limits := ⟨opts.maxChunkUncompressedBytes, opts.maxChunkExpansionRatio⟩
  maxRecordBytes := opts.maxRecordBytes

/-- The normalizer of a pass (lines 351–354). -/
def normalizer (opts : IngestOptions) : NameNormalizer :=
  match opts.tfPrefix with
  | some p => .withPrefix p
  | none => .new

end IngestOptions

/-! ## Frames -/

/-- `Frames` (lines 153–156). -/
structure Frames where
  names : List String
  index : String → Option ℕ

namespace Frames

/-- `Frames::default`. -/
def default : Frames := ⟨[], fun _ => none⟩

/-- `Frames::intern` (lines 160–168). -/
def intern (f : Frames) (name : String) : ℕ × Frames :=
  match f.index name with
  | some i => (i, f)
  | none =>
    let i := f.names.length
    (i, ⟨f.names ++ [name], Function.update f.index name (some i)⟩)

/-- `Frames::id` (lines 173–175). -/
def id (f : Frames) (name : String) : Option ℕ := f.index name

/-- `Frames::name` (lines 179–181). -/
def name (f : Frames) (id : ℕ) : String := f.names.getD id "?"

end Frames

/-! ## Rows -/

/-- The frames of an edge; `EdgeKey`. -/
abbrev EdgeKey := ℕ × ℕ

/-- `EdgeSurvey` (lines 204–221), without the frames, with the clock of the edge and whether a
dynamic sample was seen. -/
structure SurveyRow (F : Type) where
  topic : String
  staticPose : Option (Fin 7 → F)
  samples : ℕ
  sourceOldestNs : Option ℤ
  sourceNewestNs : Option ℤ
  clock : ClockGuard
  dynamicSeen : Bool

/-- `StaticConflict` (lines 234–248). -/
structure StaticConflict (F : Type) where
  edge : EdgeKey
  existing : PoseWords F
  offered : PoseWords F
  declaredBy : String
  contradictedBy : String

/-- The fields of `Anomalies` that the callback counts. -/
structure Anomalies where
  zeroStampDrops : ℕ
  futureStamps : ℕ
  worstFutureOffsetNs : ℤ
  outOfOrder : ℕ
  staticConflicts : ℕ
  emptyNames : ℕ
  deriving DecidableEq

/-- `Anomalies::default`. -/
def Anomalies.default : Anomalies := ⟨0, 0, 0, 0, 0, 0⟩

/-- The errors of the callback. -/
inductive SurveyError where
  | edgeKindChanged (edge : EdgeKey) (stampNs : ℤ)
  | clockReset (edge : EdgeKey) (atNs atLogTimeNs byNs : ℤ)
  | clockResetSplitUnsupported
  deriving DecidableEq, Repr

/-- `publisher_label` (lines 524–529); another publisher is rendered by `Debug`. -/
def publisherLabel : Publisher → Option String
  | .topic t => some t
  | _ => none

/-- `StaticStore::observe_static` (`statics.rs`, lines 119–128). -/
def observeStatic {F : Type} [Floats F] (s : StaticStore F) (parent child : String)
    (pose : PoseWords F) (publisher : Publisher) : Option (StaticVerdict F × StaticStore F) := do
  let (slot, s) ← s.slotOrInsert parent child .static
  s.observeStaticAt slot pose publisher

variable {F : Type}

/-- A row as it is pushed (lines 378–392). -/
def SurveyRow.fresh (opts : IngestOptions) (topic : String) : SurveyRow F where
  topic := topic
  staticPose := none
  samples := 0
  sourceOldestNs := none
  sourceNewestNs := none
  clock := .withThreshold .halt opts.clockResetThresholdNs
  dynamicSeen := false

/-- The count of a sample and the ends of the stamps (lines 483–492). -/
def SurveyRow.count (row : SurveyRow F) (stamp : ℤ) : SurveyRow F where
  __ := row
  samples := row.samples + 1
  sourceOldestNs := some (match row.sourceOldestNs with
    | some v => min v stamp
    | none => stamp)
  sourceNewestNs := some (match row.sourceNewestNs with
    | some v => max v stamp
    | none => stamp)

/-- How a dynamic sample is refused. -/
inductive DynamicFault where
  | kindChanged
  | clockReset (byNs : ℤ)
  deriving DecidableEq, Repr

/-- A dynamic sample on its row (lines 440–493). -/
def SurveyRow.observeDynamic (opts : IngestOptions) (row : SurveyRow F) (rec : RawRecord F)
    (anomalies : Anomalies) : Except DynamicFault (SurveyRow F × Anomalies) :=
  if row.staticPose.isSome then .error .kindChanged
  else
    let row := { row with dynamicSeen := true }
    let stamp := rec.stampNs.toInt
    if stamp = 0 then
      .ok (row, { anomalies with zeroStampDrops := anomalies.zeroStampDrops + 1 })
    else
      let ahead := satSub stamp rec.logTimeNs
      let anomalies :=
        if ahead > opts.futureHorizonNs then { anomalies with
          futureStamps := anomalies.futureStamps + 1
          worstFutureOffsetNs := max anomalies.worstFutureOffsetNs ahead }
        else anomalies
      match row.clock.observe stamp with
      | (.forward, clock) => .ok ({ row with clock := clock }.count stamp, anomalies)
      | (.jitter _, clock) => .ok ({ row with clock := clock }.count stamp,
          { anomalies with outOfOrder := anomalies.outOfOrder + 1 })
      | (.reset byNanos _, _) => .error (.clockReset byNanos)

/-! ## The pass -/

/-- The variables of the callback of `survey`. -/
structure Pass (F : Type) where
  normalizer : NameNormalizer
  frames : Frames
  statics : StaticStore F
  index : EdgeKey → Option ℕ
  edges : List (EdgeKey × SurveyRow F)
  anomalies : Anomalies
  staticConflictDetails : List (StaticConflict F)
  transformsRead : ℕ

/-- The variables at the start (lines 351–365), with frames that the caller gives. -/
def Pass.init (opts : IngestOptions) (frames : Frames) : Pass F where
  normalizer := opts.normalizer
  frames := frames
  statics := .withCapacity 0
  index := fun _ => none
  edges := []
  anomalies := .default
  staticConflictDetails := []
  transformsRead := 0

/-- `normalize_pair` (lines 533–541). -/
def normalizePair (normalizer : NameNormalizer) (rec : RawRecord F) (frames : Frames) :
    Option EdgeKey × NameNormalizer × Frames :=
  match normalizer.normalize rec.parent with
  | (none, normalizer) => (none, normalizer, frames)
  | (some parent, normalizer) =>
    match normalizer.normalize rec.child with
    | (none, normalizer) => (none, normalizer, frames)
    | (some child, normalizer) =>
      let (p, frames) := frames.intern parent.name
      let (c, frames) := frames.intern child.name
      (some (p, c), normalizer, frames)

namespace Pass

/-- The slot of an edge, with a new row where it is not known (lines 373–397). -/
def slotOf (opts : IngestOptions) (st : Pass F) (key : EdgeKey) (topic : String) : ℕ × Pass F :=
  match st.index key with
  | some s => (s, st)
  | none =>
    let s := st.edges.length
    (s, { st with
      edges := st.edges ++ [(key, .fresh opts topic)]
      index := Function.update st.index key (some s) })

/-- A static sample (lines 399–437). -/
def observeStatic [Floats F] (st : Pass F) (slot : ℕ) (key : EdgeKey) (rec : RawRecord F) :
    Except (Stop SurveyError) (Pass F) :=
  match st.edges[slot]? with
  | none => .error .panic
  | some (frames, row) =>
    if row.dynamicSeen then .error (.error (.edgeKindChanged key rec.stampNs.toInt))
    else
      match Offline.observeStatic st.statics (st.frames.name key.1) (st.frames.name key.2)
          (Vector.ofFn rec.pose) (.topic rec.topic) with
      | none => .error .panic
      | some (.declare, statics) => .ok { st with
          statics := statics
          edges := st.edges.set slot (frames, { row with staticPose := some rec.pose }) }
      | some (.idempotent, statics) => .ok { st with statics := statics }
      | some (.conflict owner intruder existing offered firstTime, statics) =>
        .ok { st with
          statics := statics
          anomalies.staticConflicts := st.anomalies.staticConflicts + 1
          staticConflictDetails :=
            if firstTime then st.staticConflictDetails ++ [⟨key, existing, offered,
              (publisherLabel owner).getD "", (publisherLabel intruder).getD ""⟩]
            else st.staticConflictDetails }
      | some (.kindChanged _, _) => .error (.error (.edgeKindChanged key rec.stampNs.toInt))

/-- A dynamic sample (lines 440–493). -/
def observeDynamic (opts : IngestOptions) (st : Pass F) (slot : ℕ) (key : EdgeKey)
    (rec : RawRecord F) : Except (Stop SurveyError) (Pass F) :=
  match st.edges[slot]? with
  | none => .error .panic
  | some (frames, row) =>
    match row.observeDynamic opts rec st.anomalies with
    | .error .kindChanged => .error (.error (.edgeKindChanged key rec.stampNs.toInt))
    | .error (.clockReset byNs) =>
      match opts.onClockReset with
      | .halt => .error (.error (.clockReset key rec.stampNs.toInt rec.logTimeNs byNs))
      | .split => .error (.error .clockResetSplitUnsupported)
    | .ok (row, anomalies) =>
      .ok { st with edges := st.edges.set slot (frames, row), anomalies := anomalies }

/-- The callback (lines 367–494). -/
def step [Floats F] (opts : IngestOptions) (st : Pass F) (rec : RawRecord F) :
    Except (Stop SurveyError) (Pass F) :=
  let st := { st with transformsRead := st.transformsRead + 1 }
  match normalizePair st.normalizer rec st.frames with
  | (none, normalizer, frames) =>
    .ok { st with
      normalizer := normalizer
      frames := frames
      anomalies.emptyNames := st.anomalies.emptyNames + 1 }
  | (some key, normalizer, frames) =>
    let (slot, st) :=
      { st with normalizer := normalizer, frames := frames }.slotOf opts key rec.topic
    if rec.isStatic then st.observeStatic slot key rec
    else st.observeDynamic opts slot key rec

end Pass

/-- `IngestError`, as `survey` returns it. -/
inductive SurveyFailure where
  | read (e : ReadError (Stop SurveyError))
  | allChunksOverLimit (skipped : ℕ)
  | truncatedBeforeAnyChunk
  | noTransforms

/-- `Survey` (lines 301–312): the variables at the end, and the counts of the reader. -/
structure Survey (F : Type) extends Pass F where
  skips : SkipCounts

namespace Survey

/-- `stripped_slash_names`. -/
def strippedSlashNames (s : Survey F) : ℕ := s.normalizer.stripped

/-- `remaps`. -/
def remaps (s : Survey F) : List (String × String) := s.normalizer.remaps

/-- `edges_without_samples` (lines 317–324). -/
def edgesWithoutSamples (s : Survey F) : List ℕ :=
  (s.edges.zipIdx.filter fun e => e.1.2.staticPose.isNone && e.1.2.samples == 0).map Prod.snd

/-- `span_ns` (lines 328–332). -/
def spanNs (s : Survey F) : Option (ℤ × ℤ) := do
  let lo ← (s.edges.filterMap fun e => e.2.sourceOldestNs).min?
  let hi ← (s.edges.filterMap fun e => e.2.sourceNewestNs).max?
  return (lo, hi)

end Survey

/-- `survey` (lines 346–520), with frames that the caller gives. -/
def survey [LeBytes F] [Floats F] (crates : Crates) (opts : IngestOptions) (frames : Frames)
    (file : List UInt8) : Except SurveyFailure (Survey F) :=
  match readTfWith crates opts.roles opts.readPolicy file (Pass.step opts) (.init opts frames) with
  | .error e => .error (.read e)
  | .ok (skips, st) =>
    if st.edges = [] then
      .error <|
        if skips.chunksOverLimit > 0 then .allChunksOverLimit skips.chunksOverLimit
        else if skips.truncated then .truncatedBeforeAnyChunk
        else .noTransforms
    else .ok ⟨st, skips⟩

end TfTree.Offline
