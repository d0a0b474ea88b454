import Mathlib
import TfTree.Ingest.Chunk

/-!
# Reading an MCAP recording

`tf_tree_ingest/src/source.rs`: the walk over the top-level records of a recording, the
schema and channel bookkeeping, and the transforms that are emitted. The file is its bytes;
failures of the file system are not modelled.

Results:
* `readLoop_fuel`: the walk ends, whatever the file holds.
-/

namespace TfTree.Mcap

open Data Cdr

/-! ## Model of `source.rs` -/

/-- `TF_SCHEMAS`. -/
def TF_SCHEMAS : List String := ["tf2_msgs/msg/TFMessage", "tf2_msgs/TFMessage"]

/-- `mcap::MAGIC`. -/
def MAGIC : List UInt8 := [0x89, 0x4d, 0x43, 0x41, 0x50, 0x30, 0x0d, 0x0a]

/-- `SQLITE_MAGIC`: `b"SQLite format 3\0"`. -/
def SQLITE_MAGIC : List UInt8 :=
  [0x53, 0x51, 0x4c, 0x69, 0x74, 0x65, 0x20, 0x66, 0x6f, 0x72, 0x6d, 0x61, 0x74, 0x20, 0x33, 0x00]

/-- The opcodes of `mcap::records::op` that the reader uses. -/
def HEADER : UInt8 := 0x01

def SCHEMA : UInt8 := 0x03

def CHANNEL : UInt8 := 0x04

def MESSAGE : UInt8 := 0x05

def CHUNK : UInt8 := 0x06

def DATA_END : UInt8 := 0x0f

/-- `mcap::records::Record`, of which the reader uses three kinds. -/
inductive Record where
  | schema (id : UInt16) (name : String)
  | channel (id schemaId : UInt16) (topic messageEncoding : String)
  | message (channelId : UInt16) (logTime : UInt64) (data : List UInt8)
  | other
  deriving DecidableEq, Repr

/-- `mcap::McapError`. -/
inductive McapError where
  | unsupportedCompression
  | other
  deriving DecidableEq, Repr

/-- The other crates of the reader: the decoders of chunks, and `mcap::parse_record`. -/
structure Crates extends Codecs where
  parseRecord : UInt8 → List UInt8 → Except McapError Record

/-- `IngestError`, as the reader returns it; `ε` holds the errors of its caller. -/
inductive ReadError (ε : Type) where
  | rosbag2Sqlite
  | mcap
  | compressedChunk (codec : ChunkCodec)
  | badChunk (chunk : ℕ) (kind : BadChunkKind)
  | recordTooLarge (declared ceiling : ℕ)
  | cdr (e : Stop CdrError)
  | callback (e : ε)

/-- `TopicRoles`. -/
structure TopicRoles where
  staticTopics : List String
  dynamicTopics : List String

namespace TopicRoles

/-- `is_static` (lines 44–55). -/
def isStatic (roles : TopicRoles) (topic : String) : Bool :=
  if topic ∈ roles.staticTopics then true
  else if topic ∈ roles.dynamicTopics then false
  else if roles.staticTopics ≠ [] then false
  else (topic.toList.reverse.takeWhile (· ≠ '/')).reverse == "tf_static".toList

/-- `selects` (lines 62–68). -/
def selects (roles : TopicRoles) (topic : String) : Bool :=
  if roles.dynamicTopics = [] then true
  else topic ∈ roles.staticTopics ∨ topic ∈ roles.dynamicTopics

end TopicRoles

/-- `RawRecord`. -/
structure RawRecord (F : Type) where
  topic : String
  isStatic : Bool
  logTimeNs : ℤ
  stampNs : Int64
  parent : String
  child : String
  pose : Fin 7 → F

/-- `ChannelRole`. -/
structure ChannelRole where
  topic : String
  isStatic : Bool
  deriving DecidableEq

/-- `OnBadChunk`. -/
inductive OnBadChunk where
  | skip
  | halt
  deriving DecidableEq, Repr

/-- `ReadPolicy`. -/
structure ReadPolicy where
  onBad : OnBadChunk
  limits : ChunkLimits
  maxRecordBytes : UInt64

/-- `SkipCounts`. -/
structure SkipCounts where
  nonCdr : ℕ
  oversizedRecordsSkipped : ℕ
  filteredChannels : ℕ
  truncated : Bool
  badChunks : ℕ
  badChunkSpanNs : Option (ℕ × ℕ)
  chunksOverLimit : ℕ
  deriving DecidableEq

/-- `Bookkeeping`. -/
structure Bookkeeping where
  tfSchemaIds : Finset UInt16
  channels : UInt16 → Option ChannelRole
  seenChannels : Finset UInt16

/-- The state of a read: the bookkeeping, the counts, and the calls of the caller's
callback so far. -/
structure ReadState (F : Type) where
  book : Bookkeeping
  skips : SkipCounts
  emitted : List (RawRecord F)

/-- The state at the start. -/
def ReadState.start (F : Type) : ReadState F where
  book := ⟨∅, fun _ => none, ∅⟩
  skips := ⟨0, 0, 0, false, 0, none, 0⟩
  emitted := []

/-- `reader_needs` (lines 175–183). -/
def readerNeeds (opcode : UInt8) : Bool :=
  opcode = CHUNK ∨ opcode = SCHEMA ∨ opcode = CHANNEL ∨ opcode = MESSAGE

section Model

variable {F ε : Type} [LeBytes F] (crates : Crates) (roles : TopicRoles)
  (verdict : List (RawRecord F) → RawRecord F → Except ε Unit)

/-- One call of the callback; what it answers may depend on the calls before. -/
def emit (rec : RawRecord F) (st : ReadState F) : Except (ReadError ε) Unit × ReadState F :=
  ((verdict st.emitted rec).mapError .callback, { st with emitted := st.emitted ++ [rec] })

/-- The loop over the transforms of a message (lines 531–541). -/
def emitAll : List (RawRecord F) → ReadState F → Except (ReadError ε) Unit × ReadState F
  | [], st => (.ok (), st)
  | rec :: recs, st => andThen (emit verdict rec st) (emitAll recs)

/-- What a message makes of a transform (lines 532–540). -/
def rawRecord (role : ChannelRole) (logTime : UInt64) (t : TransformStamped F) : RawRecord F where
  topic := role.topic
  isStatic := role.isStatic
  logTimeNs := min (logTime.toNat : ℤ) (2 ^ 63 - 1)
  stampNs := t.stampNs
  parent := t.frameId
  child := t.childFrameId
  pose := t.pose

/-- `handle_record` (lines 486–547). -/
def handleRecord (rec : Record) (st : ReadState F) : Except (ReadError ε) Unit × ReadState F :=
  match rec with
  | .schema id name =>
    if name ∈ TF_SCHEMAS then
      (.ok (), { st with book.tfSchemaIds := insert id st.book.tfSchemaIds })
    else (.ok (), st)
  | .channel id schemaId topic messageEncoding =>
    if schemaId ∉ st.book.tfSchemaIds then (.ok (), st)
    else if id ∈ st.book.seenChannels then (.ok (), st)
    else
      let st := { st with book.seenChannels := insert id st.book.seenChannels }
      if !roles.selects topic then
        (.ok (), { st with skips.filteredChannels := st.skips.filteredChannels + 1 })
      else if messageEncoding ≠ "cdr" then
        (.ok (), { st with skips.nonCdr := st.skips.nonCdr + 1 })
      else
        let role : ChannelRole := ⟨topic, roles.isStatic topic⟩
        let channels := Function.update st.book.channels id (some role)
        (.ok (), { st with book.channels := channels })
  | .message channelId logTime data =>
    match st.book.channels channelId with
    | none => (.ok (), st)
    | some role =>
      match decodeTfMessage data with
      | .error e => (.error (.cdr e), st)
      | .ok ts => emitAll verdict (ts.map (rawRecord role logTime)) st
  | .other => (.ok (), st)

/-- `map_mcap` (lines 551–558). -/
def mapMcap : McapError → ReadError ε
  | .unsupportedCompression => .compressedChunk .other
  | .other => .mcap

/-- `mcap::parse_record` and `handle_record`, on one record. -/
def handle : Handler (ReadState F) (ReadError ε) := fun opcode body st =>
  match crates.parseRecord opcode body with
  | .error e => (.error (mapMcap e), st)
  | .ok rec => handleRecord roles verdict rec st

/-- `chunk_error` (lines 461–470). -/
def chunkError (fault : ChunkFault (ReadError ε)) (ordinal : ℕ) : ReadError ε :=
  match fault with
  | .unsupported codec => .compressedChunk codec
  | .bad kind => .badChunk ordinal kind
  | .callback e => e

/-- The fault is one of the reader's own limits (lines 441–447). -/
def overLimit : BadChunkKind → Bool
  | .implausibleSize _ | .implausibleWindow _ _ => true
  | _ => false

/-- The span of the skipped chunks with another one (lines 450–455). -/
def joinSpan : Option (ℕ × ℕ) → Option (ℕ × ℕ) → Option (ℕ × ℕ)
  | old, none => old
  | none, some new => some new
  | some (a, b), some (lo, hi) => some (min a lo, max b hi)

/-- The counts of a skipped chunk (lines 440–455). -/
def noteBad (kind : BadChunkKind) (span : Option (ℕ × ℕ)) (skips : SkipCounts) : SkipCounts where
  __ := skips
  badChunks := skips.badChunks + 1
  chunksOverLimit := skips.chunksOverLimit + if overLimit kind then 1 else 0
  badChunkSpanNs := joinSpan skips.badChunkSpanNs span

/-- `note_or_fail` (lines 429–457). -/
def noteOrFail (fault : ChunkFault (ReadError ε)) (ordinal : ℕ) (onBad : OnBadChunk)
    (span : Option (ℕ × ℕ)) (st : ReadState F) : Except (ReadError ε) Unit × ReadState F :=
  match fault, onBad with
  | .bad kind, .skip => (.ok (), { st with skips := noteBad kind span st.skips })
  | fault, _ => (.error (chunkError fault ordinal), st)

/-- `read_chunk` (lines 394–423). -/
def readChunk (policy : ReadPolicy) (body : List UInt8) (complete : Bool) (ordinal : ℕ)
    (st : ReadState F) : Except (ReadError ε) Unit × ReadState F :=
  let span := chunkSpan body
  match chunkRecords crates.toCodecs policy.limits body complete with
  | .error fault => noteOrFail fault ordinal policy.onBad span st
  | .ok records =>
    match forEachRecord (!complete) (handle crates roles verdict) records.length 0 records st with
    | (.ok (), st) => (.ok (), st)
    | (.error fault, st) => noteOrFail fault ordinal policy.onBad span st

/-- `resyncs_here` (lines 365–388). -/
def resyncsHere (rest : List UInt8) (fileLen : ℕ) : Bool :=
  let head := rest.take frameHeader
  if head.length = 0 then true
  else if head.length = MAGIC.length ∧ head = MAGIC then true
  else if head.length = frameHeader then
    HEADER ≤ head.headD 0 ∧ head.headD 0 ≤ DATA_END ∧ frameLen rest ≤ fileLen
  else false

/-- What `read_tf` does with a body (lines 311–328). -/
def readBody (policy : ReadPolicy) (opcode : UInt8) (body : List UInt8) (complete : Bool)
    (ordinal : ℕ) (st : ReadState F) : Except (ReadError ε) Unit × ReadState F :=
  if opcode = CHUNK then readChunk crates roles verdict policy body complete ordinal st
  else if complete then handle crates roles verdict opcode body st
  else (.ok (), st)

/-- The loop of `read_tf` (lines 246–333), in front of the bytes `rest` of the file. -/
def readLoop (policy : ReadPolicy) (fileLen : ℕ) :
    (fuel ordinal : ℕ) → List UInt8 → ReadState F → Except (ReadError ε) Unit × ReadState F
  | 0, _, _, st => (.ok (), st)
  | fuel + 1, ordinal, rest, st =>
    let header := rest.take frameHeader
    if header.length = 0 then (.ok (), st)
    else if header.length = MAGIC.length ∧ header = MAGIC then (.ok (), st)
    else if header.length < frameHeader then
      (.ok (), { st with skips.truncated := true })
    else
      let opcode := rest.headD 0
      let declared := frameLen rest
      let rest := rest.drop frameHeader
      if declared > policy.maxRecordBytes.toNat then
        if readerNeeds opcode then
          (.error (.recordTooLarge declared policy.maxRecordBytes.toNat), st)
        else if declared > rest.length then
          -- `skip_body` found the end of the file inside the record
          (.ok (), { st with skips.truncated := true })
        else if !resyncsHere (rest.drop declared) fileLen then
          (.error (.recordTooLarge declared policy.maxRecordBytes.toNat), st)
        else
          readLoop policy fileLen fuel ordinal (rest.drop declared)
            { st with skips.oversizedRecordsSkipped := st.skips.oversizedRecordsSkipped + 1 }
      else
        let body := rest.take (min declared fileLen)
        let complete := decide (body.length = declared)
        let st := if complete then st else { st with skips.truncated := true }
        andThen (readBody crates roles verdict policy opcode body complete ordinal st) fun st =>
          if complete then
            let ordinal := if opcode = CHUNK then ordinal + 1 else ordinal
            readLoop policy fileLen fuel ordinal (rest.drop declared) st
          else (.ok (), st)

/-- `read_tf` (lines 210–335). -/
def readTf (policy : ReadPolicy) (file : List UInt8) : Except (ReadError ε) Unit × ReadState F :=
  if SQLITE_MAGIC.isPrefixOf file then (.error .rosbag2Sqlite, .start F)
  else if file.take MAGIC.length ≠ MAGIC then (.error .mcap, .start F)
  else
    let rest := file.drop MAGIC.length
    readLoop crates roles verdict policy file.length (rest.length + 1) 0 rest (.start F)

end Model

section Fuel

variable {F ε : Type} [LeBytes F] {crates : Crates} {roles : TopicRoles}
  {verdict : List (RawRecord F) → RawRecord F → Except ε Unit} {policy : ReadPolicy}

/-- The walk ends: every turn passes at least the header of a record, so that fuel for the
bytes in front of it is fuel for all turns. -/
theorem readLoop_fuel {fileLen fuel ordinal : ℕ} {rest : List UInt8} {st : ReadState F}
    (h : rest.length < fuel) :
    readLoop crates roles verdict policy fileLen (fuel + 1) ordinal rest st =
      readLoop crates roles verdict policy fileLen fuel ordinal rest st := by
  induction fuel generalizing ordinal rest st with
  | zero => cases h
  | succ fuel ih =>
    have hnext : ∀ n, ¬ (rest.take frameHeader).length < frameHeader →
        ((rest.drop frameHeader).drop n).length < fuel := by
      intro n hlen
      rw [List.length_take] at hlen
      rw [List.length_drop, List.length_drop]
      unfold frameHeader at hlen ⊢
      omega
    rw [readLoop, readLoop]
    dsimp only
    by_cases hshort : (rest.take frameHeader).length < frameHeader
    · simp only [if_pos hshort]
    · simp only [if_neg hshort, ih (hnext _ hshort)]

end Fuel

end TfTree.Mcap
