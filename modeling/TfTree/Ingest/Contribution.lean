import Mathlib
import TfTree.Ingest.Source

/-!
# What each chunk of a recording contributes

The top-level items of a recording, the records that each of them contributes, and the read
as one run over these records.

Results:
* `readChunk_skip`: a chunk under the skip policy runs its contribution and is counted if it
  is bad.
* `readLoop_items`: a read that ends well is the run over the contributions of its items.
* `readTf_contributions`: what a complete chunk contributes, and which chunks are counted.
-/

namespace TfTree.Mcap

open Data Cdr

/-! ## Items and contributions -/

/-- A top-level record as the reader takes it: a chunk, perhaps cut off by the end of the
file, or another record. -/
inductive Item where
  | record (f : Frame)
  | chunk (body : List UInt8) (complete : Bool)
  deriving DecidableEq

/-- The item of a record that the reader has the bytes `body` of. -/
def itemOf (opcode : UInt8) (body : List UInt8) (complete : Bool) : List Item :=
  if opcode = CHUNK then [.chunk body complete]
  else if complete then [.record ⟨opcode, body⟩]
  else []

/-- The items that the loop of `read_tf` meets in the bytes `rest`. -/
def topItems (policy : ReadPolicy) (fileLen : ℕ) : ℕ → List UInt8 → List Item
  | 0, _ => []
  | fuel + 1, rest =>
    let header := rest.take frameHeader
    if header.length < frameHeader then []
    else
      let declared := frameLen rest
      let next := rest.drop frameHeader
      if declared > policy.maxRecordBytes.toNat then
        if readerNeeds (rest.headD 0) ∨ declared > next.length ∨
            !resyncsHere (next.drop declared) fileLen then []
        else topItems policy fileLen fuel (next.drop declared)
      else
        let body := next.take (min declared fileLen)
        if body.length = declared then
          itemOf (rest.headD 0) body true ++ topItems policy fileLen fuel (next.drop declared)
        else itemOf (rest.headD 0) body false

/-- The items of a recording. -/
def recordingItems (policy : ReadPolicy) (file : List UInt8) : List Item :=
  let rest := file.drop MAGIC.length
  topItems policy file.length (rest.length + 1) rest

section Contribution

variable (ε : Type) (crates : Crates) (limits : ChunkLimits)

/-- The records field of a chunk, or the fault that it is refused with. -/
def chunkField (body : List UInt8) (complete : Bool) :
    Except (ChunkFault (ReadError ε)) (List UInt8) :=
  chunkRecords crates.toCodecs limits body complete

/-- The records that an item contributes: of a chunk that is not refused, all whole records
in front of the first fault. -/
def contribution : Item → List Frame
  | .record f => [f]
  | .chunk body complete =>
    match chunkField ε crates limits body complete with
    | .ok records => framesOf records
    | .error _ => []

/-- How a chunk is bad: refused, or with a fault among its records. -/
def badKind : Item → Option BadChunkKind
  | .record _ => none
  | .chunk body complete =>
    match chunkField ε crates limits body complete with
    | .ok records =>
      if tailOf records = [] ∨ !complete then none
      else some (.innerFraming (clampU32 (encodeFrames (framesOf records)).length))
    | .error (.bad kind) => some kind
    | .error _ => none

/-- The reader goes on behind the item: a chunk is refused only for being bad. -/
def Passable : Item → Prop
  | .record _ => True
  | .chunk body complete => ∀ fault, chunkField ε crates limits body complete = .error fault →
    ∃ kind, fault = .bad kind

/-- The counts behind an item: a bad chunk is noted. -/
def noteItem (item : Item) (skips : SkipCounts) : SkipCounts :=
  match item with
  | .record _ => skips
  | .chunk body complete =>
    match badKind ε crates limits (.chunk body complete) with
    | none => skips
    | some kind => noteBad kind (chunkSpan body) skips

end Contribution

section Read

variable {F ε : Type} {crates : Crates} {roles : TopicRoles}
  {verdict : List (RawRecord F) → RawRecord F → Except ε Unit} {policy : ReadPolicy}
  {st st' : ReadState F}

/-- The state without the counts that the reader keeps itself. -/
def ReadState.unmarked (st : ReadState F) : ReadState F where
  book := st.book
  skips := ⟨st.skips.nonCdr, 0, st.skips.filteredChannels, false, 0, none, 0⟩
  emitted := st.emitted

theorem noteItem_badChunks (limits : ChunkLimits) (item : Item) (skips : SkipCounts) :
    (noteItem ε crates limits item skips).badChunks =
      skips.badChunks + if (badKind ε crates limits item).isSome then 1 else 0 := by
  cases item with
  | record f => rfl
  | chunk body complete =>
    rw [noteItem]
    rcases badKind ε crates limits (.chunk body complete) with - | kind
    · rfl
    · rfl

theorem noteItem_unmarked (limits : ChunkLimits) (item : Item) (st : ReadState F) :
    ReadState.unmarked { st with skips := noteItem ε crates limits item st.skips } =
      st.unmarked := by
  cases item with
  | record f => rfl
  | chunk body complete =>
    rw [noteItem]
    rcases badKind ε crates limits (.chunk body complete) with - | kind
    · rfl
    · rfl

/-- A step that neither reads nor writes the counts of the reader. -/
def Unmarked (f : ReadState F → Except (ReadError ε) Unit × ReadState F) : Prop :=
  ∀ st, f st.unmarked = ((f st).1, (f st).2.unmarked) ∧
    (f st).2.skips.badChunks = st.skips.badChunks

/-- One step behind another, up to the first error. -/
theorem Unmarked.seq {f g : ReadState F → Except (ReadError ε) Unit × ReadState F}
    (hf : Unmarked f) (hg : Unmarked g) : Unmarked fun st => andThen (f st) g := by
  intro st
  obtain ⟨hrun, hbad⟩ := hf st
  beta_reduce
  rw [hrun]
  generalize f st = r at hbad
  rcases r with ⟨e | u, t⟩
  · exact ⟨rfl, hbad⟩
  · exact ⟨(hg t).1, (hg t).2.trans hbad⟩

theorem emitAll_unmarked (recs : List (RawRecord F)) : Unmarked (emitAll verdict recs) := by
  induction recs with
  | nil => exact fun st => ⟨rfl, rfl⟩
  | cons rec recs ih =>
    have hemit : Unmarked (emit verdict rec) := fun st => ⟨rfl, rfl⟩
    exact hemit.seq ih

variable [LeBytes F]

theorem handleRecord_unmarked (rec : Record) :
    Unmarked (handleRecord (ε := ε) roles verdict rec) := by
  intro st
  cases rec with
  | schema id name =>
    simp only [handleRecord]
    split
    · exact ⟨rfl, rfl⟩
    · exact ⟨rfl, rfl⟩
  | channel id schemaId topic messageEncoding =>
    have hbook : st.unmarked.book = st.book := rfl
    simp only [handleRecord, hbook]
    split_ifs
    all_goals exact ⟨rfl, rfl⟩
  | message channelId logTime data =>
    have hbook : st.unmarked.book = st.book := rfl
    simp only [handleRecord, hbook]
    rcases st.book.channels channelId with - | role
    · exact ⟨rfl, rfl⟩
    · rcases decodeTfMessage (F := F) data with e | ts
      · exact ⟨rfl, rfl⟩
      · exact emitAll_unmarked _ st
  | other => exact ⟨rfl, rfl⟩

theorem handle_unmarked (opcode : UInt8) (body : List UInt8) :
    Unmarked (handle crates roles verdict opcode body) := by
  intro st
  simp only [handle]
  rcases crates.parseRecord opcode body with e | rec
  · exact ⟨rfl, rfl⟩
  · exact handleRecord_unmarked rec st

theorem runAll_unmarked (fs : List Frame) :
    Unmarked (runAll (handle crates roles verdict) fs) := by
  induction fs with
  | nil => exact fun st => ⟨rfl, rfl⟩
  | cons f fs ih =>
    have hhead : Unmarked (handle crates roles verdict f.tag f.body) :=
      handle_unmarked f.tag f.body
    exact hhead.seq ih

/-- A chunk under the skip policy: either it is refused for good, or its contribution is run
and it is counted if it is bad. -/
theorem readChunk_skip (hskip : policy.onBad = .skip) {body : List UInt8} {complete : Bool}
    {ordinal : ℕ} (hread : readChunk crates roles verdict policy body complete ordinal st =
      (.ok (), st')) :
    Passable ε crates policy.limits (.chunk body complete) ∧
    ∃ t, runAll (handle crates roles verdict)
        (contribution ε crates policy.limits (.chunk body complete)) st = (.ok (), t) ∧
      st' = { t with
        skips := noteItem ε crates policy.limits (.chunk body complete) t.skips } := by
  rw [readChunk] at hread
  simp only [Passable, contribution, noteItem, badKind, chunkField]
  rcases hfield : chunkRecords (E := ReadError ε) crates.toCodecs policy.limits body complete
    with fault | records
  · rw [hfield, hskip] at hread
    cases fault with
    | unsupported codec => cases hread
    | callback e => cases hread
    | bad kind =>
      cases hread
      exact ⟨fun fault hfault => ⟨kind, (Except.error.inj hfault).symm⟩, st, rfl, rfl⟩
  · rw [hfield] at hread
    simp only [forEachRecord_eq, Nat.zero_add] at hread
    rcases hrun : runAll (handle crates roles verdict) (framesOf records) st with ⟨e | u, t⟩
    · rw [hrun] at hread
      cases hread
    · rw [hrun] at hread
      refine ⟨(fun _ hfault => nomatch hfault), t, rfl, ?_⟩
      by_cases hclean : tailOf records = [] ∨ !complete
      · simp only [if_pos hclean] at hread ⊢
        cases hread
        rfl
      · simp only [if_neg hclean, hskip] at hread ⊢
        cases hread
        rfl

/-- One body: its item is run, and counted if it is a bad chunk. -/
theorem readBody_item (hskip : policy.onBad = .skip) {opcode : UInt8} {body : List UInt8}
    {complete : Bool} {ordinal : ℕ} (hread : readBody crates roles verdict policy opcode body
      complete ordinal st = (.ok (), st')) :
    (∀ item ∈ itemOf opcode body complete, Passable ε crates policy.limits item) ∧
    runAll (handle crates roles verdict)
        ((itemOf opcode body complete).flatMap (contribution ε crates policy.limits))
        st.unmarked = (.ok (), st'.unmarked) ∧
      st'.skips.badChunks = st.skips.badChunks + (itemOf opcode body complete).countP
        fun item => (badKind ε crates policy.limits item).isSome := by
  rw [readBody] at hread
  rw [itemOf]
  by_cases hchunk : opcode = CHUNK
  · rw [if_pos hchunk] at hread ⊢
    obtain ⟨hpass, t, hrun, rfl⟩ := readChunk_skip hskip hread
    have hall : Unmarked (runAll (handle crates roles verdict)
        (contribution ε crates policy.limits (.chunk body complete))) := runAll_unmarked _
    have hkeep := hall st
    rw [hrun] at hkeep
    rw [List.flatMap_singleton, List.countP_singleton, noteItem_unmarked, ← hkeep.2]
    refine ⟨fun item hitem => ?_, hkeep.1, noteItem_badChunks policy.limits _ t.skips⟩
    rw [List.mem_singleton.mp hitem]
    exact hpass
  · rw [if_neg hchunk] at hread ⊢
    cases complete with
    | false =>
      cases hread
      exact ⟨(fun _ hitem => nomatch hitem), rfl, rfl⟩
    | true =>
      have hone : Unmarked (handle crates roles verdict opcode body) := handle_unmarked opcode body
      have hkeep := hone st
      rw [if_pos rfl] at hread ⊢
      rw [hread] at hkeep
      refine ⟨fun item hitem => ?_, congrArg (andThen · _) hkeep.1, hkeep.2⟩
      rw [List.mem_singleton.mp hitem]
      trivial

/-- A read that ends well is the run over the contributions of the items that it meets. -/
theorem readLoop_items (hskip : policy.onBad = .skip) {fileLen fuel ordinal : ℕ}
    {rest : List UInt8} (hread : readLoop crates roles verdict policy fileLen fuel ordinal rest st =
      (.ok (), st')) :
    (∀ item ∈ topItems policy fileLen fuel rest, Passable ε crates policy.limits item) ∧
    runAll (handle crates roles verdict)
        ((topItems policy fileLen fuel rest).flatMap (contribution ε crates policy.limits))
        st.unmarked = (.ok (), st'.unmarked) ∧
      st'.skips.badChunks = st.skips.badChunks + (topItems policy fileLen fuel rest).countP
        fun item => (badKind ε crates policy.limits item).isSome := by
  induction fuel generalizing ordinal rest st with
  | zero =>
    cases hread
    exact ⟨List.forall_mem_nil _, rfl, rfl⟩
  | succ fuel ih =>
    rw [readLoop] at hread
    rw [topItems]
    dsimp only at hread ⊢
    by_cases hshort : (rest.take frameHeader).length < frameHeader
    · rw [if_pos hshort]
      split_ifs at hread
      all_goals
        cases hread
        exact ⟨List.forall_mem_nil _, rfl, rfl⟩
    · have hnil : (rest.take frameHeader).length ≠ 0 := by
        unfold frameHeader at hshort ⊢
        omega
      have hmagic : ¬ ((rest.take frameHeader).length = MAGIC.length ∧
          rest.take frameHeader = MAGIC) := by
        rintro ⟨hlen, -⟩
        rw [hlen] at hshort
        exact hshort (by decide)
      rw [if_neg hnil, if_neg hmagic, if_neg hshort] at hread
      rw [if_neg hshort]
      generalize rest.headD 0 = opcode at hread ⊢
      generalize frameLen rest = declared at hread ⊢
      generalize rest.drop frameHeader = next at hread ⊢
      by_cases hlarge : declared > policy.maxRecordBytes.toNat
      · rw [if_pos hlarge] at hread ⊢
        by_cases hneeds : readerNeeds opcode = true
        · rw [if_pos hneeds] at hread
          cases hread
        · rw [if_neg hneeds] at hread
          by_cases hend : declared > next.length
          · rw [if_pos hend] at hread
            rw [if_pos (.inr (.inl hend))]
            cases hread
            exact ⟨List.forall_mem_nil _, rfl, rfl⟩
          · rw [if_neg hend] at hread
            by_cases hlost : (!resyncsHere (next.drop declared) fileLen) = true
            · rw [if_pos hlost] at hread
              cases hread
            · rw [if_neg hlost] at hread
              rw [if_neg (not_or.mpr ⟨hneeds, not_or.mpr ⟨hend, hlost⟩⟩)]
              have hnext := ih hread
              exact hnext
      · rw [if_neg hlarge] at hread ⊢
        obtain ⟨t, hbody, hrest⟩ := andThen_eq_ok.mp hread
        by_cases hwhole : (next.take (min declared fileLen)).length = declared
        · rw [if_pos hwhole]
          simp only [hwhole, decide_true, if_true] at hbody hrest
          obtain ⟨hpass, hrun, hbad⟩ := readBody_item hskip hbody
          obtain ⟨hpasses, hruns, hbads⟩ := ih hrest
          rw [List.flatMap_append, runAll_append, hrun, List.countP_append, hbads, hbad]
          refine ⟨fun item hitem => ?_, hruns, Nat.add_assoc ..⟩
          rcases List.mem_append.mp hitem with hitem | hitem
          · exact hpass item hitem
          · exact hpasses item hitem
        · rw [if_neg hwhole]
          simp only [hwhole, decide_false, Bool.false_eq_true, if_false] at hbody hrest
          cases hrest
          have hlast := readBody_item hskip hbody
          exact hlast

/-- What a complete chunk contributes, and whether it is bad: all its records; nothing, when
it is refused; or, when its records field is not records from end to end, the whole records
in front of the first fault. -/
inductive Contributes (ε : Type) (crates : Crates) (limits : ChunkLimits) (body : List UInt8) :
    List Frame → Bool → Prop where
  | all {records : List UInt8} {fs : List Frame} :
      chunkField ε crates limits body true = .ok records → records = encodeFrames fs →
      Contributes ε crates limits body fs false
  | refused {kind : BadChunkKind} :
      chunkField ε crates limits body true = .error (.bad kind) →
      Contributes ε crates limits body [] true
  | cut {records tail : List UInt8} {fs : List Frame} :
      chunkField ε crates limits body true = .ok records → records = encodeFrames fs ++ tail →
      tail ≠ [] → nextFrame tail = none → Contributes ε crates limits body fs true

theorem Passable.contributes {limits : ChunkLimits} {body : List UInt8}
    (h : Passable ε crates limits (.chunk body true)) :
    Contributes ε crates limits body (contribution ε crates limits (.chunk body true))
      (badKind ε crates limits (.chunk body true)).isSome := by
  rcases hfield : chunkField ε crates limits body true with fault | records
  · obtain ⟨kind, rfl⟩ := h fault hfield
    simp only [contribution, badKind, hfield]
    exact .refused hfield
  · have hframed := framed_split records
    simp only [contribution, badKind, hfield]
    by_cases htail : tailOf records = []
    · have hbytes := hframed.bytes_eq
      rw [htail, List.append_nil] at hbytes
      rw [if_pos (.inl htail)]
      exact .all hfield hbytes
    · rw [if_neg (by simp [htail])]
      exact .cut hfield hframed.bytes_eq htail hframed.rest

/-- A read under the skip policy that ends well: the transforms that it emits and its schema
and channel bookkeeping are those of the records that its items contribute, in the order of
the file; it counts the bad chunks; and a complete chunk contributes all of its records and
is not bad, or is refused, contributes none and is bad, or contributes the whole records in
front of the first framing fault and is bad. -/
theorem readTf_contributions (hskip : policy.onBad = .skip) {file : List UInt8}
    (hread : readTf crates roles verdict policy file = (.ok (), st)) :
    runAll (handle crates roles verdict)
        ((recordingItems policy file).flatMap (contribution ε crates policy.limits))
        (.start F) = (.ok (), st.unmarked) ∧
      st.skips.badChunks = (recordingItems policy file).countP
        (fun item => (badKind ε crates policy.limits item).isSome) ∧
      ∀ body, .chunk body true ∈ recordingItems policy file →
        Contributes ε crates policy.limits body
          (contribution ε crates policy.limits (.chunk body true))
          (badKind ε crates policy.limits (.chunk body true)).isSome := by
  rw [readTf] at hread
  split_ifs at hread
  · cases hread
  · cases hread
  obtain ⟨hpass, hrun, hbad⟩ := readLoop_items hskip hread
  refine ⟨hrun, ?_, fun body hbody => (hpass _ hbody).contributes⟩
  rw [hbad]
  exact Nat.zero_add _

end Read

/-! ## A fault behind the first record -/

/-- A complete stored chunk without a CRC. -/
def storedChunk (records : List UInt8) : List UInt8 :=
  List.replicate 16 0 ++ leBytes 8 records.length ++ leBytes 4 0 ++ leBytes 4 0 ++
    leBytes 8 records.length ++ records

/-- A schema record: its id and its name, without encoding and data. -/
def schemaBody : List UInt8 :=
  leBytes 2 1 ++ leBytes 4 18 ++ "tf2_msgs/TFMessage".toByteArray.data.toList ++ leBytes 4 0 ++
    leBytes 4 0

/-- A recording of one chunk: a schema record, and a byte that is no record. -/
def strayByte : List UInt8 :=
  MAGIC ++ Frame.encode ⟨CHUNK, storedChunk (Frame.encode ⟨SCHEMA, schemaBody⟩ ++ [0xff])⟩

/-- The other crates, as they are on `strayByte`. -/
def plainCrates : Crates where
  compression := true
  zstdDecodeAll _ _ _ := .error .other
  lz4ReadToEnd _ _ := none
  crc32 _ := 0
  parseRecord opcode _ :=
    if opcode = SCHEMA then .ok (.schema 1 "tf2_msgs/TFMessage") else .error .other

/-- The default policy. -/
def skipPolicy : ReadPolicy where
  onBad := .skip
  limits := ⟨64 * 1024 * 1024, 1024⟩
  maxRecordBytes := 256 * 1024 * 1024

/-- The read of `strayByte`, with a callback that accepts everything. -/
def strayRead : Except (ReadError Unit) Unit × ReadState (BitVec 64) :=
  readTf plainCrates ⟨[], []⟩ (fun _ _ => .ok ()) skipPolicy strayByte

set_option maxRecDepth 10000 in
/-- The chunk is counted as bad, and its schema record is in the bookkeeping. -/
theorem strayByte_contributes :
    strayRead.1.isOk = true ∧ strayRead.2.skips.badChunks = 1 ∧
      strayRead.2.book.tfSchemaIds = {1} := by
  refine ⟨?_, ?_, ?_⟩
  · decide
  · decide
  · decide

set_option maxRecDepth 10000 in
theorem readTf_contributions_strayByte :
    runAll (handle plainCrates ⟨[], []⟩ fun _ _ => (.ok () : Except Unit Unit))
        ((recordingItems skipPolicy strayByte).flatMap
          (contribution Unit plainCrates skipPolicy.limits))
        (.start (BitVec 64)) = (.ok (), strayRead.2.unmarked) ∧
      strayRead.2.skips.badChunks = (recordingItems skipPolicy strayByte).countP
        (fun item => (badKind Unit plainCrates skipPolicy.limits item).isSome) ∧
      ∀ body, .chunk body true ∈ recordingItems skipPolicy strayByte →
        Contributes Unit plainCrates skipPolicy.limits body
          (contribution Unit plainCrates skipPolicy.limits (.chunk body true))
          (badKind Unit plainCrates skipPolicy.limits (.chunk body true)).isSome :=
  have hread : strayRead = (.ok (), strayRead.2) := rfl
  readTf_contributions rfl hread

end TfTree.Mcap
