import Mathlib
import TfTree.Ingest.Contribution

/-!
# The read as a walk over whole records

`read_tf` goes over the whole records of a file, and then over what is left behind the last one.
What a read that ends well counts follows record by record.

Results:
* `readTf_eq`: the read of a file is the walk over its records.
* `readTf_truncated_iff`: which reads say that the recording ends within a record.
* `readTf_counted`: the counts of bad chunks are those of the faults of the chunks.
-/

namespace TfTree.Mcap

open Data Cdr

/-! ## Whole records, and what is left -/

/-- The whole records of a file. -/
def wholeRecords (file : List UInt8) : List Frame := framesOf (file.drop MAGIC.length)

/-- What the file has behind its last whole record. -/
def lastPart (file : List UInt8) : List UInt8 := tailOf (file.drop MAGIC.length)

/-- The file ends behind a record, or behind the magic that closes a recording. -/
def EndsAtRecord (file : List UInt8) : Prop := lastPart file = [] ∨ lastPart file = MAGIC

instance (file : List UInt8) : Decidable (EndsAtRecord file) := inferInstanceAs (Decidable (_ ∨ _))

section Faults

variable (ε : Type) (crates : Crates) (limits : ChunkLimits)

/-- The faults of the chunks among whole records. -/
def wholeFaults (fs : List Frame) : List (Option BadChunkKind) :=
  (fs.filter fun f => f.tag = CHUNK).map fun f => badKind ε crates limits (.chunk f.body true)

/-- The fault of a chunk that the file ends in. -/
def partFaults (part : List UInt8) : List (Option BadChunkKind) :=
  if frameHeader ≤ part.length ∧ part.headD 0 = CHUNK then
    [badKind ε crates limits (.chunk (part.drop frameHeader) false)]
  else []

/-- The faults of the chunks of a file, by their ordinals. -/
def chunkFaults (file : List UInt8) : List (Option BadChunkKind) :=
  wholeFaults ε crates limits (wholeRecords file) ++ partFaults ε crates limits (lastPart file)

/-- The counts of bad chunks are those of the faults. -/
def Counted (skips : SkipCounts) (faults : List (Option BadChunkKind)) : Prop :=
  skips.badChunks = faults.countP Option.isSome ∧
    skips.chunksOverLimit = faults.countP fun kind => kind.any overLimit

end Faults

theorem nextFrame_lastPart (file : List UInt8) : nextFrame (lastPart file) = none :=
  (framed_split _).rest

theorem drop_magic_eq (file : List UInt8) :
    file.drop MAGIC.length = encodeFrames (wholeRecords file) ++ lastPart file :=
  (framed_split _).bytes_eq

theorem fits_wholeRecords {file : List UInt8} : ∀ f ∈ wholeRecords file, f.Fits :=
  (framed_split _).fits

/-! ## What a step does to the state -/

section Steps

variable {F ε : Type} {crates : Crates} {roles : TopicRoles}
  {verdict : List (RawRecord F) → RawRecord F → Except ε Unit} {policy : ReadPolicy}
  {st st' t : ReadState F} {faults faults' : List (Option BadChunkKind)} {ends ends' : Bool}

/-- The callback may have been called, the chunks with `faults` were counted, and `ends` says
whether the file ended within a record. -/
structure Advances (st st' : ReadState F) (faults : List (Option BadChunkKind)) (ends : Bool) :
    Prop where
  emitted : st.emitted <+: st'.emitted
  truncated : st'.skips.truncated = (st.skips.truncated || ends)
  badChunks : st'.skips.badChunks = st.skips.badChunks + faults.countP Option.isSome
  chunksOverLimit : st'.skips.chunksOverLimit =
    st.skips.chunksOverLimit + faults.countP fun kind => kind.any overLimit

theorem Advances.refl (st : ReadState F) : Advances st st [] false :=
  ⟨List.prefix_rfl, (Bool.or_false _).symm, rfl, rfl⟩

theorem Advances.trans (h : Advances st st' faults ends) (h' : Advances st' t faults' ends') :
    Advances st t (faults ++ faults') (ends || ends') where
  emitted := h.emitted.trans h'.emitted
  truncated := by rw [h'.truncated, h.truncated, Bool.or_assoc]
  badChunks := by rw [h'.badChunks, h.badChunks, List.countP_append, Nat.add_assoc]
  chunksOverLimit := by
    rw [h'.chunksOverLimit, h.chunksOverLimit, List.countP_append, Nat.add_assoc]

/-- One step behind another, neither of which counts anything. -/
theorem Advances.seq {call : Except (ReadError ε) Unit × ReadState F}
    {next : ReadState F → Except (ReadError ε) Unit × ReadState F}
    (hcall : Advances st call.2 [] false) (hnext : ∀ t, Advances t (next t).2 [] false) :
    Advances st (andThen call next).2 [] false := by
  rcases call with ⟨e | u, t⟩
  · exact hcall
  · exact hcall.trans (hnext t)

theorem emitAll_advances (recs : List (RawRecord F)) (st : ReadState F) :
    Advances st (emitAll verdict recs st).2 [] false := by
  induction recs generalizing st with
  | nil => exact .refl st
  | cons rec recs ih =>
    have hemit : Advances st (emit verdict rec st).2 [] false :=
      ⟨List.prefix_append _ _, (Bool.or_false _).symm, rfl, rfl⟩
    exact hemit.seq ih

variable [LeBytes F]

theorem handleRecord_advances (rec : Record) (st : ReadState F) :
    Advances st (handleRecord (ε := ε) roles verdict rec st).2 [] false := by
  cases rec with
  | schema id name =>
    simp only [handleRecord]
    split
    all_goals exact ⟨List.prefix_rfl, (Bool.or_false _).symm, rfl, rfl⟩
  | channel id schemaId topic messageEncoding =>
    simp only [handleRecord]
    split_ifs
    all_goals exact ⟨List.prefix_rfl, (Bool.or_false _).symm, rfl, rfl⟩
  | message channelId logTime data =>
    simp only [handleRecord]
    rcases st.book.channels channelId with - | role
    · exact .refl st
    · rcases decodeTfMessage (F := F) data with e | ts
      · exact .refl st
      · exact emitAll_advances _ st
  | other => exact .refl st

theorem handle_advances (opcode : UInt8) (body : List UInt8) (st : ReadState F) :
    Advances st (handle crates roles verdict opcode body st).2 [] false := by
  simp only [handle]
  rcases crates.parseRecord opcode body with e | rec
  · exact .refl st
  · exact handleRecord_advances rec st

theorem runAll_advances (fs : List Frame) (st : ReadState F) :
    Advances st (runAll (handle crates roles verdict) fs st).2 [] false := by
  induction fs generalizing st with
  | nil => exact .refl st
  | cons f fs ih => exact (handle_advances f.tag f.body st).seq ih

omit [LeBytes F] in
/-- A chunk that is skipped under one policy is skipped. -/
theorem noteOrFail_skip {fault : ChunkFault (ReadError ε)} {ordinal : ℕ} {onBad : OnBadChunk}
    {span : Option (ℕ × ℕ)} (h : noteOrFail fault ordinal onBad span st = (.ok (), st')) :
    noteOrFail fault ordinal .skip span st = (.ok (), st') := by
  cases fault with
  | unsupported codec => cases h
  | callback e => cases h
  | bad kind =>
    cases onBad with
    | skip => exact h
    | halt => cases h

/-- A chunk that is read, under either policy: its contribution is run, and it is counted if it
is bad. -/
theorem readChunk_ok {body : List UInt8} {complete : Bool} {ordinal : ℕ}
    (hread : readChunk crates roles verdict policy body complete ordinal st = (.ok (), st')) :
    Passable ε crates policy.limits (.chunk body complete) ∧
    ∃ t, runAll (handle crates roles verdict)
        (contribution ε crates policy.limits (.chunk body complete)) st = (.ok (), t) ∧
      st' = { t with
        skips := noteItem ε crates policy.limits (.chunk body complete) t.skips } := by
  have hskip : readChunk crates roles verdict { policy with onBad := .skip } body complete ordinal
      st = (.ok (), st') := by
    rw [readChunk] at hread ⊢
    dsimp only at hread ⊢
    split at hread
    · exact noteOrFail_skip hread
    · split at hread
      · exact hread
      · exact noteOrFail_skip hread
  have h := @readChunk_skip F ε crates roles verdict { policy with onBad := .skip } st st' _ rfl
    body complete ordinal hskip
  exact h

omit [LeBytes F] in
theorem noteItem_advances (limits : ChunkLimits) (body : List UInt8) (complete : Bool)
    (st : ReadState F) :
    Advances st { st with skips := noteItem ε crates limits (.chunk body complete) st.skips }
      [badKind ε crates limits (.chunk body complete)] false := by
  rw [noteItem]
  rcases badKind ε crates limits (.chunk body complete) with - | kind
  · exact ⟨List.prefix_rfl, (Bool.or_false _).symm, rfl, rfl⟩
  · refine ⟨List.prefix_rfl, (Bool.or_false _).symm, rfl, ?_⟩
    rw [List.countP_singleton]
    rfl

/-- The fault of one body. -/
def bodyFaults (ε : Type) (crates : Crates) (limits : ChunkLimits) (opcode : UInt8)
    (body : List UInt8) (complete : Bool) : List (Option BadChunkKind) :=
  if opcode = CHUNK then [badKind ε crates limits (.chunk body complete)] else []

theorem readBody_advances {opcode : UInt8} {body : List UInt8} {complete : Bool} {ordinal : ℕ}
    (hread : readBody crates roles verdict policy opcode body complete ordinal st =
      (.ok (), st')) :
    Advances st st' (bodyFaults ε crates policy.limits opcode body complete) false := by
  rw [readBody] at hread
  rw [bodyFaults]
  by_cases hchunk : opcode = CHUNK
  · rw [if_pos hchunk] at hread ⊢
    obtain ⟨-, t, hrun, rfl⟩ := readChunk_ok hread
    have hrunAll : Advances st t [] false := by
      have h : Advances st (runAll (handle crates roles verdict)
          (contribution ε crates policy.limits (.chunk body complete)) st).2 [] false :=
        runAll_advances _ st
      rwa [hrun] at h
    exact hrunAll.trans (noteItem_advances policy.limits body complete t)
  · rw [if_neg hchunk] at hread ⊢
    cases complete with
    | false =>
      cases hread
      exact .refl st
    | true =>
      have h : Advances st (handle crates roles verdict opcode body st).2 [] false :=
        handle_advances opcode body st
      rw [if_pos rfl] at hread
      rwa [hread] at h

end Steps

/-! ## The walk, record by record -/

section Walk

variable {F ε : Type} [LeBytes F]

section Model

variable (crates : Crates) (roles : TopicRoles)
  (verdict : List (RawRecord F) → RawRecord F → Except ε Unit) (policy : ReadPolicy)
  (fileLen : ℕ)

/-- What the walk does with a whole record, in front of the bytes `rest`. -/
def readWhole (ordinal : ℕ) (f : Frame) (rest : List UInt8) (st : ReadState F) :
    Except (ReadError ε) Unit × ReadState F :=
  if f.body.length > policy.maxRecordBytes.toNat then
    if readerNeeds f.tag then
      (.error (.recordTooLarge f.body.length policy.maxRecordBytes.toNat), st)
    else if !resyncsHere rest fileLen then
      (.error (.recordTooLarge f.body.length policy.maxRecordBytes.toNat), st)
    else
      (.ok (), { st with skips.oversizedRecordsSkipped := st.skips.oversizedRecordsSkipped + 1 })
  else readBody crates roles verdict policy f.tag f.body true ordinal st

/-- What it does with what is left behind the last whole record. -/
def readPartial (ordinal : ℕ) (part : List UInt8) (st : ReadState F) :
    Except (ReadError ε) Unit × ReadState F :=
  let cut := { st with skips.truncated := true }
  if part = [] ∨ part = MAGIC then (.ok (), st)
  else if part.length < frameHeader then (.ok (), cut)
  else if frameLen part > policy.maxRecordBytes.toNat then
    if readerNeeds (part.headD 0) then
      (.error (.recordTooLarge (frameLen part) policy.maxRecordBytes.toNat), st)
    else (.ok (), cut)
  else
    readBody crates roles verdict policy (part.headD 0) (part.drop frameHeader) false ordinal cut

/-- The walk over whole records, and over what is left behind them. -/
def readRecords (part : List UInt8) :
    ℕ → List Frame → ReadState F → Except (ReadError ε) Unit × ReadState F
  | ordinal, [], st => readPartial crates roles verdict policy ordinal part st
  | ordinal, f :: fs, st =>
    andThen (readWhole crates roles verdict policy fileLen ordinal f (encodeFrames fs ++ part) st)
      (readRecords part (if f.tag = CHUNK then ordinal + 1 else ordinal) fs)

end Model

variable {crates : Crates} {roles : TopicRoles}
  {verdict : List (RawRecord F) → RawRecord F → Except ε Unit} {policy : ReadPolicy}
  {fileLen fuel ordinal : ℕ} {f : Frame} {fs : List Frame} {part rest file : List UInt8}
  {st st' : ReadState F}

omit [LeBytes F] in
theorem andThen_ok (call : Except (ReadError ε) Unit × ReadState F) :
    andThen call (fun st => (.ok (), st)) = call := by
  rcases call with ⟨e | u, t⟩
  · rfl
  · rfl

theorem readLoop_whole (hf : f.Fits) (hlen : f.body.length ≤ fileLen) :
    readLoop crates roles verdict policy fileLen (fuel + 1) ordinal (f.encode ++ rest) st =
      andThen (readWhole crates roles verdict policy fileLen ordinal f rest st)
        (readLoop crates roles verdict policy fileLen fuel
          (if f.tag = CHUNK then ordinal + 1 else ordinal) rest) := by
  have hhead := length_take_encode f rest
  have htag : (f.encode ++ rest).headD 0 = f.tag := rfl
  have htake : (f.body ++ rest).take (min f.body.length fileLen) = f.body := by
    rw [Nat.min_eq_left hlen, List.take_left]
  have hshort : ¬ f.body.length > (f.body ++ rest).length := by
    rw [List.length_append]
    omega
  rw [readLoop, readWhole]
  simp only [hhead, htag, frameLen_encode hf, drop_encode, htake, List.drop_left, decide_true,
    if_true, if_neg hshort]
  rw [if_neg (by decide), if_neg (by rintro ⟨h, -⟩; exact absurd h (by decide)),
    if_neg (Nat.lt_irrefl _)]
  by_cases hlarge : f.body.length > policy.maxRecordBytes.toNat
  · rw [if_pos hlarge, if_pos hlarge]
    by_cases hneeds : readerNeeds f.tag = true
    · rw [if_pos hneeds, if_pos hneeds]
      rfl
    · have hchunk : f.tag ≠ CHUNK := by
        intro h
        rw [h] at hneeds
        exact hneeds rfl
      rw [if_neg hneeds, if_neg hneeds, if_neg hchunk]
      split_ifs
      · rfl
      · rfl
  · rw [if_neg hlarge, if_neg hlarge]

theorem readLoop_partial (hpart : nextFrame part = none) (hlen : part.length ≤ fileLen) :
    readLoop crates roles verdict policy fileLen (fuel + 1) ordinal part st =
      readPartial crates roles verdict policy ordinal part st := by
  have hwhole : part.length < frameHeader + frameLen part := by
    by_contra hlong
    rw [nextFrame, if_neg hlong] at hpart
    cases hpart
  have hnil : (part.take frameHeader).length = 0 ↔ part = [] := by
    rw [List.length_take, frameHeader]
    constructor
    · intro h
      exact List.length_eq_zero_iff.mp (by omega)
    · rintro rfl
      rfl
  have hmagic : ((part.take frameHeader).length = MAGIC.length ∧ part.take frameHeader = MAGIC) ↔
      part = MAGIC := by
    constructor
    · rintro ⟨hlen, htake⟩
      rw [List.length_take, frameHeader, show MAGIC.length = 8 from rfl] at hlen
      rw [← htake, List.take_of_length_le (by rw [frameHeader]; omega)]
    · rintro rfl
      decide
  rw [readLoop, readPartial]
  dsimp only
  by_cases hend : part = [] ∨ part = MAGIC
  · rw [if_pos hend]
    rcases hend with h | h
    · rw [if_pos (hnil.mpr h)]
    · rw [if_neg (by rw [hnil, h]; decide), if_pos (hmagic.mpr h)]
  · obtain ⟨hne, hnm⟩ := not_or.mp hend
    rw [if_neg hend, if_neg (mt hnil.mp hne), if_neg (mt hmagic.mp hnm)]
    have hheader : (part.take frameHeader).length < frameHeader ↔ part.length < frameHeader := by
      rw [List.length_take]
      omega
    by_cases hshort : part.length < frameHeader
    · rw [if_pos (hheader.mpr hshort), if_pos hshort]
    · have hbody : ((part.drop frameHeader).take (min (frameLen part) fileLen)) =
          part.drop frameHeader := by
        apply List.take_of_length_le
        rw [List.length_drop]
        omega
      have hcut : (part.drop frameHeader).length ≠ frameLen part := by
        rw [List.length_drop]
        omega
      have hover : frameLen part > (part.drop frameHeader).length := by
        rw [List.length_drop]
        omega
      rw [if_neg (mt hheader.mp hshort), if_neg hshort]
      simp only [hbody, hcut, hover, decide_false, Bool.false_eq_true, if_false, if_true,
        andThen_ok]

theorem length_le_length_encodeFrames (fs : List Frame) :
    fs.length ≤ (encodeFrames fs).length := by
  induction fs with
  | nil => exact le_rfl
  | cons f fs ih =>
    rw [encodeFrames_cons, List.length_append, Frame.length_encode, List.length_cons, frameHeader]
    omega

theorem readLoop_records (hfits : ∀ f ∈ fs, f.Fits) (hpart : nextFrame part = none)
    (hlen : (encodeFrames fs ++ part).length ≤ fileLen) (hfuel : fs.length < fuel) :
    readLoop crates roles verdict policy fileLen fuel ordinal (encodeFrames fs ++ part) st =
      readRecords crates roles verdict policy fileLen part ordinal fs st := by
  induction fs generalizing fuel ordinal st with
  | nil =>
    obtain ⟨fuel, rfl⟩ : ∃ n, fuel = n + 1 := ⟨fuel - 1, by omega⟩
    exact readLoop_partial hpart hlen
  | cons f fs ih =>
    obtain ⟨fuel, rfl⟩ : ∃ n, fuel = n + 1 := ⟨fuel - 1, by omega⟩
    rw [encodeFrames_cons, List.append_assoc] at hlen ⊢
    have hbody : f.body.length ≤ fileLen := by
      rw [List.length_append, Frame.length_encode] at hlen
      omega
    have hrest : (encodeFrames fs ++ part).length ≤ fileLen := by
      rw [List.length_append] at hlen
      omega
    rw [readLoop_whole (hfits f List.mem_cons_self) hbody, readRecords]
    exact congrArg (andThen _) (funext fun t =>
      ih (fun g hg => hfits g (List.mem_cons_of_mem _ hg)) hrest (Nat.lt_of_succ_lt_succ hfuel))

/-- A read of a file with the magic is the walk over its records. -/
theorem readTf_eq (hmagic : file.take MAGIC.length = MAGIC) :
    readTf crates roles verdict policy file =
      readRecords crates roles verdict policy file.length (lastPart file) 0 (wholeRecords file)
        (.start F) := by
  have hsqlite : SQLITE_MAGIC.isPrefixOf file = false := by
    cases file with
    | nil => cases hmagic
    | cons b bytes =>
      obtain rfl : b = 0x89 := (List.cons.inj hmagic).1
      rfl
  have hfuel : (wholeRecords file).length < (file.drop MAGIC.length).length + 1 := by
    have hle := length_le_length_encodeFrames (wholeRecords file)
    rw [drop_magic_eq file, List.length_append]
    omega
  rw [readTf, if_neg (by rw [hsqlite]; exact Bool.false_ne_true), if_neg (not_not.mpr hmagic)]
  dsimp only
  rw [drop_magic_eq file] at hfuel ⊢
  refine readLoop_records fits_wholeRecords (nextFrame_lastPart file) ?_ hfuel
  rw [← drop_magic_eq, List.length_drop]
  omega

theorem magic_of_readTf (hread : readTf crates roles verdict policy file = (.ok (), st)) :
    file.take MAGIC.length = MAGIC := by
  rw [readTf] at hread
  split_ifs at hread with hsqlite hmagic
  · cases hread
  · cases hread
  · exact not_not.mp hmagic

theorem readWhole_advances
    (hread : readWhole crates roles verdict policy fileLen ordinal f rest st = (.ok (), st')) :
    Advances st st' (wholeFaults ε crates policy.limits [f]) false := by
  rw [readWhole] at hread
  split_ifs at hread with hlarge hneeds hlost
  · cases hread
  · cases hread
  · have hchunk : f.tag ≠ CHUNK := by
      intro h
      rw [h] at hneeds
      exact hneeds rfl
    cases hread
    rw [wholeFaults, List.filter_cons_of_neg (by simpa using hchunk)]
    exact ⟨List.prefix_rfl, (Bool.or_false _).symm, rfl, rfl⟩
  · have h := readBody_advances hread
    rw [bodyFaults] at h
    by_cases hchunk : f.tag = CHUNK
    · rw [if_pos hchunk] at h
      rwa [wholeFaults, List.filter_cons_of_pos (by simpa using hchunk)]
    · rw [if_neg hchunk] at h
      rwa [wholeFaults, List.filter_cons_of_neg (by simpa using hchunk)]

theorem readPartial_advances
    (hread : readPartial crates roles verdict policy ordinal part st = (.ok (), st')) :
    Advances st st' (partFaults ε crates policy.limits part)
      (!decide (part = [] ∨ part = MAGIC)) := by
  have hcut : Advances st { st with skips.truncated := true } [] true :=
    ⟨List.prefix_rfl, (Bool.or_true _).symm, rfl, rfl⟩
  rw [readPartial] at hread
  dsimp only at hread
  by_cases hend : part = [] ∨ part = MAGIC
  · have hshort : ¬ frameHeader ≤ part.length := by
      rcases hend with rfl | rfl
      · decide
      · decide
    rw [if_pos hend] at hread
    cases hread
    rw [partFaults, if_neg (mt And.left hshort), decide_eq_true hend]
    exact .refl st
  · rw [if_neg hend] at hread
    rw [decide_eq_false hend]
    by_cases hshort : part.length < frameHeader
    · rw [if_pos hshort] at hread
      cases hread
      rw [partFaults, if_neg (by omega)]
      exact hcut
    · rw [if_neg hshort] at hread
      split_ifs at hread with hlarge hneeds
      · cases hread
      · have hchunk : part.headD 0 ≠ CHUNK := by
          intro h
          rw [h] at hneeds
          exact hneeds rfl
        cases hread
        rw [partFaults, if_neg (mt And.right hchunk)]
        exact hcut
      · have hbody := readBody_advances hread
        rw [bodyFaults] at hbody
        rw [partFaults]
        by_cases hchunk : part.headD 0 = CHUNK
        · rw [if_pos hchunk] at hbody
          rw [if_pos ⟨Nat.le_of_not_lt hshort, hchunk⟩]
          exact hcut.trans hbody
        · rw [if_neg hchunk] at hbody
          rw [if_neg (mt And.right hchunk)]
          exact hcut.trans hbody

theorem readRecords_advances
    (hread : readRecords crates roles verdict policy fileLen part ordinal fs st = (.ok (), st')) :
    Advances st st'
      (wholeFaults ε crates policy.limits fs ++ partFaults ε crates policy.limits part)
      (!decide (part = [] ∨ part = MAGIC)) := by
  induction fs generalizing ordinal st with
  | nil => exact readPartial_advances hread
  | cons f fs ih =>
    obtain ⟨t, hwhole, hrest⟩ := andThen_eq_ok.mp hread
    have hcons : wholeFaults ε crates policy.limits (f :: fs) =
        wholeFaults ε crates policy.limits [f] ++ wholeFaults ε crates policy.limits fs := by
      rw [wholeFaults, wholeFaults, wholeFaults, ← List.map_append, ← List.filter_append]
      rfl
    rw [hcons, List.append_assoc]
    exact (readWhole_advances hwhole).trans (ih hrest)

theorem readTf_advances (hread : readTf crates roles verdict policy file = (.ok (), st)) :
    Advances (.start F) st (chunkFaults ε crates policy.limits file)
      (!decide (EndsAtRecord file)) := by
  rw [readTf_eq (magic_of_readTf hread)] at hread
  exact readRecords_advances hread

/-- A read says that the recording is truncated exactly if it ends within a record. -/
theorem readTf_truncated_iff (hread : readTf crates roles verdict policy file = (.ok (), st)) :
    st.skips.truncated = true ↔ ¬ EndsAtRecord file := by
  rw [(readTf_advances hread).truncated]
  simp [ReadState.start]

/-- The counts of bad chunks are those of the faults of the chunks. -/
theorem readTf_counted (hread : readTf crates roles verdict policy file = (.ok (), st)) :
    Counted st.skips (chunkFaults ε crates policy.limits file) := by
  have h := readTf_advances hread
  exact ⟨h.badChunks.trans (Nat.zero_add _), h.chunksOverLimit.trans (Nat.zero_add _)⟩

end Walk

end TfTree.Mcap
