import Mathlib
import TfTree.Ingest.Surveyed
import TfTree.Ingest.Walked

/-!
# A recording that is cut short

`read_tf` on the first bytes of a recording that it reads to the end. Up to the cut both reads do
the same. What is left of the record that the cut falls into is noted as truncation, and of a
stored chunk its whole records are read.

Results:
* `readChunk_cut`: a chunk that is cut hands on the first of its records.
* `readTf_cut`: the read of a recording that is cut short.
* `cuts_taken_for_damage`: a cut in the head of a chunk is damage to the reader, and what other
  cuts are excepted.
-/

namespace TfTree.Mcap

open Data Cdr Offline

/-! ## The cut -/

/-- What is left of a record is a chunk with the bytes `body` of its body. -/
def LeftChunk (part body : List UInt8) : Prop :=
  frameHeader ≤ part.length ∧ part.headD 0 = CHUNK ∧ body = part.drop frameHeader

/-- The cut behind `n` bytes is one that the reader takes for truncation. -/
structure SafeCut (ε : Type) (crates : Crates) (limits : ChunkLimits) (maxRecordBytes : ℕ)
    (file : List UInt8) (n : ℕ) : Prop where
  /-- A chunk keeps its head. -/
  head : ∀ body, LeftChunk (lastPart (file.take n)) body →
    ∃ head, ChunkHead.parse (E := ReadError ε) body = .ok head
  /-- A stored chunk that is whole in the file is not refused there, and is not cut behind its
  records. -/
  stored : ∀ body head f rest, LeftChunk (lastPart (file.take n)) body →
    ChunkHead.parse (E := ReadError ε) body = .ok head → head.codec = .none →
    nextFrame (lastPart (file.take n) ++ file.drop n) = some (f, rest) →
    (∃ records, chunkField ε crates limits f.body true = .ok records) ∧
      body.length ≤ head.recordsAt + head.compressedSize
  /-- Behind a record that is skipped for its length, the cut leaves a header, and the length in
  it is no larger than the file is then. -/
  resync : ∀ f ∈ (wholeRecords (file.take n)).getLast?, maxRecordBytes < f.body.length →
    EndsAtRecord (file.take n) ∨
      frameHeader ≤ (lastPart (file.take n)).length ∧ frameLen (lastPart (file.take n)) ≤ n

/-! ## A chunk that is cut -/

section Chunk

variable {F ε : Type} [LeBytes F] {crates : Crates} {roles : TopicRoles}
  {verdict : List (RawRecord F) → RawRecord F → Except ε Unit} {policy : ReadPolicy}
  {limits : ChunkLimits} {body more : List UInt8} {head : ChunkHead} {complete : Bool}
  {ordinal : ℕ} {st st' t : ReadState F}

theorem numberIn_append {start n : ℕ} (h : start + n ≤ body.length) :
    numberIn (body ++ more) start n = numberIn body start n := by
  rw [numberIn, numberIn, List.drop_append_of_le_length (by omega),
    List.take_append_of_le_length (by rw [List.length_drop]; omega)]

omit [LeBytes F] in
/-- The head of a chunk is in front of its records. -/
theorem parse_append {E : Type} (h : ChunkHead.parse (E := E) body = .ok head)
    (more : List UInt8) :
    ChunkHead.parse (E := E) (body ++ more) = .ok head ∧ head.recordsAt ≤ body.length := by
  unfold ChunkHead.parse at h ⊢
  dsimp only at h ⊢
  split_ifs at h with hfixed hrecords
  have hname : numberIn (body ++ more) 28 4 = numberIn body 28 4 :=
    numberIn_append (by rw [FIXED] at hfixed; omega)
  have hsize : numberIn (body ++ more) 16 8 = numberIn body 16 8 :=
    numberIn_append (by rw [FIXED] at hfixed; omega)
  have hcrc : numberIn (body ++ more) 24 4 = numberIn body 24 4 :=
    numberIn_append (by rw [FIXED] at hfixed; omega)
  have hcompressed : numberIn (body ++ more) (FIXED + numberIn body 28 4) 8 =
      numberIn body (FIXED + numberIn body 28 4) 8 := numberIn_append (by omega)
  have htext : ((body ++ more).drop FIXED).take (numberIn body 28 4) =
      (body.drop FIXED).take (numberIn body 28 4) := by
    rw [List.drop_append_of_le_length (by omega),
      List.take_append_of_le_length (by rw [List.length_drop]; omega)]
  rw [hname, hsize, hcrc, hcompressed, htext, List.length_append,
    if_neg (by omega), if_neg (by omega)]
  refine ⟨h, ?_⟩
  cases h
  exact Nat.le_of_not_lt hrecords

/-- What is read of a chunk that is cut behind its head. -/
theorem chunkField_cut (limits : ChunkLimits)
    (hparse : ChunkHead.parse (E := ReadError ε) body = .ok head)
    (hbuilt : head.codec.isBuiltIn crates.compression = true) :
    chunkField ε crates limits body false =
      .ok (if head.codec = .none then body.drop head.recordsAt else []) := by
  rw [chunkField, chunkRecords, hparse]
  show (if _ then _ else _) = _
  rw [hbuilt, if_neg (by decide)]
  split_ifs
  · rfl
  · rfl

/-- A chunk that is not refused for its codec has one that is built in. -/
theorem builtIn_of_passable (hparse : ChunkHead.parse (E := ReadError ε) body = .ok head)
    (hpass : Passable ε crates limits (.chunk body complete)) :
    head.codec.isBuiltIn crates.compression = true := by
  by_contra hnot
  have hfield : chunkField ε crates limits body complete = .error (.unsupported head.codec) := by
    rw [chunkField, chunkRecords, hparse]
    show (if _ then _ else _) = _
    rw [if_pos (by simpa using hnot)]
  obtain ⟨kind, hkind⟩ := hpass _ hfield
  cases hkind

/-- The records field of a whole stored chunk. -/
theorem chunkField_stored {records : List UInt8}
    (hparse : ChunkHead.parse (E := ReadError ε) body = .ok head) (hcodec : head.codec = .none)
    (h : chunkField ε crates limits body true = .ok records) :
    records = (body.drop head.recordsAt).take head.compressedSize := by
  rw [chunkField, chunkRecords, hparse] at h
  change (if _ then _ else _) = _ at h
  simp only [hcodec, ChunkCodec.isBuiltIn, Bool.not_true, Bool.false_eq_true, if_false, if_true,
    storedRecords, declaredPayload] at h
  by_cases hfits : head.compressedSize ≤ body.length - head.recordsAt
  · rw [if_pos hfits] at h
    change (if _ then _ else (checkCrc _ _ _ >>= _)) = _ at h
    split_ifs at h
    cases hcrc : checkCrc (E := ReadError ε) crates.toCodecs
        ((body.drop head.recordsAt).take head.compressedSize) head.uncompressedCrc with
    | error e =>
      rw [hcrc] at h
      cases h
    | ok u =>
      rw [hcrc] at h
      exact (Except.ok.inj h).symm
  · rw [if_neg hfits] at h
    cases h

/-- What is left of a stored chunk is in front of the rest of its records. -/
theorem framesOf_cut (hparse : ChunkHead.parse (E := ReadError ε) body = .ok head)
    (hcodec : head.codec = .none)
    (hstored : complete = true → (∃ records, chunkField ε crates limits (body ++ more) true =
      .ok records) ∧ body.length ≤ head.recordsAt + head.compressedSize)
    (hpass : Passable ε crates limits (.chunk (body ++ more) complete)) :
    framesOf (body.drop head.recordsAt) <+:
      contribution ε crates limits (.chunk (body ++ more) complete) := by
  obtain ⟨hwhole, hrecords⟩ := parse_append hparse more
  cases complete with
  | false =>
    have hfield := chunkField_cut limits hwhole (builtIn_of_passable hwhole hpass)
    rw [if_pos hcodec, List.drop_append_of_le_length hrecords] at hfield
    simp only [contribution, hfield]
    rw [(framesOf_append _ more).1]
    exact List.prefix_append _ _
  | true =>
    obtain ⟨⟨records, hfield⟩, hlen⟩ := hstored rfl
    have hbytes := chunkField_stored hwhole hcodec hfield
    rw [List.drop_append_of_le_length hrecords, List.take_append,
      List.take_of_length_le (by rw [List.length_drop]; omega)] at hbytes
    simp only [contribution, hfield]
    rw [hbytes, (framesOf_append _ _).1]
    exact List.prefix_append _ _

/-- The records in front of others are run as they are. -/
theorem runAll_of_append {fs gs : List Frame} (hfront : fs <+: gs)
    (hrun : runAll (handle crates roles verdict) gs st = (.ok (), t)) :
    ∃ u, runAll (handle crates roles verdict) fs st = (.ok (), u) ∧ u.emitted <+: t.emitted := by
  obtain ⟨rest, rfl⟩ := hfront
  rw [runAll_append] at hrun
  obtain ⟨u, hu, hrest⟩ := andThen_eq_ok.mp hrun
  have h : Advances u (runAll (handle crates roles verdict) rest u).2 [] false :=
    runAll_advances rest u
  rw [hrest] at h
  exact ⟨u, hu, h.emitted⟩

/-- The counts of the reader do not change what records do. -/
theorem runAll_congr {fs : List Frame} {st₁ : ReadState F} (hsame : st₁.unmarked = st.unmarked)
    (hrun : runAll (handle crates roles verdict) fs st = (.ok (), t)) :
    ∃ t₁, runAll (handle crates roles verdict) fs st₁ = (.ok (), t₁) ∧
      t₁.emitted = t.emitted := by
  have hall : Unmarked (runAll (handle crates roles verdict) fs) := runAll_unmarked fs
  have h₁ := (hall st₁).1
  rw [hsame, (hall st).1, hrun] at h₁
  obtain ⟨hout, hstate⟩ := Prod.mk.inj h₁
  refine ⟨(runAll (handle crates roles verdict) fs st₁).2, Prod.ext hout.symm rfl, ?_⟩
  exact (congrArg ReadState.emitted hstate).symm

/-- A chunk that is cut behind its head hands on records that the whole chunk hands on. -/
theorem readChunk_cut (ordinal' : ℕ) (hparse : ChunkHead.parse (E := ReadError ε) body = .ok head)
    (hstored : head.codec = .none → complete = true →
      (∃ records, chunkField ε crates policy.limits (body ++ more) true = .ok records) ∧
        body.length ≤ head.recordsAt + head.compressedSize)
    (hread : readChunk crates roles verdict policy (body ++ more) complete ordinal st =
      (.ok (), st')) {st₁ : ReadState F} (hsame : st₁.unmarked = st.unmarked) :
    ∃ u, readChunk crates roles verdict policy body false ordinal' st₁ = (.ok (), u) ∧
      u.emitted <+: st'.emitted := by
  obtain ⟨hpass, t, hrun, rfl⟩ := readChunk_ok hread
  have hbuilt := builtIn_of_passable (parse_append hparse more).1 hpass
  have hfield := chunkField_cut policy.limits hparse hbuilt
  have hfront : framesOf (if head.codec = .none then body.drop head.recordsAt else []) <+:
      contribution ε crates policy.limits (.chunk (body ++ more) complete) := by
    by_cases hcodec : head.codec = .none
    · rw [if_pos hcodec]
      exact framesOf_cut hparse hcodec (hstored hcodec) hpass
    · rw [if_neg hcodec]
      exact List.nil_prefix
  obtain ⟨u, hu, hemitted⟩ := runAll_of_append hfront hrun
  obtain ⟨u₁, hu₁, hsame₁⟩ := runAll_congr hsame hu
  refine ⟨u₁, ?_, hsame₁ ▸ hemitted⟩
  rw [chunkField] at hfield
  rw [readChunk, hfield]
  simp only [forEachRecord_eq, hu₁, Bool.not_false, or_true, if_true]

end Chunk

/-! ## The read of what is in front of the cut -/

section Cut

variable {F ε : Type} [LeBytes F] {crates : Crates} {roles : TopicRoles}
  {verdict : List (RawRecord F) → RawRecord F → Except ε Unit} {policy : ReadPolicy}
  {file : List UInt8} {n : ℕ} {st : ReadState F}

/-- The reader is in step behind a skipped record, if what the cut leaves has a header. -/
theorem resyncsHere_cut {rest more : List UInt8} {fileLen : ℕ}
    (h : resyncsHere (rest ++ more) fileLen = true)
    (hrest : (rest = [] ∨ rest = MAGIC) ∨ frameHeader ≤ rest.length ∧ frameLen rest ≤ n) :
    resyncsHere rest n = true := by
  rcases hrest with (rfl | rfl) | ⟨hheader, hlen⟩
  · rfl
  · rfl
  · have hhead : (rest ++ more).take frameHeader = rest.take frameHeader :=
      List.take_append_of_le_length hheader
    have hnine : (rest.take frameHeader).length = frameHeader := by
      rw [List.length_take]
      omega
    unfold resyncsHere at h ⊢
    dsimp only at h ⊢
    rw [hhead, hnine, if_neg (by decide), if_neg (by rintro ⟨h, -⟩; exact absurd h (by decide)),
      if_pos rfl, decide_eq_true_iff] at h
    rw [hnine, if_neg (by decide), if_neg (by rintro ⟨h, -⟩; exact absurd h (by decide)),
      if_pos rfl, decide_eq_true_iff]
    exact ⟨h.1, h.2.1, hlen⟩

variable {f : Frame} {fs : List Frame} {part bytes rest more : List UInt8} {fileLen ordinal : ℕ}
  {st' t : ReadState F}

theorem readWhole_cut
    (hread : readWhole crates roles verdict policy fileLen ordinal f (rest ++ more) st =
      (.ok (), t))
    (hrest : policy.maxRecordBytes.toNat < f.body.length →
      (rest = [] ∨ rest = MAGIC) ∨ frameHeader ≤ rest.length ∧ frameLen rest ≤ n) :
    readWhole crates roles verdict policy n ordinal f rest st = (.ok (), t) := by
  rw [readWhole] at hread ⊢
  by_cases hlarge : f.body.length > policy.maxRecordBytes.toNat
  · rw [if_pos hlarge] at hread ⊢
    split_ifs at hread with hneeds hlost
    · cases hread
    · cases hread
    · have hstep : resyncsHere (rest ++ more) fileLen = true := by simpa using hlost
      rw [if_neg hneeds, resyncsHere_cut hstep (hrest hlarge), Bool.not_true, if_neg (by decide)]
      exact hread
  · rw [if_neg hlarge] at hread ⊢
    exact hread

/-- The first record of a walk, which the file may end in. -/
theorem readRecords_head (hheader : frameHeader ≤ bytes.length)
    (hread : readRecords crates roles verdict policy fileLen (tailOf bytes) ordinal
      (framesOf bytes) st = (.ok (), st')) :
    (frameLen bytes > policy.maxRecordBytes.toNat → readerNeeds (bytes.headD 0) = false) ∧
    (¬ frameLen bytes > policy.maxRecordBytes.toNat →
      ∃ complete st₁ t, st₁.unmarked = st.unmarked ∧ t.emitted <+: st'.emitted ∧
        readBody crates roles verdict policy (bytes.headD 0)
          ((bytes.drop frameHeader).take (frameLen bytes)) complete ordinal st₁ = (.ok (), t) ∧
        (complete = true → ∃ rest, nextFrame bytes =
          some (⟨bytes.headD 0, (bytes.drop frameHeader).take (frameLen bytes)⟩, rest))) := by
  rcases hnext : nextFrame bytes with - | ⟨f, next⟩
  · obtain ⟨hframes, htail⟩ := (framed_split bytes).unique ⟨rfl, List.forall_mem_nil _, hnext⟩
    have hshort : bytes.length < frameHeader + frameLen bytes := by
      by_contra hlong
      rw [nextFrame, if_neg hlong] at hnext
      cases hnext
    have hend : ¬ (bytes = [] ∨ bytes = MAGIC) := by
      rintro (rfl | rfl)
      · exact absurd hheader (by decide)
      · exact absurd hheader (by decide)
    rw [hframes, htail, readRecords, readPartial, if_neg hend, if_neg (by omega)] at hread
    refine ⟨fun hlarge => ?_, fun hsmall => ?_⟩
    · rw [if_pos hlarge] at hread
      by_contra hneeds
      rw [if_pos (by simpa using hneeds)] at hread
      cases hread
    · rw [if_neg hsmall] at hread
      rw [List.take_of_length_le (by rw [List.length_drop]; omega)]
      exact ⟨false, { st with skips.truncated := true }, st', rfl, List.prefix_rfl, hread,
        fun h => by cases h⟩
  · obtain ⟨hbytes, hfits⟩ := encode_of_nextFrame hnext
    have hbehind := framed_split next
    have hframed : Framed bytes (f :: framesOf next) (tailOf next) :=
      ⟨by rw [encodeFrames_cons, List.append_assoc, ← hbehind.bytes_eq, ← hbytes],
        List.forall_mem_cons.mpr ⟨hfits, hbehind.fits⟩, hbehind.rest⟩
    obtain ⟨hframes, htail⟩ := (framed_split bytes).unique hframed
    rw [hframes, htail, readRecords] at hread
    obtain ⟨t, hwhole, hrest⟩ := andThen_eq_ok.mp hread
    have hf : f = ⟨bytes.headD 0, (bytes.drop frameHeader).take (frameLen bytes)⟩ := by
      unfold nextFrame at hnext
      split_ifs at hnext
      exact (Prod.mk.inj (Option.some.inj hnext)).1.symm
    have hlen : f.body.length = frameLen bytes := by
      rw [hbytes, frameLen_encode hfits]
    rw [readWhole, hlen] at hwhole
    refine ⟨fun hlarge => ?_, fun hsmall => ?_⟩
    · rw [if_pos hlarge] at hwhole
      by_contra hneeds
      rw [if_pos (by rw [hf]; simpa using hneeds)] at hwhole
      cases hwhole
    · rw [if_neg hsmall, hf] at hwhole
      exact ⟨true, st, t, rfl, (readRecords_advances hrest).emitted, hwhole,
        fun _ => ⟨next, congrArg (fun g => some (g, next)) hf⟩⟩

/-- What the cut leaves of a record does not disturb the read. -/
theorem readPartial_cut (hpart : nextFrame part = none)
    (hhead : ∀ body, LeftChunk part body →
      ∃ head, ChunkHead.parse (E := ReadError ε) body = .ok head)
    (hstored : ∀ body head f rest, LeftChunk part body →
      ChunkHead.parse (E := ReadError ε) body = .ok head → head.codec = .none →
      nextFrame (part ++ more) = some (f, rest) →
      (∃ records, chunkField ε crates policy.limits f.body true = .ok records) ∧
        body.length ≤ head.recordsAt + head.compressedSize)
    (hread : readRecords crates roles verdict policy fileLen (tailOf (part ++ more)) ordinal
      (framesOf (part ++ more)) st = (.ok (), st')) :
    ∃ u, readPartial crates roles verdict policy ordinal part st = (.ok (), u) ∧
      u.emitted <+: st'.emitted := by
  have hgrows : st.emitted <+: st'.emitted := (readRecords_advances hread).emitted
  rw [readPartial]
  dsimp only
  by_cases hend : part = [] ∨ part = MAGIC
  · rw [if_pos hend]
    exact ⟨st, rfl, hgrows⟩
  by_cases hshort : part.length < frameHeader
  · rw [if_neg hend, if_pos hshort]
    exact ⟨_, rfl, hgrows⟩
  rw [if_neg hend, if_neg hshort]
  have hheader : frameHeader ≤ part.length := Nat.le_of_not_lt hshort
  have hopcode : (part ++ more).headD 0 = part.headD 0 := by
    cases part with
    | nil => exact absurd hheader (by decide)
    | cons b part => rfl
  have hdeclared : frameLen (part ++ more) = frameLen part := by
    rw [frameHeader] at hheader
    rw [frameLen, frameLen, List.drop_append_of_le_length (by omega),
      List.take_append_of_le_length (by rw [List.length_drop]; omega)]
  have hcut : part.length < frameHeader + frameLen part := by
    by_contra hlong
    rw [nextFrame, if_neg hlong] at hpart
    cases hpart
  have hbody : ((part ++ more).drop frameHeader).take (frameLen part) =
      part.drop frameHeader ++ more.take (frameLen part - (part.drop frameHeader).length) := by
    rw [List.drop_append_of_le_length hheader, List.take_append,
      List.take_of_length_le (by rw [List.length_drop]; omega)]
  obtain ⟨hneeds, hfirst⟩ := readRecords_head (by rw [List.length_append]; omega) hread
  rw [hdeclared, hopcode] at hneeds hfirst
  by_cases hlarge : frameLen part > policy.maxRecordBytes.toNat
  · rw [if_pos hlarge, hneeds hlarge, if_neg Bool.false_ne_true]
    exact ⟨_, rfl, hgrows⟩
  obtain ⟨complete, st₁, t, hsame, hemitted, hfull, hwhole⟩ := hfirst hlarge
  rw [if_neg hlarge]
  rw [readBody] at hfull ⊢
  by_cases hchunk : part.headD 0 = CHUNK
  · rw [if_pos hchunk, hbody] at hfull
    rw [if_pos hchunk]
    have hleft : LeftChunk part (part.drop frameHeader) := ⟨hheader, hchunk, rfl⟩
    obtain ⟨head, hparse⟩ := hhead _ hleft
    have hwholeStored : head.codec = .none → complete = true → (∃ records, chunkField ε crates
        policy.limits (part.drop frameHeader ++
          more.take (frameLen part - (part.drop frameHeader).length)) true = .ok records) ∧
        (part.drop frameHeader).length ≤ head.recordsAt + head.compressedSize := by
      intro hcodec hcomplete
      obtain ⟨rest, hnext⟩ := hwhole hcomplete
      rw [hbody] at hnext
      exact hstored _ head _ rest hleft hparse hcodec hnext
    have hmarked : ReadState.unmarked { st with skips.truncated := true } = st₁.unmarked :=
      hsame.symm
    obtain ⟨u, hu, hu'⟩ := readChunk_cut ordinal hparse hwholeStored hfull hmarked
    exact ⟨u, hu, hu'.trans hemitted⟩
  · rw [if_neg hchunk, if_neg Bool.false_ne_true]
    exact ⟨_, rfl, hgrows⟩

/-- The walk over what is in front of the cut. -/
theorem readRecords_cut (hfits : ∀ f ∈ fs, f.Fits)
    (hlen : (encodeFrames fs ++ part).length ≤ n)
    (hresync : ∀ f ∈ fs.getLast?, policy.maxRecordBytes.toNat < f.body.length →
      (part = [] ∨ part = MAGIC) ∨ frameHeader ≤ part.length ∧ frameLen part ≤ n)
    (hleftover : ∀ ordinal st, readRecords crates roles verdict policy fileLen
        (tailOf (part ++ more)) ordinal (framesOf (part ++ more)) st = (.ok (), st') →
      ∃ u, readPartial crates roles verdict policy ordinal part st = (.ok (), u) ∧
        u.emitted <+: st'.emitted)
    (hread : readRecords crates roles verdict policy fileLen (tailOf (part ++ more)) ordinal
      (fs ++ framesOf (part ++ more)) st = (.ok (), st')) :
    ∃ u, readRecords crates roles verdict policy n part ordinal fs st = (.ok (), u) ∧
      u.emitted <+: st'.emitted := by
  induction fs generalizing ordinal st with
  | nil => exact hleftover ordinal st hread
  | cons f fs ih =>
    rw [List.cons_append, readRecords] at hread
    obtain ⟨t, hwhole, hrest⟩ := andThen_eq_ok.mp hread
    have hbytes : encodeFrames (fs ++ framesOf (part ++ more)) ++ tailOf (part ++ more) =
        (encodeFrames fs ++ part) ++ more := by
      rw [encodeFrames, List.flatMap_append, List.append_assoc, List.append_assoc]
      exact congrArg (encodeFrames fs ++ ·) (framed_split (part ++ more)).bytes_eq.symm
    rw [encodeFrames_cons, List.append_assoc, List.length_append] at hlen
    have hbehind : policy.maxRecordBytes.toNat < f.body.length →
        (encodeFrames fs ++ part = [] ∨ encodeFrames fs ++ part = MAGIC) ∨
          frameHeader ≤ (encodeFrames fs ++ part).length ∧
            frameLen (encodeFrames fs ++ part) ≤ n := by
      intro hlarge
      cases fs with
      | nil => exact hresync f rfl hlarge
      | cons g fs =>
        have hg : g.Fits := hfits g (List.mem_cons_of_mem _ List.mem_cons_self)
        rw [encodeFrames_cons, List.append_assoc, List.length_append, g.length_encode] at hlen
        rw [encodeFrames_cons, List.append_assoc, List.length_append, g.length_encode,
          frameLen_encode hg]
        exact .inr ⟨by omega, by omega⟩
    rw [hbytes] at hwhole
    have hstep := readWhole_cut hwhole hbehind
    obtain ⟨u, hu, hemitted⟩ := ih (fun g hg => hfits g (List.mem_cons_of_mem _ hg)) (by omega)
      (fun g hg => hresync g (by
        obtain ⟨h, hh⟩ : ∃ h, h ∈ fs.getLast? := ⟨g, hg⟩
        cases fs with
        | nil => cases hg
        | cons k fs => rwa [List.getLast?_cons_cons])) hrest
    exact ⟨u, andThen_eq_ok.mpr ⟨t, hstep, hu⟩, hemitted⟩

theorem drop_magic_take (hmagic : file.take MAGIC.length = MAGIC) (hn : MAGIC.length ≤ n) :
    file.drop MAGIC.length = (file.take n).drop MAGIC.length ++ file.drop n := by
  have hlen : MAGIC.length ≤ (file.take n).length := by
    have htake := congrArg List.length hmagic
    rw [List.length_take] at htake ⊢
    omega
  rw [← List.drop_append_of_le_length hlen, List.take_append_drop]

/-- The records of a file and those in front of a cut. -/
theorem wholeRecords_cut (hmagic : file.take MAGIC.length = MAGIC) (hn : MAGIC.length ≤ n) :
    wholeRecords file = wholeRecords (file.take n) ++
        framesOf (lastPart (file.take n) ++ file.drop n) ∧
      lastPart file = tailOf (lastPart (file.take n) ++ file.drop n) := by
  unfold wholeRecords lastPart
  rw [drop_magic_take hmagic hn]
  exact framesOf_append _ _

omit [LeBytes F] in
/-- A chunk that is cut behind its head is not bad. -/
theorem partFaults_eq_none {limits : ChunkLimits} (hhead : ∀ body, LeftChunk part body →
    ∃ head, ChunkHead.parse (E := ReadError ε) body = .ok head) :
    ∀ fault ∈ partFaults ε crates limits part, fault = none := by
  intro fault hfault
  rw [partFaults] at hfault
  split_ifs at hfault with hchunk
  · obtain ⟨head, hparse⟩ := hhead _ ⟨hchunk.1, hchunk.2, rfl⟩
    obtain rfl := List.mem_singleton.mp hfault
    by_cases hbuilt : head.codec.isBuiltIn crates.compression = true
    · simp only [badKind, chunkField_cut limits hparse hbuilt, Bool.not_false, or_true, if_true]
    · have hfield : chunkField ε crates limits (part.drop frameHeader) false =
          .error (.unsupported head.codec) := by
        rw [chunkField, chunkRecords, hparse]
        show (if _ then _ else _) = _
        rw [if_pos (by simpa using hbuilt)]
      simp only [badKind, hfield]
  · cases hfault

omit [LeBytes F] in
/-- A chunk that is bad in front of the cut is bad. -/
theorem chunkFaults_cut {limits : ChunkLimits} (hmagic : file.take MAGIC.length = MAGIC)
    (hn : MAGIC.length ≤ n) (hhead : ∀ body, LeftChunk (lastPart (file.take n)) body →
      ∃ head, ChunkHead.parse (E := ReadError ε) body = .ok head) {i : ℕ} {kind : BadChunkKind}
    (h : (chunkFaults ε crates limits (file.take n))[i]? = some (some kind)) :
    (chunkFaults ε crates limits file)[i]? = some (some kind) := by
  obtain ⟨hwhole, -⟩ := wholeRecords_cut hmagic hn
  have happend : chunkFaults ε crates limits file =
      wholeFaults ε crates limits (wholeRecords (file.take n)) ++
        (wholeFaults ε crates limits (framesOf (lastPart (file.take n) ++ file.drop n)) ++
          partFaults ε crates limits (lastPart file)) := by
    rw [chunkFaults, hwhole, ← List.append_assoc]
    congr 1
    rw [wholeFaults, wholeFaults, wholeFaults, ← List.map_append, ← List.filter_append]
  rw [chunkFaults] at h
  by_cases hi : i < (wholeFaults ε crates limits (wholeRecords (file.take n))).length
  · rw [List.getElem?_append_left hi] at h
    rw [happend, List.getElem?_append_left hi, h]
  · rw [List.getElem?_append_right (Nat.le_of_not_lt hi)] at h
    cases partFaults_eq_none hhead _ (List.mem_of_getElem? h)

/-- A recording that is read to the end, and cut behind `n` bytes: the read ends well, calls the
callback with the first of the same transforms, says that the recording is truncated exactly if
the cut is not behind a record, and counts only chunks as bad, or over a limit, that the read of
the whole recording counts. -/
theorem readTf_cut (hread : readTf crates roles verdict policy file = (.ok (), st))
    (hn : MAGIC.length ≤ n) (hcut : n < file.length →
      SafeCut ε crates policy.limits policy.maxRecordBytes.toNat file n) :
    ∃ st', readTf crates roles verdict policy (file.take n) = (.ok (), st') ∧
      st'.emitted <+: st.emitted ∧
      (st'.skips.truncated = true ↔ ¬ EndsAtRecord (file.take n)) ∧
      Counted st'.skips (chunkFaults ε crates policy.limits (file.take n)) ∧
      Counted st.skips (chunkFaults ε crates policy.limits file) ∧
      ∀ (i : ℕ) (kind : BadChunkKind),
        (chunkFaults ε crates policy.limits (file.take n))[i]? = some (some kind) →
        (chunkFaults ε crates policy.limits file)[i]? = some (some kind) := by
  have hmagic := magic_of_readTf hread
  by_cases hlt : n < file.length
  · obtain ⟨hhead, hstored, hresync⟩ := hcut hlt
    have hlen : (file.take n).length = n := List.length_take_of_le hlt.le
    have hmagic' : (file.take n).take MAGIC.length = MAGIC := by
      rw [List.take_take, Nat.min_eq_left hn, hmagic]
    obtain ⟨hwhole, hlast⟩ := wholeRecords_cut hmagic hn
    have hwalk := hread
    rw [readTf_eq hmagic, hwhole, hlast] at hwalk
    have hbytes : (encodeFrames (wholeRecords (file.take n)) ++ lastPart (file.take n)).length ≤
        n := by
      rw [← drop_magic_eq, List.length_drop]
      omega
    obtain ⟨st', hread', hemitted⟩ := readRecords_cut fits_wholeRecords hbytes hresync
      (fun ordinal t => readPartial_cut (nextFrame_lastPart _) hhead hstored) hwalk
    have hread'' : readTf crates roles verdict policy (file.take n) = (.ok (), st') := by
      rw [readTf_eq hmagic', hlen, hread']
    exact ⟨st', hread'', hemitted, readTf_truncated_iff hread'', readTf_counted hread'',
      readTf_counted hread, fun i kind h => chunkFaults_cut hmagic hn hhead h⟩
  · rw [List.take_of_length_le (Nat.le_of_not_lt hlt)]
    exact ⟨st, hread, List.prefix_rfl, readTf_truncated_iff hread, readTf_counted hread,
      readTf_counted hread, fun _ _ h => h⟩

end Cut

/-! ## Chunks that are cut -/

/-- The read with a callback that accepts everything. -/
def readAll (policy : ReadPolicy) (file : List UInt8) :
    Except (ReadError Unit) Unit × ReadState (BitVec 64) :=
  readTf tfCrates ⟨[], []⟩ (fun _ _ => .ok ()) policy file

/-- A chunk with a channel and one message. -/
def firstChunk : StoredChunk :=
  ⟨0, 0, 0, [⟨SCHEMA, schemaBody⟩, channelOf 1 "/tf", messageOf 1 (moved 20)]⟩

/-- Two more messages. -/
def moreMessages : List Frame := [messageOf 1 (moved 25), messageOf 1 (moved 30)]

/-- A recording of two chunks. -/
def twoChunks : List UInt8 := recording [.chunk firstChunk, .chunk ⟨0, 0, 0, moreMessages⟩] true

set_option maxRecDepth 20000 in
/-- Cut in its last message, the recording keeps two of its three transforms. -/
theorem readTf_cut_twoChunks : ∃ st', readAll skipPolicy (twoChunks.take 550) = (.ok (), st') ∧
    st'.emitted.length = 2 ∧ st'.emitted <+: (readAll skipPolicy twoChunks).2.emitted ∧
    st'.skips.truncated = true ∧ st'.skips.badChunks = 0 := by
  have hok : (readAll skipPolicy twoChunks).1.isOk = true := by decide
  have hread : readAll skipPolicy twoChunks = (.ok (), (readAll skipPolicy twoChunks).2) := by
    rcases hrun : readAll skipPolicy twoChunks with ⟨e | u, st⟩
    · rw [hrun] at hok
      cases hok
    · rfl
  have hsafe : SafeCut Unit tfCrates skipPolicy.limits skipPolicy.maxRecordBytes.toNat
      twoChunks 550 := by
    refine ⟨?_, ?_, ?_⟩
    · rintro body ⟨-, -, rfl⟩
      have hhead : (ChunkHead.parse (E := ReadError Unit)
          ((lastPart (twoChunks.take 550)).drop frameHeader)).isOk = true := by
        decide
      cases hparse : ChunkHead.parse (E := ReadError Unit)
          ((lastPart (twoChunks.take 550)).drop frameHeader) with
      | error e =>
        rw [hparse] at hhead
        cases hhead
      | ok head => exact ⟨head, rfl⟩
    · rintro body head f rest ⟨-, -, rfl⟩ hparse - hnext
      have hsize : (ChunkHead.parse (E := ReadError Unit)
          ((lastPart (twoChunks.take 550)).drop frameHeader)).toOption.all (fun head =>
            ((lastPart (twoChunks.take 550)).drop frameHeader).length ≤
              head.recordsAt + head.compressedSize) = true := by
        decide
      have hwhole : (nextFrame (lastPart (twoChunks.take 550) ++ twoChunks.drop 550)).all
          (fun x => (chunkField Unit tfCrates skipPolicy.limits x.1.body true).isOk) = true := by
        decide
      rw [hparse] at hsize
      rw [hnext] at hwhole
      refine ⟨?_, of_decide_eq_true hsize⟩
      cases hfield : chunkField Unit tfCrates skipPolicy.limits f.body true with
      | error e =>
        rw [Option.all_some, hfield] at hwhole
        cases hwhole
      | ok records => exact ⟨records, rfl⟩
    · intro f hf hlarge
      have hsmall : (wholeRecords (twoChunks.take 550)).getLast?.all (fun f =>
          f.body.length ≤ skipPolicy.maxRecordBytes.toNat) = true := by
        decide
      rw [Option.mem_def.mp hf] at hsmall
      exact absurd hlarge (Nat.not_lt.mpr (of_decide_eq_true hsmall))
  obtain ⟨st', hread', hemitted, htruncated, ⟨hbad, -⟩, -⟩ :=
    readTf_cut hread (by decide) fun _ => hsafe
  have hstate : st' = (readAll skipPolicy (twoChunks.take 550)).2 :=
    (congrArg Prod.snd hread').symm
  have hpart : ¬ EndsAtRecord (twoChunks.take 550) := by decide
  have hfaults : (chunkFaults Unit tfCrates skipPolicy.limits (twoChunks.take 550)).countP
      Option.isSome = 0 := by
    decide
  have hcount : (readAll skipPolicy (twoChunks.take 550)).2.emitted.length = 2 := by
    decide
  exact ⟨st', hread', hstate ▸ hcount, hemitted, htruncated.mpr hpart, hbad.trans hfaults⟩

/-- Whether a read ends well, how many transforms it hands on, and how many chunks are bad. -/
def outcome (policy : ReadPolicy) (file : List UInt8) : Bool × ℕ × ℕ :=
  let out := readAll policy file
  (out.1.isOk, out.2.emitted.length, out.2.skips.badChunks)

/-- One chunk that fails its CRC. -/
def wrongCrc : List UInt8 := recording [.chunk ⟨0, 0, 5, firstChunk.records ++ moreMessages⟩] true

/-- A chunk with messages behind its records. -/
def longChunk : List UInt8 :=
  recording [.record ⟨CHUNK, firstChunk.body ++ encodeFrames moreMessages⟩] true

/-- A record of 500 bytes that the reader does not need, and a chunk. -/
def attached : List UInt8 :=
  recording [.record ⟨0x09, List.replicate 500 0⟩, .chunk firstChunk] true

set_option maxRecDepth 20000 in
/-- What the reader makes of other cuts. Inside the head of a chunk, a cut is a bad chunk, or an
error; of a chunk that is refused for its CRC, messages are read, and so are those behind the
records of a chunk; in the header behind a record that was skipped, a cut is an error. -/
theorem cuts_taken_for_damage :
    (outcome skipPolicy twoChunks = (true, 3, 0) ∧
      outcome skipPolicy (twoChunks.take 27) = (true, 0, 1)) ∧
    (outcome { skipPolicy with onBad := .halt } twoChunks = (true, 3, 0) ∧
      outcome { skipPolicy with onBad := .halt } (twoChunks.take 27) = (false, 0, 0)) ∧
    (outcome skipPolicy wrongCrc = (true, 0, 1) ∧
      outcome skipPolicy (wrongCrc.take 480) = (true, 2, 0)) ∧
    (outcome skipPolicy longChunk = (true, 1, 0) ∧
      outcome skipPolicy (longChunk.take 480) = (true, 2, 0)) ∧
    outcome { skipPolicy with maxRecordBytes := 400 } attached = (true, 1, 0) ∧
      outcome { skipPolicy with maxRecordBytes := 400 } (attached.take 520) = (false, 0, 0) := by
  refine ⟨⟨?_, ?_⟩, ⟨?_, ?_⟩, ⟨?_, ?_⟩, ⟨?_, ?_⟩, ?_, ?_⟩
  all_goals decide

end TfTree.Mcap
