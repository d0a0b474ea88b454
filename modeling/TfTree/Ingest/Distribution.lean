import Mathlib
import TfTree.Ingest.Contribution

/-!
# Records at top level and in chunks

A recording whose chunks are complete, stored and sound reads as the recording that has the
records of the chunks at top level: the walk inside a chunk and the walk over the file do the
same with them.

Results:
* `readChunk_body`: a sound stored chunk is its records.
* `readLoop_parts`: the walk over the file, part by part.
* `readTf_distribution`: the distribution of the records does not matter.
-/

namespace TfTree.Mcap

open Data Cdr

/-! ## Recordings -/

/-- A stored chunk. -/
structure StoredChunk where
  start : ℕ
  stop : ℕ
  crc : ℕ
  records : List Frame

/-- The body of the chunk record. -/
def StoredChunk.body (c : StoredChunk) : List UInt8 :=
  let size := leBytes 8 (encodeFrames c.records).length
  leBytes 8 c.start ++ leBytes 8 c.stop ++ size ++ leBytes 4 c.crc ++ leBytes 4 0 ++ size ++
    encodeFrames c.records

/-- A top-level record of a recording. -/
inductive Part where
  | record (f : Frame)
  | chunk (c : StoredChunk)

/-- The part as a record. -/
def Part.frame : Part → Frame
  | .record f => f
  | .chunk c => ⟨CHUNK, c.body⟩

/-- The records that the part holds. -/
def Part.records : Part → List Frame
  | .record f => [f]
  | .chunk c => c.records

/-- The records of a recording, in the order of the file. -/
def recordsOf (parts : List Part) : List Frame := parts.flatMap Part.records

/-- The recording with every record at top level. -/
def atTop (fs : List Frame) : List Part := fs.map .record

/-- What follows the last record: the closing magic, or nothing. -/
def closing (closed : Bool) : List UInt8 := if closed then MAGIC else []

/-- The bytes of a recording. -/
def recording (parts : List Part) (closed : Bool) : List UInt8 :=
  MAGIC ++ (encodeFrames (parts.map Part.frame) ++ closing closed)

/-- A chunk has a sound CRC or none, and is not longer than the limit. -/
def Part.Sound (crates : Crates) (policy : ReadPolicy) : Part → Prop
  | .record _ => True
  | .chunk c =>
    (c.crc = 0 ∨ c.crc = (crates.crc32 (encodeFrames c.records)).toNat) ∧
      c.body.length ≤ policy.maxRecordBytes.toNat

instance (crates : Crates) (policy : ReadPolicy) (part : Part) :
    Decidable (part.Sound crates policy) :=
  match part with
  | .record _ => inferInstanceAs (Decidable True)
  | .chunk _ => inferInstanceAs (Decidable (_ ∧ _))

/-- A record that is not a chunk, with a length that the header can hold. -/
def Plain (f : Frame) : Prop := f.tag ≠ CHUNK ∧ f.Fits

instance (f : Frame) : Decidable (Plain f) :=
  inferInstanceAs (Decidable (_ ∧ f.body.length < 2 ^ 64))

/-- The record behind one that is over the limit has an opcode that `resyncs_here` knows. -/
def Resyncs (policy : ReadPolicy) (fs : List Frame) : Prop :=
  fs.IsChain fun f g =>
    f.body.length > policy.maxRecordBytes.toNat → HEADER ≤ g.tag ∧ g.tag ≤ DATA_END

instance (policy : ReadPolicy) (fs : List Frame) : Decidable (Resyncs policy fs) :=
  inferInstanceAs (Decidable (List.IsChain _ fs))

/-! ## A chunk -/

theorem numberIn_here {n x : ℕ} (hx : x < 256 ^ n) (rest : List UInt8) :
    numberIn (leBytes n x ++ rest) 0 n = x := by
  rw [numberIn, List.drop_zero, List.take_append_of_le_length (by simp),
    List.take_of_length_le (by simp), ofLe_leBytes hx]

theorem numberIn_skip (m y k n : ℕ) (rest : List UInt8) :
    numberIn (leBytes m y ++ rest) (m + k) n = numberIn rest k n := by
  have hdrop : (leBytes m y ++ rest).drop m = rest := by
    rw [List.drop_append_of_le_length (by simp), List.drop_of_length_le (by simp),
      List.nil_append]
  rw [numberIn, ← List.drop_drop, hdrop, numberIn]

section Chunk

variable {E : Type} {c : StoredChunk}

theorem StoredChunk.length_body (c : StoredChunk) :
    c.body.length = FIXED + 8 + (encodeFrames c.records).length := by
  simp [StoredChunk.body, FIXED]
  omega

/-- The header of the body is read back. -/
theorem StoredChunk.parse_body (hcrc : c.crc < 256 ^ 4)
    (hsize : (encodeFrames c.records).length < 256 ^ 8) :
    ChunkHead.parse (E := E) c.body = .ok ⟨(encodeFrames c.records).length, c.crc, .none,
      (encodeFrames c.records).length, FIXED + 8⟩ := by
  have hlen := c.length_body
  have huncompressed : numberIn c.body (8 + (8 + 0)) 8 = (encodeFrames c.records).length := by
    simp only [body, List.append_assoc]
    rw [numberIn_skip, numberIn_skip, numberIn_here hsize]
  have hcrcIn : numberIn c.body (8 + (8 + (8 + 0))) 4 = c.crc := by
    simp only [body, List.append_assoc]
    rw [numberIn_skip, numberIn_skip, numberIn_skip, numberIn_here hcrc]
  have hname : numberIn c.body (8 + (8 + (8 + (4 + 0)))) 4 = 0 := by
    simp only [body, List.append_assoc]
    rw [numberIn_skip, numberIn_skip, numberIn_skip, numberIn_skip, numberIn_here (by decide)]
  have hcompressed : numberIn c.body FIXED 8 = (encodeFrames c.records).length := by
    rw [show FIXED = 8 + (8 + (8 + (4 + (4 + 0)))) from rfl]
    simp only [body, List.append_assoc]
    rw [numberIn_skip, numberIn_skip, numberIn_skip, numberIn_skip, numberIn_skip,
      numberIn_here hsize]
  have hempty : Cdr.Reader.fromUtf8 ((c.body.drop FIXED).take 0) = some "" := by
    rw [List.take_zero]
    decide
  rw [ChunkHead.parse, if_neg (by omega)]
  simp only [Nat.add_zero, Nat.reduceAdd] at huncompressed hcrcIn hname
  simp only [hname, huncompressed, hcrcIn, hcompressed, Nat.add_zero, hempty]
  rw [if_neg (by omega)]
  rfl

/-- The records field of a sound chunk. -/
theorem StoredChunk.chunkRecords_body {codecs : Codecs} {limits : ChunkLimits}
    (hcrc : c.crc = 0 ∨ c.crc = (codecs.crc32 (encodeFrames c.records)).toNat)
    (hsize : (encodeFrames c.records).length < 256 ^ 8) :
    chunkRecords (E := E) codecs limits c.body true = .ok (encodeFrames c.records) := by
  have hcrcLt : c.crc < 256 ^ 4 := by
    rcases hcrc with h0 | hsame
    · rw [h0]
      decide
    · rw [hsame]
      exact UInt32.toNat_lt _
  have hdrop : c.body.drop (FIXED + 8) = encodeFrames c.records := by
    have hlen := c.length_body
    rw [body]
    exact List.drop_left' (by simp [FIXED])
  have havailable : c.body.length - (FIXED + 8) = (encodeFrames c.records).length := by
    have hlen := c.length_body
    omega
  have hcheck : checkCrc (E := E) codecs (encodeFrames c.records) c.crc = .ok () := by
    rw [checkCrc]
    rcases hcrc with h0 | hsame
    · rw [if_pos h0]
    · split_ifs with h0
      · rfl
      · exact if_neg (not_not.mpr hsame.symm)
  have hpayload : declaredPayload (E := E) ⟨(encodeFrames c.records).length, c.crc, .none,
      (encodeFrames c.records).length, FIXED + 8⟩ c.body = .ok (encodeFrames c.records) := by
    rw [declaredPayload]
    simp only [havailable, hdrop, le_refl, if_true, List.take_length]
  have hstored : storedRecords (E := E) codecs ⟨(encodeFrames c.records).length, c.crc, .none,
      (encodeFrames c.records).length, FIXED + 8⟩ c.body true = .ok (encodeFrames c.records) := by
    rw [storedRecords, if_pos rfl, hpayload]
    change (if _ then _ else (checkCrc codecs (encodeFrames c.records) c.crc >>= _)) = _
    rw [if_neg (by simp), hcheck]
    rfl
  rw [chunkRecords, StoredChunk.parse_body hcrcLt hsize]
  exact hstored

end Chunk

/-- Whole records are the records of their bytes. -/
theorem framesOf_encode {fs : List Frame} (h : ∀ f ∈ fs, f.Fits) :
    framesOf (encodeFrames fs) = fs ∧ tailOf (encodeFrames fs) = [] :=
  (framed_split (encodeFrames fs)).unique ⟨(List.append_nil _).symm, h, rfl⟩

section Parts

variable {F ε : Type} [LeBytes F] {crates : Crates} {roles : TopicRoles}
  {verdict : List (RawRecord F) → RawRecord F → Except ε Unit} {policy : ReadPolicy}
  {st : ReadState F} {parts : List Part} {fs : List Frame}

/-- A sound chunk is its records. -/
theorem readChunk_body {c : StoredChunk} (hc : (Part.chunk c).Sound crates policy)
    (hfits : ∀ f ∈ c.records, f.Fits) (ordinal : ℕ) :
    readChunk crates roles verdict policy c.body true ordinal st =
      runAll (handle crates roles verdict) c.records st := by
  obtain ⟨hcrc, hlimit⟩ := hc
  have hsize : (encodeFrames c.records).length < 256 ^ 8 := by
    have hlen := c.length_body
    have hmax := policy.maxRecordBytes.toNat_lt
    omega
  obtain ⟨hframes, htail⟩ := framesOf_encode hfits
  rw [readChunk, StoredChunk.chunkRecords_body hcrc hsize]
  simp only [forEachRecord_eq, hframes, htail]
  rcases runAll (handle crates roles verdict) c.records st with ⟨e | u, t⟩
  · rfl
  · rfl

/-- What the walk over the file does with a part. -/
def readPart (crates : Crates) (roles : TopicRoles)
    (verdict : List (RawRecord F) → RawRecord F → Except ε Unit) (policy : ReadPolicy)
    (part : Part) (st : ReadState F) : Except (ReadError ε) Unit × ReadState F :=
  match part with
  | .record f =>
    if f.body.length > policy.maxRecordBytes.toNat then
      if readerNeeds f.tag then
        (.error (.recordTooLarge f.body.length policy.maxRecordBytes.toNat), st)
      else
        (.ok (), { st with
          skips.oversizedRecordsSkipped := st.skips.oversizedRecordsSkipped + 1 })
    else handle crates roles verdict f.tag f.body st
  | .chunk c => runAll (handle crates roles verdict) c.records st

/-- The walk over the file, part by part. -/
def readParts (crates : Crates) (roles : TopicRoles)
    (verdict : List (RawRecord F) → RawRecord F → Except ε Unit) (policy : ReadPolicy) :
    List Part → ReadState F → Except (ReadError ε) Unit × ReadState F
  | [], st => (.ok (), st)
  | part :: parts, st =>
    andThen (readPart crates roles verdict policy part st)
      (readParts crates roles verdict policy parts)

/-- The reader is in step after a skipped record. -/
theorem resyncsHere_parts {fileLen : ℕ} {closed : Bool}
    (hfits : ∀ part ∈ parts, part.frame.Fits)
    (htag : ∀ part ∈ parts.head?, HEADER ≤ part.frame.tag ∧ part.frame.tag ≤ DATA_END)
    (hlen : (encodeFrames (parts.map Part.frame)).length ≤ fileLen) :
    resyncsHere (encodeFrames (parts.map Part.frame) ++ closing closed) fileLen = true := by
  cases parts with
  | nil =>
    cases closed with
    | false => rfl
    | true => rfl
  | cons part parts =>
    obtain ⟨hlow, hhigh⟩ := htag part rfl
    rw [List.map_cons, encodeFrames_cons, List.length_append, Frame.length_encode] at hlen
    rw [List.map_cons, encodeFrames_cons, List.append_assoc, resyncsHere]
    generalize encodeFrames (parts.map Part.frame) ++ closing closed = tail
    have hhead := length_take_encode part.frame tail
    have hopcode : ((part.frame.encode ++ tail).take frameHeader).headD 0 = part.frame.tag := rfl
    simp only [hhead, hopcode, frameLen_encode (hfits part List.mem_cons_self)]
    rw [if_neg (by decide), if_neg (by rintro ⟨h, -⟩; exact absurd h (by decide)),
      if_pos trivial, decide_eq_true_iff]
    exact ⟨hlow, hhigh, by omega⟩

omit [LeBytes F] in
theorem Part.fits {part : Part} (hsound : part.Sound crates policy)
    (hplain : ∀ f ∈ part.records, Plain f) : part.frame.Fits := by
  cases part with
  | record f => exact (hplain f (List.mem_singleton_self f)).2
  | chunk c => exact hsound.2.trans_lt policy.maxRecordBytes.toNat_lt

omit [LeBytes F] in
/-- What comes behind a part over the limit has an opcode that `resyncs_here` knows. -/
theorem tag_behind {part p : Part} (hsound : part.Sound crates policy)
    (h : Resyncs policy (recordsOf (part :: parts)))
    (hlarge : part.frame.body.length > policy.maxRecordBytes.toNat) (hp : p ∈ parts.head?) :
    HEADER ≤ p.frame.tag ∧ p.frame.tag ≤ DATA_END := by
  cases part with
  | chunk c => exact absurd hlarge (Nat.not_lt.mpr hsound.2)
  | record f =>
    cases p with
    | chunk c =>
      change HEADER ≤ CHUNK ∧ CHUNK ≤ DATA_END
      decide
    | record g =>
      obtain ⟨parts, rfl⟩ := List.head?_eq_some_iff.mp hp
      have hpair : (f :: g :: recordsOf parts).IsChain _ := h
      exact (List.isChain_cons_cons.mp hpair).1 hlarge

/-- One part. -/
theorem readLoop_part {part : Part} {fileLen fuel ordinal : ℕ} {tail : List UInt8}
    (hsound : part.Sound crates policy) (hplain : ∀ f ∈ part.records, Plain f)
    (hresync : part.frame.body.length > policy.maxRecordBytes.toNat →
      resyncsHere tail fileLen = true)
    (hlen : part.frame.body.length ≤ fileLen) :
    ∃ ordinal', readLoop crates roles verdict policy fileLen (fuel + 1) ordinal
        (part.frame.encode ++ tail) st =
      andThen (readPart crates roles verdict policy part st)
        (readLoop crates roles verdict policy fileLen fuel ordinal' tail) := by
  have hfits := Part.fits hsound hplain
  have hhead := length_take_encode part.frame tail
  have htag : (part.frame.encode ++ tail).headD 0 = part.frame.tag := rfl
  have htake : (part.frame.body ++ tail).take (min part.frame.body.length fileLen) =
      part.frame.body := by
    rw [Nat.min_eq_left hlen, List.take_left]
  rw [readLoop]
  simp only [hhead, htag, frameLen_encode hfits, drop_encode, htake, List.drop_left, decide_true,
    if_true]
  rw [if_neg (by decide), if_neg (by rintro ⟨h, -⟩; exact absurd h (by decide)),
    if_neg (Nat.lt_irrefl _)]
  cases part with
  | chunk c =>
    have hread : readChunk crates roles verdict policy c.body true ordinal st = _ :=
      readChunk_body hsound (fun f hf => (hplain f hf).2) ordinal
    have hlimit : ¬ (Part.chunk c).frame.body.length > policy.maxRecordBytes.toNat :=
      Nat.not_lt.mpr hsound.2
    refine ⟨ordinal + 1, ?_⟩
    rw [if_neg hlimit]
    simp only [Part.frame, readBody, if_true, hread, readPart]
  | record f =>
    obtain ⟨hchunk, -⟩ := hplain f (List.mem_singleton_self f)
    refine ⟨ordinal, ?_⟩
    simp only [Part.frame, readPart, readBody, hchunk, if_false, if_true] at hresync ⊢
    by_cases hlarge : f.body.length > policy.maxRecordBytes.toNat
    · have hshort : ¬ f.body.length > (f.body ++ tail).length := by
        rw [List.length_append]
        omega
      simp only [if_pos hlarge, if_neg hshort, hresync hlarge]
      by_cases hneeds : readerNeeds f.tag = true
      · simp only [if_pos hneeds]
        rfl
      · simp only [if_neg hneeds]
        rfl
    · simp only [if_neg hlarge]

/-- The walk over the file, part by part. -/
theorem readLoop_parts {fileLen fuel ordinal : ℕ} {closed : Bool}
    (hsound : ∀ part ∈ parts, part.Sound crates policy)
    (hplain : ∀ f ∈ recordsOf parts, Plain f) (hresyncs : Resyncs policy (recordsOf parts))
    (hlen : (encodeFrames (parts.map Part.frame)).length ≤ fileLen)
    (hfuel : parts.length < fuel) :
    readLoop crates roles verdict policy fileLen fuel ordinal
        (encodeFrames (parts.map Part.frame) ++ closing closed) st =
      readParts crates roles verdict policy parts st := by
  induction parts generalizing fuel ordinal st with
  | nil =>
    cases fuel with
    | zero => rfl
    | succ fuel =>
      cases closed with
      | false => rfl
      | true => rfl
  | cons part parts ih =>
    obtain ⟨fuel, rfl⟩ : ∃ n, fuel = n + 1 := ⟨fuel - 1, by omega⟩
    rw [List.map_cons, encodeFrames_cons, List.length_append, Frame.length_encode] at hlen
    have hhead : ∀ f ∈ part.records, Plain f :=
      fun f hf => hplain f (List.mem_append_left _ hf)
    have hrest : ∀ f ∈ recordsOf parts, Plain f :=
      fun f hf => hplain f (List.mem_append_right _ hf)
    have hsounds : ∀ part ∈ parts, part.Sound crates policy :=
      fun part hpart => hsound part (List.mem_cons_of_mem _ hpart)
    have hresyncs' : Resyncs policy (recordsOf parts) := hresyncs.right_of_append
    have hresync : part.frame.body.length > policy.maxRecordBytes.toNat →
        resyncsHere (encodeFrames (parts.map Part.frame) ++ closing closed) fileLen = true := by
      intro hlarge
      refine resyncsHere_parts (fun p hp => ?_) (fun p hp => ?_) (by omega)
      · exact Part.fits (hsounds p hp) fun f hf => hrest f (List.mem_flatMap.mpr ⟨p, hp, hf⟩)
      · exact tag_behind (hsound part List.mem_cons_self) hresyncs hlarge hp
    have hbody : part.frame.body.length ≤ fileLen := by omega
    have hfuel' : parts.length < fuel := Nat.lt_of_succ_lt_succ hfuel
    obtain ⟨ordinal', hstep⟩ := @readLoop_part F ε _ crates roles verdict policy st
      part fileLen fuel ordinal _ (hsound part List.mem_cons_self) hhead hresync hbody
    rw [List.map_cons, encodeFrames_cons, List.append_assoc, hstep, readParts]
    exact congrArg (andThen _) (funext fun t => ih hsounds hrest hresyncs' (by omega) hfuel')

/-! ## The same records in another distribution -/

theorem readParts_append (parts' : List Part) :
    readParts crates roles verdict policy (parts ++ parts') st =
      andThen (readParts crates roles verdict policy parts st)
        (readParts crates roles verdict policy parts') := by
  induction parts generalizing st with
  | nil => rfl
  | cons part parts ih =>
    rw [List.cons_append, readParts, readParts]
    rcases readPart crates roles verdict policy part st with ⟨e | u, t⟩
    · rfl
    · exact ih

/-- Records within the limit at top level. -/
theorem readParts_atTop (h : ∀ f ∈ fs, f.body.length ≤ policy.maxRecordBytes.toNat) :
    readParts crates roles verdict policy (atTop fs) st =
      runAll (handle crates roles verdict) fs st := by
  induction fs generalizing st with
  | nil => rfl
  | cons f fs ih =>
    have hlimit : ¬ f.body.length > policy.maxRecordBytes.toNat :=
      Nat.not_lt.mpr (h f List.mem_cons_self)
    change andThen (readPart crates roles verdict policy (.record f) st)
      (readParts crates roles verdict policy (atTop fs)) = _
    rw [readPart, if_neg hlimit, runAll]
    congr 1
    funext t
    exact ih fun f hf => h f (List.mem_cons_of_mem _ hf)

/-- A record is not longer than the records it is among. -/
theorem length_le_encodeFrames {f : Frame} (hf : f ∈ fs) :
    f.body.length ≤ (encodeFrames fs).length := by
  induction fs with
  | nil => cases hf
  | cons g gs ih =>
    rw [encodeFrames_cons, List.length_append, Frame.length_encode]
    rcases List.mem_cons.mp hf with rfl | hf
    · omega
    · have := ih hf
      omega

theorem readParts_records (hsound : ∀ part ∈ parts, part.Sound crates policy) :
    readParts crates roles verdict policy parts st =
      readParts crates roles verdict policy (atTop (recordsOf parts)) st := by
  induction parts generalizing st with
  | nil => rfl
  | cons part parts ih =>
    have hhead : readPart crates roles verdict policy part st =
        readParts crates roles verdict policy (atTop part.records) st := by
      cases part with
      | record f =>
        change _ = andThen (readPart crates roles verdict policy (.record f) st) _
        rcases readPart crates roles verdict policy (.record f) st with ⟨e | u, t⟩
        · rfl
        · rfl
      | chunk c =>
        refine (readParts_atTop fun f hf => ?_).symm
        have hlimit := (hsound (.chunk c) List.mem_cons_self).2
        rw [c.length_body] at hlimit
        exact (length_le_encodeFrames hf).trans (by omega)
    have hsplit : atTop (recordsOf (part :: parts)) =
        atTop part.records ++ atTop (recordsOf parts) := List.map_append
    rw [readParts, hhead, hsplit, readParts_append]
    congr 1
    funext t
    exact ih fun part hpart => hsound part (List.mem_cons_of_mem _ hpart)

/-- Every part has bytes. -/
theorem length_le_encode_parts (parts : List Part) :
    parts.length ≤ (encodeFrames (parts.map Part.frame)).length := by
  induction parts with
  | nil => exact Nat.zero_le _
  | cons part parts ih =>
    rw [List.map_cons, encodeFrames_cons, List.length_append, Frame.length_encode,
      List.length_cons, frameHeader]
    omega

/-- The file, part by part. -/
theorem readTf_parts {closed : Bool} (hsound : ∀ part ∈ parts, part.Sound crates policy)
    (hplain : ∀ f ∈ recordsOf parts, Plain f) (hresyncs : Resyncs policy (recordsOf parts)) :
    readTf crates roles verdict policy (recording parts closed) =
      readParts crates roles verdict policy parts (.start F) := by
  have htake : (recording parts closed).take MAGIC.length = MAGIC := List.take_left
  have hdrop : (recording parts closed).drop MAGIC.length =
      encodeFrames (parts.map Part.frame) ++ closing closed := List.drop_left
  have hsqlite : ¬ SQLITE_MAGIC.isPrefixOf (recording parts closed) = true := by
    simp [SQLITE_MAGIC, recording, MAGIC]
  have hlen : (encodeFrames (parts.map Part.frame)).length ≤ (recording parts closed).length := by
    simp only [recording, List.length_append]
    omega
  have hcount : parts.length ≤ (encodeFrames (parts.map Part.frame)).length :=
    length_le_encode_parts parts
  rw [readTf, if_neg hsqlite, if_neg (not_not.mpr htake), hdrop]
  refine readLoop_parts hsound hplain hresyncs hlen ?_
  rw [List.length_append]
  omega

theorem recordsOf_atTop (fs : List Frame) : recordsOf (atTop fs) = fs := by
  induction fs with
  | nil => rfl
  | cons f fs ih => exact congrArg (f :: ·) ih

/-- The read depends on the records alone, not on where they are. -/
theorem readTf_distribution {closed : Bool}
    (hsound : ∀ part ∈ parts, part.Sound crates policy)
    (hplain : ∀ f ∈ recordsOf parts, Plain f) (hresyncs : Resyncs policy (recordsOf parts)) :
    readTf crates roles verdict policy (recording parts closed) =
      readTf crates roles verdict policy (recording (atTop (recordsOf parts)) closed) := by
  have htop : ∀ part ∈ atTop (recordsOf parts), part.Sound crates policy := by
    intro part hpart
    obtain ⟨f, -, rfl⟩ := List.mem_map.mp hpart
    trivial
  have hsame := recordsOf_atTop (recordsOf parts)
  calc readTf crates roles verdict policy (recording parts closed)
      = readParts crates roles verdict policy parts (.start F) :=
        readTf_parts hsound hplain hresyncs
    _ = readParts crates roles verdict policy (atTop (recordsOf parts)) (.start F) :=
        readParts_records hsound
    _ = readTf crates roles verdict policy (recording (atTop (recordsOf parts)) closed) :=
        (readTf_parts htop (hsame.symm ▸ hplain) (hsame.symm ▸ hresyncs)).symm

end Parts

/-! ## Where the distribution shows -/

/-- A channel record: its ids, its topic and its encoding, without metadata. -/
def channelBody : List UInt8 :=
  leBytes 2 1 ++ leBytes 2 1 ++ leBytes 4 3 ++ "/tf".toByteArray.data.toList ++ leBytes 4 4 ++
    "json".toByteArray.data.toList ++ leBytes 4 0

/-- A schema and a channel on it. -/
def announced : List Frame := [⟨SCHEMA, schemaBody⟩, ⟨CHANNEL, channelBody⟩]

/-- The other crates, as they are on the recordings of `announced`. -/
def announcingCrates : Crates where
  __ := plainCrates
  crc32 _ := 0xbc3fdb70
  parseRecord opcode _ :=
    if opcode = SCHEMA then .ok (.schema 1 "tf2_msgs/TFMessage")
    else if opcode = CHANNEL then .ok (.channel 1 1 "/tf" "json")
    else .ok .other

/-- The read of a recording, with a callback that accepts everything. -/
def announcedRead (limit : UInt64) (parts : List Part) :
    Except (ReadError Unit) Unit × ReadState (BitVec 64) :=
  readTf announcingCrates ⟨[], []⟩ (fun _ _ => .ok ())
    { skipPolicy with maxRecordBytes := limit } (recording parts true)

/-- The channels that were counted as not CDR. -/
def nonCdrOf (limit : UInt64) (parts : List Part) : ℕ :=
  (announcedRead limit parts).2.skips.nonCdr

/-- A chunk of records, with the CRC `crc`. -/
def chunkOf (crc : ℕ) (fs : List Frame) : Part := .chunk ⟨0, 0, crc, fs⟩

/-- A record with an opcode for private use. -/
def privateRecord : Frame := ⟨0x80, []⟩

/-- A record over the limit of 128 bytes, with an opcode that the reader does not need. -/
def longRecord : Frame := ⟨0x09, List.replicate 129 0⟩

set_option maxRecDepth 10000 in
/-- A chunk as a record of a chunk, a chunk with an unsound CRC, and a record with a private
opcode behind one over the limit. -/
theorem distribution_shows :
    (nonCdrOf 256 [chunkOf 0 [(chunkOf 0 announced).frame]] = 0 ∧
      nonCdrOf 256 (atTop [(chunkOf 0 announced).frame]) = 1) ∧
    (nonCdrOf 128 [chunkOf 1 announced] = 0 ∧ nonCdrOf 128 (atTop announced) = 1) ∧
    (nonCdrOf 128 [.record longRecord, chunkOf 0 (privateRecord :: announced)] = 1 ∧
      nonCdrOf 128 (atTop (longRecord :: privateRecord :: announced)) = 0) := by
  refine ⟨⟨?_, ?_⟩, ⟨?_, ?_⟩, ?_, ?_⟩
  · decide
  · decide
  · decide
  · decide
  · decide
  · decide

set_option maxRecDepth 10000 in
/-- The announcement in a chunk with a sound CRC, behind a record over the limit. -/
theorem readTf_distribution_announced :
    announcedRead 128 [.record longRecord, chunkOf 0xbc3fdb70 announced] =
      announcedRead 128 (atTop (longRecord :: announced)) := by
  refine readTf_distribution ?_ ?_ ?_
  · decide
  · decide
  · decide

end TfTree.Mcap
