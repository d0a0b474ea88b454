import Mathlib
import TfTree.Data.Frames
import TfTree.Ingest.Cdr

/-!
# Chunks of an MCAP recording

`tf_tree_ingest/src/decompress.rs`: the header of a chunk, the checks on its records field,
and the walk over the records inside. The decoders, the CRC32 and the parser of record
bodies are other crates, and parameters here.

Results:
* `forEachRecord_eq`: the walk hands on the whole records in front of the first fault.
-/

namespace TfTree.Mcap

open Data

/-! ## Model of `decompress.rs` -/

/-- `ChunkCodec`. -/
inductive ChunkCodec where
  | none
  | zstd
  | lz4
  | other
  deriving DecidableEq, Repr

/-- `BadChunkKind`. -/
inductive BadChunkKind where
  | decompress (codec : ChunkCodec)
  | lengthMismatch (declared produced : ℕ)
  | crc (saved calculated : UInt32)
  | overrun (codec : ChunkCodec) (declared : ℕ)
  | implausibleSize (declared : ℕ)
  | compressedSizeMismatch (declared present : ℕ)
  | storedSizeMismatch (uncompressed compressed : ℕ)
  | implausibleWindow (requested ceiling : ℕ)
  | innerFraming (start : ℕ)
  deriving DecidableEq, Repr

/-- `ChunkFault`; `E` is the error of the callback. -/
inductive ChunkFault (E : Type) where
  | unsupported (codec : ChunkCodec)
  | bad (kind : BadChunkKind)
  | callback (e : E)
  deriving DecidableEq, Repr

/-- `ChunkLimits`. -/
structure ChunkLimits where
  maxUncompressedBytes : UInt64
  maxExpansionRatio : UInt64

/-- The errors of `ruzstd`'s `decode_all` that the reader tells apart. -/
inductive ZstdError where
  | targetTooSmall
  | windowSizeTooBig (requested : ℕ)
  | other

/-- The other crates that read chunks: the decoders, with whether they are built in, and
the hash. -/
structure Codecs where
  /-- The feature `compression`. -/
  compression : Bool
  /-- `decode_all` under a window ceiling, into `want` bytes. -/
  zstdDecodeAll : (ceiling : ℕ) → (payload : List UInt8) → (want : ℕ) →
    Except ZstdError (List UInt8)
  /-- `take(budget).read_to_end(..)` on the frame decoder. -/
  lz4ReadToEnd : (payload : List UInt8) → (budget : ℕ) → Option (List UInt8)
  /-- `crc32fast::hash`. -/
  crc32 : List UInt8 → UInt32

/-- `clamp_u32` (lines 469–471). -/
def clampU32 (v : ℕ) : ℕ := min v (2 ^ 32 - 1)

/-- `ChunkCodec::parse` (lines 40–47). -/
def ChunkCodec.parse (name : String) : ChunkCodec :=
  if name = "" then .none
  else if name = "zstd" then .zstd
  else if name = "lz4" then .lz4
  else .other

/-- `is_built_in` (lines 50–59). -/
def ChunkCodec.isBuiltIn (compression : Bool) : ChunkCodec → Bool
  | .none => true
  | .zstd | .lz4 => compression
  | .other => false

/-- The fixed part of a chunk record's header. -/
structure ChunkHead where
  uncompressedSize : ℕ
  uncompressedCrc : ℕ
  codec : ChunkCodec
  compressedSize : ℕ
  recordsAt : ℕ

/-- The fault of a record that does not fit. -/
def framing {E : Type} (start : ℕ) : ChunkFault E := .bad (.innerFraming (clampU32 start))

/-- The number of `n` bytes at an offset. -/
def numberIn (body : List UInt8) (start n : ℕ) : ℕ := ofLe ((body.drop start).take n)

/-- `FIXED`. -/
def FIXED : ℕ := 8 + 8 + 8 + 4 + 4

/-- `ChunkHead::parse` (lines 401–447). -/
def ChunkHead.parse {E : Type} (body : List UInt8) : Except (ChunkFault E) ChunkHead :=
  if body.length < FIXED then .error (framing body.length)
  else
    let afterName := FIXED + numberIn body 28 4
    let recordsAt := afterName + 8
    if recordsAt > body.length then .error (framing body.length)
    else .ok {
      uncompressedSize := numberIn body 16 8
      uncompressedCrc := numberIn body 24 4
      codec := match Cdr.Reader.fromUtf8 ((body.drop FIXED).take (numberIn body 28 4)) with
        | some s => ChunkCodec.parse s
        | none => .other
      compressedSize := numberIn body afterName 8
      recordsAt := recordsAt }

/-- `chunk_span` (lines 451–467). -/
def chunkSpan (body : List UInt8) : Option (ℕ × ℕ) :=
  if body.length < 16 then none
  else
    let start := numberIn body 0 8
    let stop := numberIn body 8 8
    if start = 0 ∧ stop = 0 then none else some (min start stop, max start stop)

section Model

variable {E : Type} (codecs : Codecs)

/-- `check_crc` (lines 474–483). -/
def checkCrc (records : List UInt8) (saved : ℕ) : Except (ChunkFault E) Unit :=
  if saved = 0 then .ok ()
  else
    let calculated := codecs.crc32 records
    if calculated.toNat ≠ saved then .error (.bad (.crc (UInt32.ofNat saved) calculated))
    else .ok ()

/-- `window_ceiling` (lines 314–316). -/
def windowCeiling (want : ℕ) : ℕ := max want (8 * 1024 * 1024)

/-- `decode_zstd` (lines 322–354). -/
def decodeZstd (payload : List UInt8) (want : ℕ) : Except (ChunkFault E) (List UInt8) :=
  let ceiling := windowCeiling want
  match codecs.zstdDecodeAll ceiling payload want with
  | .ok out =>
    if out.length = want then .ok out
    else .error (.bad (.lengthMismatch (clampU32 want) (clampU32 out.length)))
  | .error .targetTooSmall => .error (.bad (.overrun .zstd (clampU32 want)))
  | .error (.windowSizeTooBig requested) => .error (.bad (.implausibleWindow requested ceiling))
  | .error .other => .error (.bad (.decompress .zstd))

/-- `decode_lz4` (lines 361–386). -/
def decodeLz4 (payload : List UInt8) (want : ℕ) : Except (ChunkFault E) (List UInt8) :=
  match codecs.lz4ReadToEnd payload (want + 1) with
  | none => .error (.bad (.decompress .lz4))
  | some out =>
    if out.length = want then .ok out
    else if out.length < want then
      .error (.bad (.lengthMismatch (clampU32 want) (clampU32 out.length)))
    else .error (.bad (.overrun .lz4 (clampU32 want)))

/-- `decompress_into` (lines 285–298). -/
def decompressInto (codec : ChunkCodec) (payload : List UInt8) (want : ℕ) :
    Except (ChunkFault E) (List UInt8) :=
  match codec with
  | .zstd => decodeZstd codecs payload want
  | .lz4 => decodeLz4 codecs payload want
  | codec => .error (.unsupported codec)

/-- `payload_of(declared_fits()?)` (lines 210–217). -/
def declaredPayload (head : ChunkHead) (body : List UInt8) : Except (ChunkFault E) (List UInt8) :=
  let available := body.length - head.recordsAt
  if head.compressedSize ≤ available then
    .ok ((body.drop head.recordsAt).take head.compressedSize)
  else
    .error (.bad (.compressedSizeMismatch (clampU32 head.compressedSize) (clampU32 available)))

/-- The stored path of `chunk_records` (lines 219–236). -/
def storedRecords (head : ChunkHead) (body : List UInt8) (complete : Bool) :
    Except (ChunkFault E) (List UInt8) :=
  if complete then do
    let payload ← declaredPayload head body
    if head.uncompressedSize ≠ head.compressedSize then
      .error (.bad (.storedSizeMismatch (clampU32 head.uncompressedSize)
        (clampU32 head.compressedSize)))
    else do
      checkCrc codecs payload head.uncompressedCrc
      pure payload
  else .ok (body.drop head.recordsAt)

/-- The compressed path of `chunk_records` (lines 238–276). -/
def compressedRecords (limits : ChunkLimits) (head : ChunkHead) (body : List UInt8)
    (complete : Bool) : Except (ChunkFault E) (List UInt8) :=
  if !complete then .ok []
  else
    let declared := head.uncompressedSize
    if declared > limits.maxUncompressedBytes.toNat ∨
        declared > min (head.compressedSize * limits.maxExpansionRatio.toNat) (2 ^ 64 - 1) ∨
        declared > 2 ^ 63 - 1 then .error (.bad (.implausibleSize declared))
    else do
      let payload ← declaredPayload head body
      if payload = [] then .error (.bad (.decompress head.codec))
      else do
        let records ← decompressInto codecs head.codec payload declared
        checkCrc codecs records head.uncompressedCrc
        pure records

/-- `chunk_records` (lines 199–276). -/
def chunkRecords (limits : ChunkLimits) (body : List UInt8) (complete : Bool) :
    Except (ChunkFault E) (List UInt8) := do
  let head ← ChunkHead.parse body
  if !head.codec.isBuiltIn codecs.compression then .error (.unsupported head.codec)
  else if head.codec = .none then storedRecords codecs head body complete
  else compressedRecords codecs limits head body complete

end Model

/-- A callback on the opcode and the body of a record, with its state. -/
abbrev Handler (σ E : Type) := UInt8 → List UInt8 → σ → Except E Unit × σ

/-- The operator `?` behind a call, and the code that follows it. -/
def andThen {σ E : Type} (call : Except E Unit × σ) (next : σ → Except E Unit × σ) :
    Except E Unit × σ :=
  match call with
  | (.error e, st) => (.error e, st)
  | (.ok (), st) => next st

/-- `for_each_record` (lines 488–535), from the offset `start` on. -/
def forEachRecord {σ E : Type} (tolerateTail : Bool) (g : Handler σ E) :
    (fuel start : ℕ) → List UInt8 → σ → Except (ChunkFault E) Unit × σ
  | 0, _, _, st => (.ok (), st)
  | fuel + 1, start, rest, st =>
    if rest = [] then (.ok (), st)
    else if rest.length < frameHeader ∨ frameLen rest > rest.length - frameHeader then
      (if tolerateTail then .ok () else .error (framing start), st)
    else
      match g (rest.headD 0) ((rest.drop frameHeader).take (frameLen rest)) st with
      | (.error e, st) => (.error (.callback e), st)
      | (.ok (), st) =>
        let stop := frameHeader + frameLen rest
        forEachRecord tolerateTail g fuel (start + stop) (rest.drop stop) st

/-! ## The records of a chunk -/

/-- A callback on records, one behind the other, up to the first error. -/
def runAll {σ E : Type} (g : Handler σ E) : List Frame → σ → Except E Unit × σ
  | [], st => (.ok (), st)
  | f :: fs, st => andThen (g f.tag f.body st) (runAll g fs)

section Walk

variable {σ E : Type} {g : Handler σ E} {tolerateTail : Bool} {rest : List UInt8} {st : σ}

/-- A sequence that ends well is two parts that do. -/
theorem andThen_eq_ok {call : Except E Unit × σ} {next : σ → Except E Unit × σ} {st' : σ} :
    andThen call next = (.ok (), st') ↔ ∃ t, call = (.ok (), t) ∧ next t = (.ok (), st') := by
  rcases call with ⟨e | u, t⟩
  · constructor
    · intro h
      cases h
    · rintro ⟨_, h, -⟩
      cases h
  · constructor
    · intro h
      exact ⟨t, rfl, h⟩
    · rintro ⟨_, h, hnext⟩
      cases h
      exact hnext

theorem runAll_append (fs fs' : List Frame) :
    runAll g (fs ++ fs') st = andThen (runAll g fs st) (runAll g fs') := by
  induction fs generalizing st with
  | nil => rfl
  | cons f fs ih =>
    rw [List.cons_append, runAll, runAll]
    rcases g f.tag f.body st with ⟨e | u, st'⟩
    · rfl
    · exact ih

/-- The walk on bytes that start with no whole record. -/
theorem forEachRecord_tail {fuel start : ℕ} (h : nextFrame rest = none)
    (hfuel : rest.length ≤ fuel) :
    forEachRecord tolerateTail g fuel start rest st =
      (if rest = [] ∨ tolerateTail then .ok () else .error (framing start), st) := by
  have hshort : rest.length < frameHeader + frameLen rest := by
    by_contra hlong
    rw [nextFrame, if_neg hlong] at h
    cases h
  cases fuel with
  | zero =>
    have hnil : rest = [] := List.length_eq_zero_iff.mp (Nat.le_zero.mp hfuel)
    rw [if_pos (.inl hnil)]
    rfl
  | succ fuel =>
    rw [forEachRecord]
    by_cases hnil : rest = []
    · rw [if_pos hnil, if_pos (.inl hnil)]
    · rw [if_neg hnil, if_pos (by omega)]
      cases tolerateTail with
      | false => rw [if_neg Bool.false_ne_true, if_neg (by simp [hnil])]
      | true => rw [if_pos rfl, if_pos (.inr rfl)]

/-- The walk on bytes that start with a whole record. -/
theorem forEachRecord_cons {fuel start : ℕ} {f : Frame} {next : List UInt8}
    (h : nextFrame rest = some (f, next)) :
    forEachRecord tolerateTail g (fuel + 1) start rest st =
      match g f.tag f.body st with
      | (.error e, st) => (.error (.callback e), st)
      | (.ok (), st) =>
        forEachRecord tolerateTail g fuel (start + f.encode.length) next st := by
  obtain ⟨hbytes, -⟩ := encode_of_nextFrame h
  have hne : rest ≠ [] := by
    rintro rfl
    have hlen := congrArg List.length hbytes
    rw [List.length_append, f.length_encode, frameHeader, List.length_nil] at hlen
    omega
  unfold nextFrame at h
  split_ifs at h with hlong
  cases h
  have hbody : ((rest.drop frameHeader).take (frameLen rest)).length = frameLen rest := by
    rw [List.length_take, List.length_drop]
    omega
  rw [forEachRecord, if_neg hne, if_neg (by omega), Frame.length_encode, hbody]

/-- The walk hands on the whole records in front of the first fault, and is content with
what follows them if it is nothing or may be anything. -/
theorem forEachRecord_split {n start : ℕ} (hn : rest.length ≤ n) :
    forEachRecord tolerateTail g n start rest st =
      match runAll g (splitFrames n rest).1 st with
      | (.error e, st) => (.error (.callback e), st)
      | (.ok (), st) =>
        (if (splitFrames n rest).2 = [] ∨ tolerateTail then .ok ()
          else .error (framing (start + (encodeFrames (splitFrames n rest).1).length)), st) := by
  induction n generalizing start rest st with
  | zero =>
    have hnil : rest = [] := List.length_eq_zero_iff.mp (Nat.le_zero.mp hn)
    subst hnil
    rfl
  | succ n ih =>
    rcases hnext : nextFrame rest with - | ⟨f, next⟩
    · rw [forEachRecord_tail hnext hn, splitFrames, hnext]
      rfl
    · have hlen := length_of_nextFrame hnext
      rw [forEachRecord_cons hnext, splitFrames, hnext]
      change _ = match runAll g (f :: (splitFrames n next).1) st with
        | (.error e, st) => _
        | (.ok (), st) => _
      rw [runAll]
      rcases g f.tag f.body st with ⟨e | u, st'⟩
      · rfl
      · change forEachRecord tolerateTail g n _ next st' = _
        rw [ih (by omega), encodeFrames_cons, List.length_append, Nat.add_assoc]
        rfl

theorem forEachRecord_eq (start : ℕ) :
    forEachRecord tolerateTail g rest.length start rest st =
      match runAll g (framesOf rest) st with
      | (.error e, st) => (.error (.callback e), st)
      | (.ok (), st) =>
        (if tailOf rest = [] ∨ tolerateTail then .ok ()
          else .error (framing (start + (encodeFrames (framesOf rest)).length)), st) :=
  forEachRecord_split le_rfl

end Walk

end TfTree.Mcap
