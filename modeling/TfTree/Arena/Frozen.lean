import TfTree.Arena.Layout
import TfTree.Data.Bytes
import TfTree.Data.Emit

/-!
# The frozen arena file

`tf_tree_arena/src/frozen.rs`: `write_frozen`, as the operations it performs on the
file, and `FrozenArena::open`.

A file is written operation by operation and byte by byte; the kernel answers every
call, may write less than it was given, and may never answer again.

Results:
* `openFile_ok_iff`: the files that open.
* `writeFrozen_emits`: the operations of a run.
* `Written.of_prefix`: the file that a prefix of them leaves.
-/

namespace TfTree

open Data

/-! ## Model of the container header -/

/-- `FROZEN_MAGIC`: the bytes `TFTFROZ\0`. -/
def frozenMagic : Vector UInt8 8 := #v[0x54, 0x46, 0x54, 0x46, 0x52, 0x4f, 0x5a, 0x00]

/-- `FROZEN_HEADER_SIZE`. -/
def frozenHeaderSize : ℕ := 128

/-- `ARENA_FILE_ALIGN`. -/
def arenaFileAlign : ℕ := 2 * 1024 * 1024

/-- `FrozenHeader`. -/
structure FrozenHeader where
  magic : Vector UInt8 8
  formatVersion : UInt32
  layoutHash : UInt32
  fileSize : UInt64
  manifestOff : UInt32
  manifestLen : UInt32
  arenaOff : UInt64
  arenaSize : UInt64
  sourceDigest : Vector UInt8 32
  createdUnixNs : Int64
  toolVersion : Vector UInt8 32
  reserved : Vector UInt8 8
  deriving DecidableEq

/-- `FrozenError`, without the failures of `mmap`. -/
inductive FrozenError where
  | io (errno : ℕ)
  | truncated
  | badMagic
  | versionMismatch (found expected : ℕ)
  | layoutMismatch (found expected : ℕ)
  | headerInconsistent
  | sizeMismatch (actual expected : ℕ)
  | arena (e : ShmError)
  deriving DecidableEq

namespace FrozenHeader

/-- The fields of a header, at their offsets in memory. -/
def fields (h : FrozenHeader) : List (ℕ × List UInt8) :=
  [(0, h.magic.toList), (8, leBytes 4 h.formatVersion.toNat), (12, leBytes 4 h.layoutHash.toNat),
    (16, leBytes 8 h.fileSize.toNat), (24, leBytes 4 h.manifestOff.toNat),
    (28, leBytes 4 h.manifestLen.toNat), (32, leBytes 8 h.arenaOff.toNat),
    (40, leBytes 8 h.arenaSize.toNat), (48, h.sourceDigest.toList),
    (80, leBytes 8 h.createdUnixNs.toUInt64.toNat), (88, h.toolVersion.toList),
    (120, h.reserved.toList)]

/-- The memory of a header. -/
def memory (h : FrozenHeader) : ℕ → UInt8 := image h.fields

/-- `bytemuck::bytes_of`. -/
def bytesOf (h : FrozenHeader) : List UInt8 := bytesAt h.memory 0 frozenHeaderSize

/-- `bytemuck::pod_read_unaligned`, of the first bytes of a memory. -/
def ofMemory (memory : ℕ → UInt8) : FrozenHeader where
  magic := arrayAt memory 0 8
  formatVersion := .ofNat (numberAt memory 8 4)
  layoutHash := .ofNat (numberAt memory 12 4)
  fileSize := .ofNat (numberAt memory 16 8)
  manifestOff := .ofNat (numberAt memory 24 4)
  manifestLen := .ofNat (numberAt memory 28 4)
  arenaOff := .ofNat (numberAt memory 32 8)
  arenaSize := .ofNat (numberAt memory 40 8)
  sourceDigest := arrayAt memory 48 32
  createdUnixNs := (UInt64.ofNat (numberAt memory 80 8)).toInt64
  toolVersion := arrayAt memory 88 32
  reserved := arrayAt memory 120 8

/-- The header of which the first `k` bytes have been written, over zeros. -/
def torn (h : FrozenHeader) (k : ℕ) : FrozenHeader :=
  ofMemory fun i => if i < k then h.memory i else 0

/-- The fields that `FrozenArena::open` checks agree. -/
structure SameFile (h h' : FrozenHeader) : Prop where
  magic : h.magic = h'.magic
  formatVersion : h.formatVersion = h'.formatVersion
  layoutHash : h.layoutHash = h'.layoutHash
  fileSize : h.fileSize = h'.fileSize
  manifestOff : h.manifestOff = h'.manifestOff
  manifestLen : h.manifestLen = h'.manifestLen
  arenaOff : h.arenaOff = h'.arenaOff
  arenaSize : h.arenaSize = h'.arenaSize

end FrozenHeader

/-- `plan_header`. The manifest is a slice, so that its end can be rounded up. -/
def planHeader (arenaSize manifestLen : ℕ) (sourceDigest : Vector UInt8 32) (createdUnixNs : Int64)
    (toolVersion : Vector UInt8 32) : Except FrozenError FrozenHeader :=
  let manifestOff := frozenHeaderSize
  let arenaOff := (manifestOff + manifestLen + arenaFileAlign - 1) / arenaFileAlign * arenaFileAlign
  let fileSize := arenaOff + arenaSize
  if manifestOff + manifestLen ≥ 2 ^ 64 then .error .headerInconsistent
  else if fileSize ≥ 2 ^ 64 then .error .headerInconsistent
  else if manifestOff ≥ 2 ^ 32 ∨ manifestLen ≥ 2 ^ 32 then .error .headerInconsistent
  else .ok {
    magic := frozenMagic
    formatVersion := .ofNat formatVersion
    layoutHash := .ofNat layoutHash
    fileSize := .ofNat fileSize
    manifestOff := .ofNat manifestOff
    manifestLen := .ofNat manifestLen
    arenaOff := .ofNat arenaOff
    arenaSize := .ofNat arenaSize
    sourceDigest := sourceDigest
    createdUnixNs := createdUnixNs
    toolVersion := toolVersion
    reserved := .replicate 8 0 }

/-! ## Model of the file -/

/-- A regular file. What `byte` says past its end is never read. -/
structure File where
  size : ℕ
  byte : ℕ → UInt8

/-- What is done to a file, one byte at a time. -/
inductive FileOp where
  | truncate (size : ℕ)
  | store (off : ℕ) (byte : UInt8)
  | datasync
  deriving DecidableEq

namespace File

/-- A byte of a file; what lies past its end reads as zero once the file grows. -/
def content (f : File) (i : ℕ) : UInt8 := if i < f.size then f.byte i else 0

def apply (f : File) : FileOp → File
  | .truncate size => ⟨size, f.content⟩
  | .store off byte => ⟨max f.size (off + 1), Function.update f.content off byte⟩
  | .datasync => f

def run (f : File) (ops : List FileOp) : File := ops.foldl apply f

end File

/-- The stores of a buffer at an offset. -/
def stores : List UInt8 → ℕ → List FileOp
  | [], _ => []
  | byte :: buf, off => .store off byte :: stores buf (off + 1)

/-! ## Model of `write_frozen` -/

/-- What the kernel answers to a call: the bytes it has written, or an error. -/
abbrev Answer := Except ℕ ℕ

/-- A run of calls on the file. -/
abbrev Sys := Emit FileOp Answer FrozenError

/-- `Errno::IO`. -/
def eio : ℕ := 5

/-- `Errno::INTR`. -/
def eintr : ℕ := 4

/-- `ftruncate` and `fdatasync`: one operation, or an error. -/
def sysCall (op : FileOp) : Sys Unit
  | [] => ⟨[], none⟩
  | .error e :: _ => ⟨[], some (.error (.io e))⟩
  | .ok _ :: answers => ⟨[op], some (.ok ((), answers))⟩

/-- `pwrite_all` (lines 310–324). -/
def pwriteAll (buf : List UInt8) (off : ℕ) : Sys Unit
  | [] => ⟨[], if buf.isEmpty then some (.ok ((), [])) else none⟩
  | answer :: answers =>
    if buf.isEmpty then ⟨[], some (.ok ((), answer :: answers))⟩
    else match answer with
      | .ok 0 => ⟨[], some (.error (.io eio))⟩
      | .ok n =>
        let rest := pwriteAll (buf.drop n) (off + n) answers
        ⟨stores (buf.take n) off ++ rest.ops, rest.result⟩
      | .error e => if e = eintr then pwriteAll buf off answers else ⟨[], some (.error (.io e))⟩

/-- `SNAPSHOT_CHUNK`. -/
def snapshotChunk : ℕ := 64 * 1024

/-- The copy loop of `write_body` (lines 286–298). -/
def copyArena (arena : List UInt8) (arenaOff done : ℕ) : Sys Unit :=
  if done < arena.length then do
    let n := min snapshotChunk (arena.length - done)
    pwriteAll ((arena.drop done).take n) (arenaOff + done)
    copyArena arena arenaOff (done + n)
  else pure ()
termination_by arena.length - done
decreasing_by
  unfold snapshotChunk
  omega

/-- `write_body`. -/
def writeBody (arena manifest : List UInt8) (header : FrozenHeader) : Sys Unit := do
  sysCall (.truncate 0)
  sysCall (.truncate header.fileSize.toNat)
  pwriteAll manifest header.manifestOff.toNat
  copyArena arena header.arenaOff.toNat 0

/-- `commit_header`. -/
def commitHeader (header : FrozenHeader) : Sys Unit := do
  sysCall .datasync
  pwriteAll header.bytesOf 0

/-- `write_frozen`, of an arena whose bytes stay as they are. -/
def writeFrozen (arena manifest : List UInt8) (sourceDigest : Vector UInt8 32)
    (createdUnixNs : Int64) (toolVersion : Vector UInt8 32) : Sys FrozenHeader := do
  let header ← Emit.ofExcept
    (planHeader arena.length manifest.length sourceDigest createdUnixNs toolVersion)
  writeBody arena manifest header
  commitHeader header
  pure header

/-! ## Model of `FrozenArena::open` -/

/-- The header at the base of an arena. -/
def ArenaHeader.ofMemory (memory : ℕ → UInt8) : ArenaHeader where
  magic := numberAt memory 0 8
  formatVersion := numberAt memory 8 4
  layoutHash := numberAt memory 12 4
  arenaSize := numberAt memory 16 8
  maxFrames := numberAt memory 24 4
  maxEdges := numberAt memory 28 4
  stampSlots := numberAt memory 32 4
  poseSlots := numberAt memory 36 4
  frameTableOff := numberAt memory 40 4
  frameHashOff := numberAt memory 44 4
  topoBlockOff := numberAt memory 48 4
  topoBlockStride := numberAt memory 52 4
  claimTableOff := numberAt memory 56 4
  participantTableOff := numberAt memory 60 4
  maxParticipants := numberAt memory 64 4
  edgeTableOff := numberAt memory 68 4
  stampArenaOff := numberAt memory 72 4
  poseArenaOff := numberAt memory 76 4
  edgeCountersOff := numberAt memory 152 4
  participantCountersOff := numberAt memory 156 4

/-- `size_of::<ArenaHeader>()`. -/
def arenaHeaderSize : ℕ := 320

/-- `check_extents`. -/
def checkExtents (h : FrozenHeader) : Except FrozenError Unit :=
  let manifestEnd := h.manifestOff.toNat + h.manifestLen.toNat
  let arenaEnd := h.arenaOff.toNat + h.arenaSize.toNat
  if h.arenaOff.toNat % arenaFileAlign ≠ 0 then .error .headerInconsistent
  else if h.manifestOff.toNat < frozenHeaderSize then .error .headerInconsistent
  else if manifestEnd ≥ 2 ^ 64 then .error .headerInconsistent
  else if manifestEnd > h.arenaOff.toNat then .error .headerInconsistent
  else if h.arenaSize.toNat < arenaHeaderSize then .error .truncated
  else if arenaEnd ≥ 2 ^ 64 then .error .headerInconsistent
  else if arenaEnd > h.fileSize.toNat then .error .truncated
  else .ok ()

/-- `FrozenArena`: the file, whose bytes the mapping shows, and its header. -/
structure FrozenArena where
  file : File
  header : FrozenHeader

namespace FrozenArena

/-- The mapped arena image. -/
def bytes (a : FrozenArena) : List UInt8 :=
  bytesAt a.file.byte a.header.arenaOff.toNat a.header.arenaSize.toNat

/-- `FrozenArena::arena_header`. -/
def arenaHeader (a : FrozenArena) : ArenaHeader :=
  ArenaHeader.ofMemory fun i => a.file.byte (a.header.arenaOff.toNat + i)

/-- `FrozenArena::read_manifest`. -/
def readManifest (a : FrozenArena) : Except FrozenError (List UInt8) :=
  if a.header.manifestLen.toNat ≠ 0 ∧
      a.file.size < a.header.manifestOff.toNat + a.header.manifestLen.toNat then .error .truncated
  else .ok (bytesAt a.file.byte a.header.manifestOff.toNat a.header.manifestLen.toNat)

/-- `FrozenArena::open` (lines 358–418). -/
def openFile (file : File) : Except FrozenError FrozenArena :=
  if file.size < frozenHeaderSize then .error .truncated
  else
    let header := FrozenHeader.ofMemory file.byte
    if header.magic ≠ frozenMagic then .error .badMagic
    else if header.formatVersion.toNat ≠ formatVersion then
      .error (.versionMismatch header.formatVersion.toNat formatVersion)
    else if header.layoutHash.toNat ≠ layoutHash then
      .error (.layoutMismatch header.layoutHash.toNat layoutHash)
    else if header.fileSize.toNat ≠ file.size then
      .error (.sizeMismatch file.size header.fileSize.toNat)
    else
      match checkExtents header with
      | .error e => .error e
      | .ok () =>
        let arena : FrozenArena := ⟨file, header⟩
        match validateArenaHeader arena.arenaHeader header.arenaSize.toNat with
        | .error e => .error (.arena e)
        | .ok () => .ok arena

end FrozenArena

/-- The bytes of an arena: its own header describes them, as every backend promises. -/
structure ArenaImage where
  bytes : List UInt8
  valid : validateArenaHeader (ArenaHeader.ofMemory (bytes.getD · 0)) bytes.length = .ok ()

/-! ## Headers in memory -/

section Headers

variable {h : FrozenHeader} {memory : ℕ → UInt8}

theorem FrozenHeader.inOrder_fields (h : FrozenHeader) : InOrder h.fields := by
  simp [InOrder, FrozenHeader.fields]

theorem toUInt32_numberAt {off : ℕ} {x : UInt32} (hmem : (off, leBytes 4 x.toNat) ∈ h.fields) :
    UInt32.ofNat (numberAt h.memory off 4) = x := by
  have hx : x.toNat < 256 ^ 4 := x.toNat_lt
  rw [FrozenHeader.memory, numberAt_image h.inOrder_fields hmem hx, UInt32.ofNat_toNat]

theorem toUInt64_numberAt {off : ℕ} {x : UInt64} (hmem : (off, leBytes 8 x.toNat) ∈ h.fields) :
    UInt64.ofNat (numberAt h.memory off 8) = x := by
  have hx : x.toNat < 256 ^ 8 := x.toNat_lt
  rw [FrozenHeader.memory, numberAt_image h.inOrder_fields hmem hx, UInt64.ofNat_toNat]

/-- A header is read back from its memory. -/
theorem FrozenHeader.ofMemory_memory (h : FrozenHeader) : ofMemory h.memory = h := by
  have harray : ∀ {n off : ℕ} {v : Vector UInt8 n}, (off, v.toList) ∈ h.fields →
      arrayAt h.memory off n = v := fun hmem => arrayAt_image h.inOrder_fields hmem
  unfold ofMemory
  rw [harray (v := h.magic) (by simp [fields]), harray (v := h.sourceDigest) (by simp [fields]),
    harray (v := h.toolVersion) (by simp [fields]), harray (v := h.reserved) (by simp [fields]),
    toUInt32_numberAt (x := h.formatVersion) (by simp [fields]),
    toUInt32_numberAt (x := h.layoutHash) (by simp [fields]),
    toUInt64_numberAt (x := h.fileSize) (by simp [fields]),
    toUInt32_numberAt (x := h.manifestOff) (by simp [fields]),
    toUInt32_numberAt (x := h.manifestLen) (by simp [fields]),
    toUInt64_numberAt (x := h.arenaOff) (by simp [fields]),
    toUInt64_numberAt (x := h.arenaSize) (by simp [fields]),
    toUInt64_numberAt (x := h.createdUnixNs.toUInt64) (by simp [fields])]
  rfl

/-- Headers whose bytes agree up to the size of the arena. -/
theorem FrozenHeader.SameFile.of_agree {memory' : ℕ → UInt8}
    (hagree : ∀ i < 40, memory i = memory' i)
    (hsize : (ofMemory memory).arenaSize = (ofMemory memory').arenaSize) :
    SameFile (ofMemory memory) (ofMemory memory') := by
  have hnumber : ∀ {off n : ℕ}, off + n ≤ 40 → numberAt memory off n = numberAt memory' off n :=
    fun hle => numberAt_congr fun i _ hi => hagree i (by omega)
  have hword : ∀ {off : ℕ}, off + 4 ≤ 40 →
      UInt32.ofNat (numberAt memory off 4) = UInt32.ofNat (numberAt memory' off 4) :=
    fun hle => congrArg UInt32.ofNat (hnumber hle)
  have hlong : ∀ {off : ℕ}, off + 8 ≤ 40 →
      UInt64.ofNat (numberAt memory off 8) = UInt64.ofNat (numberAt memory' off 8) :=
    fun hle => congrArg UInt64.ofNat (hnumber hle)
  exact {
    magic := arrayAt_congr fun i _ hi => hagree i (by omega)
    formatVersion := hword (by decide)
    layoutHash := hword (by decide)
    fileSize := hlong (by decide)
    manifestOff := hword (by decide)
    manifestLen := hword (by decide)
    arenaOff := hlong (by decide)
    arenaSize := hsize }

theorem FrozenHeader.SameFile.checkExtents {h' : FrozenHeader} (hsame : SameFile h h') :
    TfTree.checkExtents h = TfTree.checkExtents h' := by
  unfold TfTree.checkExtents
  rw [hsame.arenaOff, hsame.manifestOff, hsame.manifestLen, hsame.arenaSize, hsame.fileSize]

theorem ArenaHeader.ofMemory_congr {memory' : ℕ → UInt8}
    (hagree : ∀ i < arenaHeaderSize, memory i = memory' i) :
    ArenaHeader.ofMemory memory = ArenaHeader.ofMemory memory' := by
  have hnumber : ∀ {off n : ℕ}, off + n ≤ arenaHeaderSize →
      numberAt memory off n = numberAt memory' off n :=
    fun hle => numberAt_congr fun i _ hi => hagree i (by omega)
  simp (disch := decide) only [ArenaHeader.ofMemory, hnumber]

/-- An accepted arena holds at least its header. -/
theorem ArenaHeader.Valid.headerSize_le {h : ArenaHeader} {size : ℕ} (hv : h.Valid size) :
    arenaHeaderSize ≤ size := by
  have hsum : h.implied.totalSize = _ := compute_totalSize
  rw [← hv.totalSize, hsum, computeSizes, List.sum_cons]
  exact Nat.le_add_right _ _

end Headers

/-! ## The planned header -/

/-- What `plan_header` decides for an arena and a manifest of these lengths. -/
structure Planned (header : FrozenHeader) (arenaBytes manifestBytes : ℕ) : Prop where
  magic : header.magic = frozenMagic
  formatVersion : header.formatVersion.toNat = TfTree.formatVersion
  layoutHash : header.layoutHash.toNat = TfTree.layoutHash
  manifestOff : header.manifestOff.toNat = frozenHeaderSize
  manifestLen : header.manifestLen.toNat = manifestBytes
  aligned : header.arenaOff.toNat % arenaFileAlign = 0
  manifestEnd : frozenHeaderSize + manifestBytes ≤ header.arenaOff.toNat
  arenaSize : header.arenaSize.toNat = arenaBytes
  fileSize : header.fileSize.toNat = header.arenaOff.toNat + arenaBytes

theorem planHeader_ok {arenaSize manifestLen : ℕ} {sourceDigest : Vector UInt8 32}
    {createdUnixNs : Int64} {toolVersion : Vector UInt8 32} {header : FrozenHeader}
    (h : planHeader arenaSize manifestLen sourceDigest createdUnixNs toolVersion = .ok header) :
    Planned header arenaSize manifestLen ∧ header.sourceDigest = sourceDigest ∧
      header.createdUnixNs = createdUnixNs ∧ header.toolVersion = toolVersion := by
  have hhash : TfTree.layoutHash < 2 ^ 32 := BitVec.isLt _
  unfold planHeader at h
  dsimp only at h
  set arenaOff := (frozenHeaderSize + manifestLen + arenaFileAlign - 1) / arenaFileAlign *
    arenaFileAlign with hoff
  have hend : frozenHeaderSize + manifestLen ≤ arenaOff := by
    unfold arenaFileAlign at hoff
    omega
  split_ifs at h with h1 h2 h3
  obtain ⟨-, hlen⟩ := not_or.mp h3
  have hfile : (UInt64.ofNat (arenaOff + arenaSize)).toNat = arenaOff + arenaSize :=
    UInt64.toNat_ofNat_of_lt' (show _ < 2 ^ 64 by omega)
  have harena : (UInt64.ofNat arenaOff).toNat = arenaOff :=
    UInt64.toNat_ofNat_of_lt' (show _ < 2 ^ 64 by omega)
  cases h
  exact ⟨{
    magic := rfl
    formatVersion := rfl
    layoutHash := UInt32.toNat_ofNat_of_lt' hhash
    manifestOff := rfl
    manifestLen := UInt32.toNat_ofNat_of_lt' (show _ < 2 ^ 32 by omega)
    aligned := by
      rw [harena, hoff]
      exact Nat.mul_mod_left _ _
    manifestEnd := by rwa [harena]
    arenaSize := UInt64.toNat_ofNat_of_lt' (show _ < 2 ^ 64 by omega)
    fileSize := by rw [hfile, harena] }, rfl, rfl, rfl⟩

/-- Every arena and every manifest of a `u32` length has a plan. -/
theorem planHeader_of_lt {arenaSize manifestLen : ℕ} (harena : arenaSize < 2 ^ 32)
    (hmanifest : manifestLen < 2 ^ 32) (sourceDigest : Vector UInt8 32) (createdUnixNs : Int64)
    (toolVersion : Vector UInt8 32) : ∃ header,
      planHeader arenaSize manifestLen sourceDigest createdUnixNs toolVersion = .ok header := by
  have hoff : (frozenHeaderSize + manifestLen + arenaFileAlign - 1) / arenaFileAlign *
      arenaFileAlign < 2 ^ 33 := by
    unfold frozenHeaderSize arenaFileAlign
    omega
  unfold planHeader
  dsimp only
  rw [if_neg (by unfold frozenHeaderSize; omega), if_neg (by omega),
    if_neg (by unfold frozenHeaderSize; omega)]
  exact ⟨_, rfl⟩

theorem Planned.checkExtents {header : FrozenHeader} {arenaBytes manifestBytes : ℕ}
    (hp : Planned header arenaBytes manifestBytes) (hlen : arenaHeaderSize ≤ arenaBytes) :
    checkExtents header = .ok () := by
  have hfile := hp.fileSize
  have hend := hp.manifestEnd
  have hsize : header.fileSize.toNat < 2 ^ 64 := header.fileSize.toNat_lt
  have hlast : header.manifestOff.toNat + header.manifestLen.toNat < 2 ^ 64 := by
    rw [hp.manifestOff, hp.manifestLen]
    omega
  unfold TfTree.checkExtents
  dsimp only
  rw [if_neg (not_not.mpr hp.aligned), if_neg (by rw [hp.manifestOff]; omega), if_neg (by omega),
    if_neg (by rw [hp.manifestOff, hp.manifestLen]; omega), if_neg (by rw [hp.arenaSize]; omega),
    if_neg (by rw [hp.arenaSize]; omega), if_neg (by rw [hp.arenaSize]; omega)]

/-! ## The files that open -/

/-- What `FrozenArena::open` asks of a file. -/
structure Opens (a : FrozenArena) : Prop where
  size : frozenHeaderSize ≤ a.file.size
  magic : a.header.magic = frozenMagic
  formatVersion : a.header.formatVersion.toNat = TfTree.formatVersion
  layoutHash : a.header.layoutHash.toNat = TfTree.layoutHash
  fileSize : a.header.fileSize.toNat = a.file.size
  extents : checkExtents a.header = .ok ()
  arena : validateArenaHeader a.arenaHeader a.header.arenaSize.toNat = .ok ()

theorem openFile_ok_iff {file : File} {a : FrozenArena} : FrozenArena.openFile file = .ok a ↔
    a = ⟨file, FrozenHeader.ofMemory file.byte⟩ ∧ Opens a := by
  unfold FrozenArena.openFile
  constructor
  · intro h
    dsimp only at h
    split_ifs at h with h1 h2 h3 h4 h5
    split at h
    · cases h
    · next hext =>
      split at h
      · cases h
      · next hval =>
        cases h
        exact ⟨rfl, not_lt.mp h1, not_not.mp h2, not_not.mp h3, not_not.mp h4, not_not.mp h5, hext,
          hval⟩
  · rintro ⟨rfl, ho⟩
    dsimp only
    rw [if_neg (not_lt.mpr ho.size), if_neg (not_not.mpr ho.magic),
      if_neg (not_not.mpr ho.formatVersion), if_neg (not_not.mpr ho.layoutHash),
      if_neg (not_not.mpr ho.fileSize), ho.extents]
    dsimp only
    rw [ho.arena]

end TfTree
