import TfTree.Arena.Layout
import TfTree.Conc.Pool

/-!
# The frame table

Model of the interning table (`tf_tree_core/src/frame.rs`) and of its callers in
`arena_view.rs`: every access of the arena, and every question to the liveness test, is a
step of its own. Threads intern and look up names at the same time and may die anywhere.

The memory carries three auxiliary fields that no program reads: who has which id, who is
about to return one, and whether the counter has wrapped.
-/

namespace TfTree

open Conc

/-- `FrameError`. -/
inductive FrameError where
  | frameHashCollision (hash : ℕ)
  | capacityExceeded
  | internContended
  deriving DecidableEq, Repr

/-! ## Records -/

/-- The stored bytes of a name: at most 48. -/
def nameBytes : ℕ := 48

/-- `FrameRecord`: the fields that a reader uses. -/
structure FrameRecord where
  nameHash : ℕ
  name : List UInt8
  nameLen : ℕ
  deriving DecidableEq, Repr

namespace FrameRecord

/-- `FrameRecord::for_name`. -/
def forName (name : List UInt8) (hash : ℕ) : FrameRecord :=
  let n := min name.length nameBytes
  { nameHash := hash
    name := name.take n ++ List.replicate (nameBytes - n) 0
    nameLen := n }

/-- `FrameRecord::name_matches`. -/
def nameMatches (r : FrameRecord) (name : List UInt8) : Bool :=
  let n := min name.length nameBytes
  r.nameLen = n && r.name.take n = name.take n

/-- What a record keeps of a name. -/
def stored (name : List UInt8) : List UInt8 := name.take nameBytes

theorem take_min (name : List UInt8) : name.take (min name.length nameBytes) = stored name := by
  rw [stored, List.take_eq_take_iff]
  omega

theorem stored_length (name : List UInt8) :
    (stored name).length = min name.length nameBytes := by
  rw [stored, List.length_take, Nat.min_comm]

theorem forName_name_take (name : List UInt8) (hash : ℕ) :
    (forName name hash).name.take (min name.length nameBytes) = stored name := by
  show (name.take (min name.length nameBytes) ++ _).take _ = _
  rw [take_min, ← stored_length, List.take_left]

/-- A record matches exactly the names that agree with its own in what is stored. -/
theorem forName_matches {name name' : List UInt8} {hash : ℕ} :
    (forName name hash).nameMatches name' = true ↔ stored name' = stored name := by
  rw [nameMatches, Bool.and_eq_true, decide_eq_true_eq, decide_eq_true_eq, take_min]
  show min name.length nameBytes = min name'.length nameBytes ∧ _ ↔ _
  constructor
  · rintro ⟨hlen, hname⟩
    rw [← hlen, forName_name_take] at hname
    exact hname.symm
  · intro h
    have hlen : min name.length nameBytes = min name'.length nameBytes := by
      rw [← stored_length, ← stored_length, h]
    refine ⟨hlen, ?_⟩
    rw [← hlen, forName_name_take, h]

end FrameRecord

/-! ## The table -/

/-- `ID_UNPUBLISHED`. -/
def idUnpublished : ℕ := 0

/-- `ID_FAILED`. -/
def idFailed : ℕ := 2 ^ 32 - 1

/-- `CLAIM_UNRECORDED`. -/
def claimUnrecorded : ℕ := 0

/-- `CLAIM_ANONYMOUS`. -/
def claimAnonymous : ℕ := 2 ^ 32 - 1

/-- `INTERN_SPIN_LIMIT`. -/
def internSpinLimit : ℕ := 10000

/-- `READER_UNRECORDED_ROUNDS`. -/
def readerUnrecordedRounds : ℕ := 4

/-- The fixed part of `InternTable`: the size of the arena, and `blake3_64`. -/
structure InternTable where
  maxFrames : ℕ
  maxFrames_lt : maxFrames < 2 ^ 32
  hash : List UInt8 → ℕ

namespace InternTable

variable (T : InternTable)

/-- `capacity`: ids are `1..max_frames`. -/
def capacity : ℕ := T.maxFrames - 1

/-- The length of the three arrays. -/
def len : ℕ := nextPow2 (2 * T.maxFrames)

/-- `mask`. -/
def mask : ℕ := T.len - 1

end InternTable

/-- Auxiliary: what has become of an id. -/
inductive IdStatus where
  | free
  /-- Allocated by a thread that has not published it. -/
  | owned (t : ℕ)
  /-- Published in a slot. -/
  | visible (slot : ℕ)
  deriving DecidableEq

/-- The arrays, the counter and the records of the arena, and the answers of
    `claimant_alive`. -/
structure InternMem where
  hashes : ℕ → ℕ
  ids : ℕ → ℕ
  claiming : ℕ → ℕ
  frameCount : ℕ
  records : ℕ → FrameRecord
  alive : ℕ → Bool
  /-- Auxiliary. -/
  status : ℕ → IdStatus
  /-- Auxiliary: the threads between a `fetch_add` at capacity and its `fetch_sub`. -/
  failing : List ℕ
  /-- Auxiliary: a `fetch_add` of the counter has wrapped. -/
  wrapped : Bool

/-- A zeroed arena. -/
def InternMem.init (alive : ℕ → Bool) : InternMem where
  hashes := fun _ => 0
  ids := fun _ => idUnpublished
  claiming := fun _ => claimUnrecorded
  frameCount := 0
  records := fun _ => ⟨0, List.replicate nameBytes 0, 0⟩
  alive := alive
  status := fun _ => .free
  failing := []
  wrapped := false

/-- The accesses; `t` is the thread that makes one. -/
inductive InternOp where
  | loadHash (i : ℕ)
  /-- `compare_exchange(0, hash)`. -/
  | casHash (i hash : ℕ)
  | loadId (i : ℕ)
  /-- `compare_exchange(ID_UNPUBLISHED, value)`; returns the value observed. -/
  | casId (i value : ℕ)
  | loadClaim (i : ℕ)
  | casClaim (i expected new : ℕ)
  | loadCount
  /-- `fetch_add(1)`. -/
  | addCount (t : ℕ)
  /-- `fetch_sub(1)`. -/
  | subCount (t : ℕ)
  | storeNameHash (id hash : ℕ)
  | storeName (id : ℕ) (name : List UInt8)
  | storeNameLen (id n : ℕ)
  | loadNameLen (id : ℕ)
  | loadName (id : ℕ)
  /-- A question to `claimant_alive`. -/
  | askAlive (owner : ℕ)

namespace InternOp

/-- What an access returns. -/
@[reducible] def Res : InternOp → Type
  | casHash _ _ => Bool
  | casClaim _ _ _ => Bool
  | subCount _ => Unit
  | storeNameHash _ _ => Unit
  | storeName _ _ => Unit
  | storeNameLen _ _ => Unit
  | loadName _ => List UInt8
  | askAlive _ => Bool
  | _ => ℕ

/-- `compare_exchange` of one array element from `expected` to `new`. -/
def cas (a : ℕ → ℕ) (i expected new : ℕ) : ℕ → ℕ :=
  if a i = expected then upd a i new else a

/-- The status of the ids after a CAS of `ids[i]`: an id that enters it becomes visible. -/
def publishStatus (m : InternMem) (i value : ℕ) : ℕ → IdStatus :=
  if m.ids i = idUnpublished ∧ value ≠ idFailed then upd m.status value (.visible i) else m.status

/-- The meaning of the accesses. -/
def exec (T : InternTable) : (o : InternOp) → InternMem → o.Res × InternMem
  | loadHash i, m => (m.hashes i, m)
  | casHash i hash, m => (decide (m.hashes i = 0), { m with hashes := cas m.hashes i 0 hash })
  | loadId i, m => (m.ids i, m)
  | casId i value, m =>
    (m.ids i, { m with
      ids := cas m.ids i idUnpublished value, status := publishStatus m i value })
  | loadClaim i, m => (m.claiming i, m)
  | casClaim i expected new, m =>
    (decide (m.claiming i = expected), { m with claiming := cas m.claiming i expected new })
  | loadCount, m => (m.frameCount, m)
  | addCount t, m =>
    (m.frameCount, { m with
      frameCount := (m.frameCount + 1) % 2 ^ 32
      status := if m.frameCount < T.capacity then upd m.status (m.frameCount + 1) (.owned t)
        else m.status
      failing := if m.frameCount < T.capacity then m.failing else t :: m.failing
      wrapped := m.wrapped || m.frameCount + 1 = 2 ^ 32 })
  | subCount t, m =>
    ((), { m with
      frameCount := if m.frameCount = 0 then 2 ^ 32 - 1 else m.frameCount - 1
      failing := m.failing.erase t })
  | storeNameHash id hash, m =>
    ((), { m with records := upd m.records id { m.records id with nameHash := hash } })
  | storeName id name, m =>
    ((), { m with records := upd m.records id { m.records id with name := name } })
  | storeNameLen id n, m =>
    ((), { m with records := upd m.records id { m.records id with nameLen := n } })
  | loadNameLen id, m => ((m.records id).nameLen, m)
  | loadName id, m => ((m.records id).name, m)
  | askAlive owner, m => (m.alive owner, m)

end InternOp

/-- A program of accesses. -/
abbrev InternProg := Prog InternOp InternOp.Res

namespace InternProg

/-- `hashes[i].load`. -/
def loadHash (i : ℕ) : InternProg ℕ := Prog.op (InternOp.loadHash i)

/-- `hashes[i].compare_exchange(0, hash)`, as `is_ok`. -/
def casHash (i hash : ℕ) : InternProg Bool := Prog.op (InternOp.casHash i hash)

/-- `ids[i].load`. -/
def loadId (i : ℕ) : InternProg ℕ := Prog.op (InternOp.loadId i)

/-- `ids[i].compare_exchange(ID_UNPUBLISHED, value)`. -/
def casId (i value : ℕ) : InternProg ℕ := Prog.op (InternOp.casId i value)

/-- `claiming[i].load`. -/
def loadClaim (i : ℕ) : InternProg ℕ := Prog.op (InternOp.loadClaim i)

/-- `claiming[i].compare_exchange(expected, new)`, as `is_ok`. -/
def casClaim (i expected new : ℕ) : InternProg Bool := Prog.op (InternOp.casClaim i expected new)

/-- `frame_count.load`. -/
def loadCount : InternProg ℕ := Prog.op InternOp.loadCount

/-- `frame_count.fetch_add(1)`. -/
def addCount (t : ℕ) : InternProg ℕ := Prog.op (InternOp.addCount t)

/-- `frame_count.fetch_sub(1)`. -/
def subCount (t : ℕ) : InternProg Unit := Prog.op (InternOp.subCount t)

/-- The hash of record `id`, written. -/
def storeNameHash (id hash : ℕ) : InternProg Unit := Prog.op (InternOp.storeNameHash id hash)

/-- The name of record `id`, written. -/
def storeName (id : ℕ) (name : List UInt8) : InternProg Unit :=
  Prog.op (InternOp.storeName id name)

/-- The name length of record `id`, written. -/
def storeNameLen (id n : ℕ) : InternProg Unit := Prog.op (InternOp.storeNameLen id n)

/-- The name length of record `id`. -/
def loadNameLen (id : ℕ) : InternProg ℕ := Prog.op (InternOp.loadNameLen id)

/-- The name of record `id`. -/
def loadName (id : ℕ) : InternProg (List UInt8) := Prog.op (InternOp.loadName id)

/-- `claimant_alive(owner)`. -/
def askAlive (owner : ℕ) : InternProg Bool := Prog.op (InternOp.askAlive owner)

end InternProg

/-- `Wait`. -/
inductive Wait where
  | published (id : ℕ)
  | takenOver
  | abandoned
  | contended

/-- `Role`. -/
inductive Role where
  | interner (me : ℕ)
  | reader

namespace InternTable

open InternProg

variable (T : InternTable)

/-! ## The two closures of `arena_view.rs` -/

/-- `name_matches`. -/
def nameMatches (id : ℕ) (name : List UInt8) : InternProg Bool :=
  if T.maxFrames ≤ id then pure false
  else do
    let len ← loadNameLen id
    let stored ← loadName id
    pure (FrameRecord.nameMatches ⟨0, stored, len⟩ name)

/-- `write_record`. -/
def writeRecord (id hash : ℕ) (name : List UInt8) : InternProg Unit :=
  if T.maxFrames ≤ id then pure ()
  else do
    let r := FrameRecord.forName name hash
    storeNameHash id r.nameHash
    storeName id r.name
    storeNameLen id r.nameLen

/-! ## `frame.rs` -/

/-- `publish` (lines 184–197). -/
def publish (i value : ℕ) : InternProg ℕ := do
  let observed ← casId i value
  pure (if observed = idUnpublished then value else observed)

/-- `resolve` (lines 307–317). -/
def resolve (id hash : ℕ) (name : List UInt8) : InternProg (Except FrameError ℕ) :=
  if id = idFailed then pure (.error .capacityExceeded)
  else do
    let same ← T.nameMatches id name
    pure (if same then .ok id else .error (.frameHashCollision hash))

/-- `finish` (lines 199–225), by thread `t`. -/
def finish (t i hash : ℕ) (name : List UInt8) : InternProg (Except FrameError ℕ) := do
  let n ← addCount t
  if T.capacity ≤ n then
    subCount t
    let other ← publish i idFailed
    if other = idFailed then pure (.error .capacityExceeded) else T.resolve other hash name
  else
    let id := n + 1
    T.writeRecord id hash name
    let winner ← publish i id
    if winner = id then pure (.ok id) else T.resolve winner hash name

/-- `wait_for_publish` (lines 230–304): `none` when it still waits after `fuel` turns of
    its loop. -/
def waitForPublish (i : ℕ) (role : Role) : ℕ → ℕ → ℕ → InternProg (Option Wait)
  | 0, _, _ => pure none
  | fuel + 1, spins, rounds => do
    let id ← loadId i
    if id ≠ idUnpublished then pure (some (.published id))
    else if spins + 1 < internSpinLimit then waitForPublish i role fuel (spins + 1) rounds
    else do
      let owner ← loadClaim i
      match role with
      | .reader =>
        if owner = claimAnonymous then
          if readerUnrecordedRounds ≤ rounds + 1 then pure (some .contended)
          else waitForPublish i role fuel 0 (rounds + 1)
        else if owner ≠ claimUnrecorded then do
          let alive ← askAlive owner
          if alive then waitForPublish i role fuel 0 rounds else pure (some .abandoned)
        else if readerUnrecordedRounds ≤ rounds + 1 then pure (some .abandoned)
        else waitForPublish i role fuel 0 (rounds + 1)
      | .interner me =>
        if owner = claimAnonymous then
          if readerUnrecordedRounds ≤ rounds + 1 then pure (some .contended)
          else waitForPublish i role fuel 0 (rounds + 1)
        else do
          let recoverable ←
            if owner = claimUnrecorded then pure (decide (me ≠ claimUnrecorded))
            else do
              let alive ← askAlive owner
              pure !alive
          if recoverable then do
            let won ← casClaim i owner me
            if won then do
              -- the claimant may have published before the CAS
              let id ← loadId i
              pure (some (if id ≠ idUnpublished then .published id else .takenOver))
            else waitForPublish i role fuel 0 rounds
          else waitForPublish i role fuel 0 rounds

/-- The loop of `intern_core` (lines 349–396), with the iterations left and the slot;
    `none` when it still waits. -/
def internLoop (t me fuel hash : ℕ) (name : List UInt8) :
    ℕ → ℕ → InternProg (Option (Except FrameError ℕ))
  | 0, _ => pure (some (.error .capacityExceeded))
  | n + 1, i => do
    let cur ← loadHash i
    if cur = hash then do
      let w ← waitForPublish i (.interner me) (fuel + 1) 0 0
      match w with
      | none => pure none
      | some (.published id) => some <$> T.resolve id hash name
      | some .takenOver => some <$> T.finish t i hash name
      | some .abandoned => pure (some (.error .capacityExceeded))
      | some .contended => pure (some (.error .internContended))
    else if cur = 0 then do
      let count ← loadCount
      if T.capacity ≤ count then pure (some (.error .capacityExceeded))
      else do
        let won ← casHash i hash
        if won then do
          let recorded ← casClaim i claimUnrecorded
            (if me = claimUnrecorded then claimAnonymous else me)
          -- otherwise a rescuer took the entry over: it publishes, we wait
          if recorded then some <$> T.finish t i hash name
          else internLoop t me fuel hash name n i
        else internLoop t me fuel hash name n i
    else internLoop t me fuel hash name n ((i + 1) &&& T.mask)

/-- `intern_core` (lines 335–397), called from `ArenaView::intern`. -/
def internCore (t me fuel : ℕ) (name : List UInt8) : InternProg (Option (Except FrameError ℕ)) :=
  T.internLoop t me fuel (T.hash name) name (2 * T.len) (T.hash name &&& T.mask)

/-- The loop of `find_core` (lines 418–438). -/
def findLoop (fuel hash : ℕ) (name : List UInt8) :
    ℕ → ℕ → InternProg (Option (Except FrameError (Option ℕ)))
  | 0, _ => pure (some (.ok none))
  | n + 1, i => do
    let cur ← loadHash i
    if cur = 0 then pure (some (.ok none))
    else if cur = hash then do
      let w ← waitForPublish i .reader (fuel + 1) 0 0
      match w with
      | none => pure none
      | some (.published id) =>
        if id = idFailed then pure (some (.ok none))
        else do
          let r ← T.resolve id hash name
          pure (some (r.map some))
      | some .abandoned => pure (some (.ok none))
      | some .takenOver => pure (some (.ok none))
      | some .contended => pure (some (.error .internContended))
    else findLoop fuel hash name n ((i + 1) &&& T.mask)

/-- `find_core` (lines 408–439), called from `ArenaView::find_frame`. -/
def findCore (fuel : ℕ) (name : List UInt8) :
    InternProg (Option (Except FrameError (Option ℕ))) :=
  T.findLoop fuel (T.hash name) name T.len (T.hash name &&& T.mask)

end InternTable

/-! ## Interners and readers at the same time -/

/-- What a thread does. -/
inductive FrameCall where
  /-- `ArenaView::intern`, as participant `me` (slot + 1, or 0). -/
  | intern (me fuel : ℕ) (name : List UInt8)
  /-- `ArenaView::find_frame`. -/
  | find (fuel : ℕ) (name : List UInt8)

namespace FrameCall

/-- The name of the call. -/
def name : FrameCall → List UInt8
  | intern _ _ name => name
  | find _ name => name

/-- The participant that interns. -/
def me : FrameCall → Option ℕ
  | intern me _ _ => some me
  | find _ _ => none

/-- The result of a call: `none` when it still waits. -/
abbrev Result := Option (Except FrameError (Option ℕ))

/-- The program of the call, by thread `t`. -/
def prog (T : InternTable) (t : ℕ) : FrameCall → InternProg Result
  | intern me fuel name => do
    let r ← T.internCore t me fuel name
    pure (r.map fun r => r.map some)
  | find fuel name => T.findCore fuel name

end FrameCall

/-- The table with the threads that use it. -/
abbrev InternPool := Pool ℕ InternOp InternOp.Res FrameCall.Result InternMem

namespace InternPool

/-- New liveness answers. -/
def judge (alive : ℕ → Bool) (m : InternMem) : InternMem := { m with alive := alive }

/-- One step: a turn or a death of a thread, or a change of the liveness answers. -/
def step (T : InternTable) : InternPool → PoolEvent ℕ (ℕ → Bool) → Option InternPool :=
  Pool.step (InternOp.exec T) judge

/-- A zeroed arena; thread `t` calls `calls t`. -/
def init (T : InternTable) (calls : ℕ → FrameCall) (alive : ℕ → Bool) : InternPool where
  mem := .init alive
  prog := fun t => (calls t).prog T t

end InternPool

end TfTree
