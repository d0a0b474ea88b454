import Mathlib
import TfTree.Shm.Rendezvous

/-!
# The locks of an `open()`

`Open::open`, `register_creator`, `register_at`, `held_but_unreachable` and the methods of
`Session` (`tf_tree_ipc/src/open.rs`), over the bytes and the identity records of one lock
file. Any number of file descriptions run them together, each system call a step of its
own that may fail; the probe answers anything; programs outside take and free bytes; and a
process may die between any two steps.

Results:
* `Held.step`: a byte is held exactly by the description whose stage says so.
* `Held.returned`, `Held.failed`: what `open()` holds when it returns.
-/

namespace TfTree.Ipc

open Conc

/-! ## Model of `open.rs` -/

/-- `LockRole`, of the bytes that `open()` locks. -/
inductive LockRole where
  | ownership
  | participant (slot : ℕ)
  deriving DecidableEq, Repr

/-- `IpcError`, as far as `open()` makes the error itself. -/
inductive IpcError where
  | lockFailed (role : LockRole) (errno : ℕ)
  | noParticipantSlots (limit : ℕ)
  | identityIo (slot errno : ℕ)
  | arenaAbsent
  | arenaHeldButUnreachable (holderSlots : ℕ) (firstSlot : Option ℕ) (firstPid : ℕ)
      (ownershipHeld : Bool)
  /-- An error of the probe, of `ensure_dir` or of `LockFile::open`. -/
  | other (code : ℕ)
  deriving DecidableEq, Repr

/-- `AccessMode`. -/
inductive AccessMode where
  | readOnly
  | readWrite
  deriving DecidableEq, Repr

/-- `Identity`. -/
structure Identity where
  pid : ℕ
  startTime : ℕ
  bootId : List ℕ
  mode : AccessMode
  name : List ℕ
  pidNsInode : ℕ
  deriving DecidableEq, Repr

/-- `Reach`. -/
inductive Reach where
  | serving (slot : ℕ)
  | absent
  | rejected (why : IpcError)
  deriving DecidableEq, Repr

/-- `OpenOutcome`. -/
inductive OpenOutcome where
  | joined
  | created
  deriving DecidableEq, Repr

/-- `Session`; its lock file is the description that has it. -/
structure Session where
  outcome : OpenOutcome
  slot : ℕ
  owner : Bool
  deriving DecidableEq, Repr

/-- How `write_at` ends: `short` leaves a record that is partly written. -/
inductive WriteOutcome where
  | done
  | short (left : Option Identity)
  | error (errno : ℕ)
  deriving DecidableEq, Repr

/-- Where a file description is in `Open::open` and in the life of its session. -/
inductive Stage where
  /-- `open()` is not called yet. -/
  | idle
  /-- The top of the loop. -/
  | probing
  /-- `register_at`, before the record is written. -/
  | writing (slot : ℕ)
  /-- `register_at`, after the record is written. -/
  | locking (slot : ℕ)
  /-- Step 2. -/
  | absent
  /-- Step 4: the slots below `next` were probed. -/
  | scanning (next : ℕ)
  /-- The ownership byte is to be released, before an error or the next pass. -/
  | yielding (e : Option IpcError)
  /-- `register_creator`, before the byte is tried. -/
  | claiming
  /-- `register_creator`, after the byte is taken. -/
  | naming
  /-- The check of the deadline. -/
  | waiting
  /-- `held_participants`. -/
  | counting (next mask : ℕ)
  /-- `read_identity` of the first held slot. -/
  | reading (mask : ℕ)
  /-- `probe_ownership`. -/
  | asking (mask pid : ℕ)
  /-- `open()` has returned `Ok`. -/
  | returned (session : Session)
  /-- `open()` has returned `Err`. -/
  | failed (e : IpcError)
  /-- A method of the session was called since. -/
  | attached (session : Session)
  /-- The lock file is closed: a death or a dropped session. -/
  | closed
  deriving DecidableEq, Repr

/-- The session that `open()` has returned to the description. -/
def Stage.session? : Stage → Option Session
  | .returned session | .attached session => some session
  | _ => none

/-- The description holds the ownership byte. -/
def Stage.owns : Stage → Bool
  | .scanning _ | .yielding _ | .claiming | .naming => true
  | .returned session | .attached session => session.owner
  | _ => false

/-- The participant byte that the description holds. -/
def Stage.slot? : Stage → Option ℕ
  | .naming => some creatorSlot
  | .returned session | .attached session => some session.slot
  | _ => none

/-- The slot that the description is between two steps of taking. -/
def Stage.taking? : Stage → Option ℕ
  | .locking slot => some slot
  | .naming => some creatorSlot
  | _ => none

/-- Who holds a byte: a description of an `open()`, or another program. -/
inductive LockHolder (ι : Type) where
  | description (i : ι)
  | outside
  deriving DecidableEq, Repr

/-- `F_OFD_GETLK`: somebody else holds the byte. -/
def heldByOther {ι : Type} [DecidableEq ι] (holder : Option (LockHolder ι)) (i : ι) : Bool :=
  holder ≠ none ∧ holder ≠ some (.description i)

/-- `trailing_zeros` of a mask, and `none` for the empty one. -/
def firstSlot (mask : ℕ) : Option ℕ := (List.range maxParticipants).find? mask.testBit

/-- `read_identity`: a record with a zero pid was never written. -/
def readIdentity (record : Option Identity) : Option Identity := record.filter fun id => id.pid ≠ 0

/-- The bytes and the identity records of the lock file, and the descriptions on it. -/
structure LockFile (ι : Type) where
  stage : ι → Stage
  ownership : Option (LockHolder ι)
  byte : ℕ → Option (LockHolder ι)
  record : ℕ → Option Identity

namespace LockFile

/-- A new lock file. -/
def init (ι : Type) : LockFile ι where
  stage := fun _ => .idle
  ownership := none
  byte := fun _ => none
  record := fun _ => none

inductive Event (ι : Type) where
  /-- `open()` is called: `ensure_dir` and `LockFile::open`. -/
  | call (i : ι) (fault : Option IpcError)
  /-- `probe.probe`. -/
  | probe (i : ι) (answer : Except IpcError Reach)
  /-- `write_identity`. -/
  | write (i : ι) (outcome : WriteOutcome)
  /-- Any other system call of `open()`, and the errno when it fails. -/
  | turn (i : ι) (fault : Option ℕ)
  /-- `start.elapsed() >= self.timeout`. -/
  | clock (i : ι) (elapsed : Bool)
  /-- `Session::take_over_ownership`. -/
  | takeOver (i : ι) (fault : Option ℕ)
  /-- `Session::release_ownership`. -/
  | release (i : ι) (fault : Option ℕ)
  /-- A death, or a session is dropped. -/
  | leave (i : ι)
  /-- Another program takes or frees a byte. -/
  | outsideOwnership (holds : Bool)
  | outsideParticipant (slot : ℕ) (holds : Bool)

section Model

variable {ι : Type} [DecidableEq ι] (s : LockFile ι) (i : ι)

/-- The description goes to a stage. -/
def goto (p : Stage) : LockFile ι := { s with stage := upd s.stage i p }

/-- The lock file is closed: its bytes are freed. -/
def close (p : Stage) : LockFile ι where
  stage := upd s.stage i p
  ownership := if s.ownership = some (.description i) then none else s.ownership
  byte := fun k => if s.byte k = some (.description i) then none else s.byte k
  record := s.record

/-- `open()` returns `Err`, and its lock file is dropped. -/
def fail (e : IpcError) : LockFile ι := s.close i (.failed e)

/-- `try_take_ownership`. -/
def tryTakeOwnership (taken contended : Stage) : LockFile ι :=
  if heldByOther s.ownership i then s.goto i contended
  else { s.goto i taken with ownership := some (.description i) }

/-- `release_ownership` of the lock file. -/
def unlockOwnership (p : Stage) : LockFile ι :=
  { s.goto i p with
    ownership := if s.ownership = some (.description i) then none else s.ownership }

/-- `try_take_participant`. -/
def tryTakeParticipant (slot : ℕ) (taken contended : Stage) : LockFile ι :=
  if heldByOther (s.byte slot) i then s.goto i contended
  else { s.goto i taken with byte := upd s.byte slot (some (.description i)) }

/-- `write_identity` of a slot in range. -/
def writeIdentity (identity : Identity) (slot : ℕ) (written : Stage) : WriteOutcome → LockFile ι
  | .done => { s.goto i written with record := upd s.record slot (some identity) }
  | .short left => { s.fail i (.identityIo slot 0) with record := upd s.record slot left }
  | .error errno => s.fail i (.identityIo slot errno)

/-- A system call of `open()` other than `write_identity`. -/
def turn (create : CreatePolicy) (fault : Option ℕ) : Stage → Option (LockFile ι)
  | .locking slot =>
    match fault with
    | some errno => some (s.fail i (.lockFailed (.participant slot) errno))
    | none => some (s.tryTakeParticipant i slot (.returned ⟨.joined, slot, false⟩) .absent)
  | .absent =>
    match fault with
    | some errno => some (s.fail i (.lockFailed .ownership errno))
    | none => some (s.tryTakeOwnership i
        (if create = .always then .claiming else .scanning 0) .waiting)
  | .scanning k =>
    if k < maxParticipants then
      match fault with
      | some errno => some (s.fail i (.lockFailed (.participant k) errno))
      | none => some (s.goto i (if heldByOther (s.byte k) i then .yielding none
          else .scanning (k + 1)))
    else some (s.goto i (if create = .never then .yielding (some .arenaAbsent) else .claiming))
  | .yielding e =>
    match fault, e with
    | some errno, _ => some (s.fail i (.lockFailed .ownership errno))
    | none, some e => some ((s.unlockOwnership i .waiting).fail i e)
    | none, none => some (s.unlockOwnership i .waiting)
  | .claiming =>
    match fault with
    | some errno => some (s.fail i (.lockFailed (.participant creatorSlot) errno))
    | none => some (s.tryTakeParticipant i creatorSlot .naming (.yielding none))
  | .counting k mask =>
    if k < maxParticipants then
      match fault with
      | some errno => some (s.fail i (.lockFailed (.participant k) errno))
      | none => some (s.goto i (.counting (k + 1)
          (if heldByOther (s.byte k) i then mask ||| 1 <<< k else mask)))
    else some (s.goto i (if mask = 0 then .asking mask 0 else .reading mask))
  | .reading mask =>
    (firstSlot mask).map fun slot =>
      match fault with
      | some errno => s.fail i (.identityIo slot errno)
      | none => s.goto i (.asking mask ((readIdentity (s.record slot)).elim 0 Identity.pid))
  | .asking mask pid =>
    match fault with
    | some errno => some (s.fail i (.lockFailed .ownership errno))
    | none => some (s.fail i (.arenaHeldButUnreachable mask (firstSlot mask) pid
        (heldByOther s.ownership i)))
  | _ => none

/-- `Session::take_over_ownership`. -/
def takeOver (session : Session) : Option ℕ → LockFile ι
  | some _ => s.goto i (.attached session)
  | none =>
    if session.owner then s.goto i (.attached session)
    else s.tryTakeOwnership i (.attached { session with owner := true }) (.attached session)

/-- `Session::release_ownership`. -/
def releaseOwnership (session : Session) : Option ℕ → LockFile ι
  | some _ => s.goto i (.attached session)
  | none =>
    if session.owner then s.unlockOwnership i (.attached { session with owner := false })
    else s.goto i (.attached session)

/-- One step. `create` and `identity` are the policy and the identity of each description. -/
def step (create : ι → CreatePolicy) (identity : ι → Identity) (s : LockFile ι) :
    Event ι → Option (LockFile ι)
  | .call i fault =>
    match s.stage i, fault with
    | .idle, none => some (s.goto i .probing)
    | .idle, some e => some (s.fail i e)
    | _, _ => none
  | .probe i answer =>
    match s.stage i, answer with
    | .probing, .error e | .probing, .ok (.rejected e) => some (s.fail i e)
    | .probing, .ok (.serving slot) => some (s.goto i (.writing slot))
    | .probing, .ok .absent => some (s.goto i .absent)
    | _, _ => none
  | .write i outcome =>
    match s.stage i with
    | .writing slot =>
      if slot < maxParticipants then
        some (s.writeIdentity i (identity i) slot (.locking slot) outcome)
      else some (s.fail i (.noParticipantSlots maxParticipants))
    | .naming =>
      some (s.writeIdentity i (identity i) creatorSlot
        (.returned ⟨.created, creatorSlot, true⟩) outcome)
    | _ => none
  | .turn i fault => s.turn i (create i) fault (s.stage i)
  | .clock i elapsed =>
    match s.stage i with
    | .waiting => some (s.goto i (if elapsed then .counting 0 0 else .probing))
    | _ => none
  | .takeOver i fault => (s.stage i).session?.map fun session => s.takeOver i session fault
  | .release i fault => (s.stage i).session?.map fun session => s.releaseOwnership i session fault
  | .leave i =>
    match s.stage i with
    | .idle | .failed _ | .closed => none
    | _ => some (s.close i .closed)
  | .outsideOwnership true =>
    if s.ownership = none then some { s with ownership := some .outside } else none
  | .outsideOwnership false =>
    if s.ownership = some .outside then some { s with ownership := none } else none
  | .outsideParticipant slot true =>
    if s.byte slot = none then some { s with byte := upd s.byte slot (some .outside) } else none
  | .outsideParticipant slot false =>
    if s.byte slot = some .outside then some { s with byte := upd s.byte slot none } else none

end Model

/-! ## Who holds a byte -/

/-- What `open()` returns. -/
def Stage.Opened : Stage → Prop
  | .returned session =>
    session = ⟨.created, creatorSlot, true⟩ ∨ ∃ slot, session = ⟨.joined, slot, false⟩
  | _ => True

/-- A byte is held exactly by the description whose stage says so. -/
structure Held {ι : Type} (s : LockFile ι) : Prop where
  ownership : ∀ i, s.ownership = some (.description i) ↔ (s.stage i).owns
  byte : ∀ i k, s.byte k = some (.description i) ↔ (s.stage i).slot? = some k
  opened : ∀ i, Stage.Opened (s.stage i)

section Locks

variable {ι : Type}

theorem Held.init : (init ι).Held where
  ownership := fun _ => ⟨(fun h => nomatch h), (fun h => nomatch h)⟩
  byte := fun _ _ => ⟨(fun h => nomatch h), (fun h => nomatch h)⟩
  opened := fun _ => trivial

variable [DecidableEq ι] {s s' : LockFile ι} {i : ι} {p p' q : Stage}

/-- Nobody else holds the byte. -/
theorem eq_of_not_heldByOther {holder : Option (LockHolder ι)} {j : ι}
    (h : ¬ heldByOther holder i) (hj : holder = some (.description j)) : j = i := by
  subst hj
  by_contra hne
  apply h
  simp [heldByOther, hne]

/-- One description moves: the others keep what they hold. -/
theorem Held.move (h : s.Held) (hstage : s'.stage = upd s.stage i p)
    (hown : ∀ j, j ≠ i → (s'.ownership = some (.description j) ↔
      s.ownership = some (.description j)))
    (hbyte : ∀ j, j ≠ i → ∀ k, (s'.byte k = some (.description j) ↔
      s.byte k = some (.description j)))
    (howni : s'.ownership = some (.description i) ↔ p.owns)
    (hbytei : ∀ k, s'.byte k = some (.description i) ↔ p.slot? = some k)
    (hopened : Stage.Opened p) : s'.Held := by
  refine ⟨fun j => ?_, fun j k => ?_, fun j => ?_⟩ <;> rw [hstage] <;> by_cases hj : j = i
  · rwa [hj, upd_self]
  · rw [upd_of_ne _ _ hj, hown j hj]
    exact h.ownership j
  · rw [hj, upd_self]
    exact hbytei k
  · rw [upd_of_ne _ _ hj, hbyte j hj]
    exact h.byte j k
  · rwa [hj, upd_self]
  · rw [upd_of_ne _ _ hj]
    exact h.opened j

/-- A step that takes and frees no byte. -/
theorem Held.goto (h : s.Held) (hi : s.stage i = q) (howns : p.owns = q.owns)
    (hslot : p.slot? = q.slot?) (hopened : Stage.Opened p) : (s.goto i p).Held := by
  subst hi
  exact h.move rfl (fun _ _ => Iff.rfl) (fun _ _ _ => Iff.rfl) (howns ▸ h.ownership i)
    (fun k => hslot ▸ h.byte i k) hopened

/-- Closing the lock file frees the bytes of the description and no others. -/
theorem Held.close (h : s.Held) (howns : p.owns = false) (hslot : p.slot? = none)
    (hopened : Stage.Opened p) : (s.close i p).Held := by
  have hfreed : ∀ (holder : Option (LockHolder ι)) (j : ι), j ≠ i →
      ((if holder = some (.description i) then none else holder) = some (.description j) ↔
        holder = some (.description j)) := by
    intro holder j hj
    split_ifs with hi
    · rw [hi]
      simp [Ne.symm hj]
    · rfl
  have hnone : ∀ holder : Option (LockHolder ι),
      (if holder = some (.description i) then none else holder) ≠ some (.description i) := by
    intro holder
    split_ifs with hi
    · simp
    · exact hi
  refine h.move rfl (hfreed _) (fun j hj k => hfreed (s.byte k) j hj) ?_ (fun k => ?_) hopened
  · rw [howns]
    exact ⟨fun ho => absurd ho (hnone _), fun ho => nomatch ho⟩
  · rw [hslot]
    exact ⟨fun hb => absurd hb (hnone _), fun hb => nomatch hb⟩

theorem Held.fail (h : s.Held) (e : IpcError) : (s.fail i e).Held := h.close rfl rfl trivial

/-- `try_take_ownership` by a description that does not have the byte. -/
theorem Held.tryTakeOwnership (h : s.Held) (hi : s.stage i = q) (howns : p.owns = true)
    (howns' : p'.owns = q.owns) (hslot : p.slot? = q.slot?) (hslot' : p'.slot? = q.slot?)
    (hopened : Stage.Opened p) (hopened' : Stage.Opened p') :
    (s.tryTakeOwnership i p p').Held := by
  rw [LockFile.tryTakeOwnership]
  split_ifs with hheld
  · exact h.goto hi howns' hslot' hopened'
  · subst hi
    refine h.move rfl (fun j hj => ?_) (fun _ _ _ => Iff.rfl) ?_ (fun k => hslot ▸ h.byte i k)
      hopened
    · have hne : s.ownership ≠ some (.description j) :=
        fun ho => hj (eq_of_not_heldByOther hheld ho)
      simp [Ne.symm hj, hne]
    · simp [howns]

/-- `release_ownership`. -/
theorem Held.unlockOwnership (h : s.Held) (hi : s.stage i = q) (howns : p.owns = false)
    (hslot : p.slot? = q.slot?) (hopened : Stage.Opened p) : (s.unlockOwnership i p).Held := by
  subst hi
  refine h.move rfl (fun j hj => ?_) (fun _ _ _ => Iff.rfl) ?_ (fun k => hslot ▸ h.byte i k)
    hopened
  · change (if _ then none else s.ownership) = _ ↔ _
    split_ifs with hi
    · rw [hi]
      simp [Ne.symm hj]
    · rfl
  · change (if _ then none else s.ownership) = _ ↔ _
    rw [howns]
    split_ifs with hi
    · simp
    · simpa using hi

/-- `try_take_participant` by a description that has no byte of a slot. -/
theorem Held.tryTakeParticipant (h : s.Held) {slot : ℕ} (hi : s.stage i = q)
    (hnone : q.slot? = none) (howns : p.owns = q.owns) (howns' : p'.owns = q.owns)
    (hslot : p.slot? = some slot) (hslot' : p'.slot? = none)
    (hopened : Stage.Opened p) (hopened' : Stage.Opened p') :
    (s.tryTakeParticipant i slot p p').Held := by
  rw [LockFile.tryTakeParticipant]
  split_ifs with hheld
  · exact h.goto hi howns' (hslot'.trans hnone.symm) hopened'
  · subst hi
    have hno : ∀ k, s.byte k ≠ some (.description i) := by
      intro k hk
      rw [h.byte, hnone] at hk
      cases hk
    refine h.move rfl (fun _ _ => Iff.rfl) (fun j hj k => ?_) (howns ▸ h.ownership i)
      (fun k => ?_) hopened
    · change upd s.byte slot _ k = _ ↔ _
      by_cases hk : k = slot
      · have hne : s.byte slot ≠ some (.description j) :=
          fun hb => hj (eq_of_not_heldByOther hheld hb)
        rw [hk, upd_self]
        simp [Ne.symm hj, hne]
      · rw [upd_of_ne _ _ hk]
    · change upd s.byte slot _ k = _ ↔ _
      rw [hslot]
      by_cases hk : k = slot
      · rw [hk, upd_self]
        simp
      · rw [upd_of_ne _ _ hk]
        simp [hno k, Ne.symm hk]

/-- `write_identity`. -/
theorem Held.writeIdentity (h : s.Held) {identity : Identity} {slot : ℕ} {outcome : WriteOutcome}
    (hi : s.stage i = q) (howns : p.owns = q.owns) (hslot : p.slot? = q.slot?)
    (hopened : Stage.Opened p) : (s.writeIdentity i identity slot p outcome).Held := by
  cases outcome with
  | done =>
    have hgoto := h.goto hi howns hslot hopened
    exact ⟨hgoto.ownership, hgoto.byte, hgoto.opened⟩
  | short left =>
    have hfail := h.fail (i := i) (.identityIo slot 0)
    exact ⟨hfail.ownership, hfail.byte, hfail.opened⟩
  | error errno => exact h.fail _

/-- A system call of `open()`. -/
theorem Held.turn (h : s.Held) {create : CreatePolicy} {fault : Option ℕ}
    (hi : s.stage i = q) (hturn : s.turn i create fault q = some s') : s'.Held := by
  cases q with
  | locking slot =>
    cases fault <;> cases hturn
    · exact h.tryTakeParticipant hi rfl rfl rfl rfl rfl (.inr ⟨slot, rfl⟩) trivial
    · exact h.fail _
  | absent =>
    cases fault <;> cases hturn
    · split_ifs <;> exact h.tryTakeOwnership hi rfl rfl rfl rfl trivial trivial
    · exact h.fail _
  | scanning k =>
    simp only [LockFile.turn] at hturn
    cases fault <;> split_ifs at hturn <;> cases hturn <;>
      first | exact h.goto hi rfl rfl trivial | exact h.fail _
  | yielding e =>
    have hunlock := h.unlockOwnership hi (p := .waiting) rfl rfl trivial
    cases fault <;> cases e <;> cases hturn
    · exact hunlock
    · exact hunlock.fail _
    · exact h.fail _
    · exact h.fail _
  | claiming =>
    cases fault <;> cases hturn
    · exact h.tryTakeParticipant hi rfl rfl rfl rfl rfl trivial trivial
    · exact h.fail _
  | counting k mask =>
    simp only [LockFile.turn] at hturn
    cases fault <;> split_ifs at hturn <;> cases hturn <;>
      first | exact h.goto hi rfl rfl trivial | exact h.fail _
  | reading mask =>
    obtain ⟨slot, -, hslot⟩ := Option.map_eq_some_iff.mp hturn
    cases fault <;> cases hslot
    · exact h.goto hi rfl rfl trivial
    · exact h.fail _
  | asking mask pid =>
    cases fault <;> cases hturn <;> exact h.fail _
  | idle | probing | writing | naming | waiting | returned | failed | attached | closed =>
    cases hturn

/-- The methods of `Session`. -/
theorem Held.takeOver (h : s.Held) {session : Session} (hi : (s.stage i).session? = some session)
    (fault : Option ℕ) : (s.takeOver i session fault).Held ∧
    (s.releaseOwnership i session fault).Held := by
  have howns : (s.stage i).owns = session.owner ∧ (s.stage i).slot? = some session.slot := by
    cases hstage : s.stage i <;> rw [hstage] at hi <;> cases hi <;> exact ⟨rfl, rfl⟩
  have hsame : (s.goto i (.attached session)).Held :=
    h.goto rfl howns.1.symm howns.2.symm trivial
  cases fault with
  | some errno => exact ⟨hsame, hsame⟩
  | none =>
    rw [LockFile.takeOver, LockFile.releaseOwnership]
    split_ifs with howner
    · exact ⟨hsame, h.unlockOwnership rfl rfl howns.2.symm trivial⟩
    · exact ⟨h.tryTakeOwnership rfl rfl howns.1.symm howns.2.symm howns.2.symm trivial trivial,
        hsame⟩

omit [DecidableEq ι] in
/-- Programs outside take free bytes and free their own. -/
theorem Held.outside (h : s.Held) {ownership : Option (LockHolder ι)}
    {byte : ℕ → Option (LockHolder ι)}
    (hown : ∀ j, ownership = some (.description j) ↔ s.ownership = some (.description j))
    (hbyte : ∀ j k, byte k = some (.description j) ↔ s.byte k = some (.description j)) :
    Held { s with ownership := ownership, byte := byte } :=
  ⟨fun i => (hown i).trans (h.ownership i), fun i k => (hbyte i k).trans (h.byte i k), h.opened⟩

variable {create : ι → CreatePolicy} {identity : ι → Identity}

/-- A step keeps the stages true. -/
theorem Held.step (h : s.Held) {e : Event ι} (hstep : step create identity s e = some s') :
    s'.Held := by
  cases e with
  | call i fault =>
    simp only [LockFile.step] at hstep
    split at hstep <;> rename_i hi <;> cases hstep
    · exact h.goto hi rfl rfl trivial
    · exact h.fail _
  | probe i answer =>
    simp only [LockFile.step] at hstep
    split at hstep <;> rename_i hi <;> cases hstep
    · exact h.fail _
    · exact h.fail _
    · exact h.goto hi rfl rfl trivial
    · exact h.goto hi rfl rfl trivial
  | write i outcome =>
    simp only [LockFile.step] at hstep
    split at hstep <;> rename_i hi
    · split_ifs at hstep <;> cases hstep
      · exact h.writeIdentity hi rfl rfl trivial
      · exact h.fail _
    · cases hstep
      exact h.writeIdentity hi rfl rfl (.inl rfl)
    · cases hstep
  | turn i fault => exact h.turn rfl hstep
  | clock i elapsed =>
    simp only [LockFile.step] at hstep
    split at hstep <;> rename_i hi <;> cases hstep
    split_ifs <;> exact h.goto hi rfl rfl trivial
  | takeOver i fault =>
    obtain ⟨session, hi, rfl⟩ := Option.map_eq_some_iff.mp hstep
    exact (h.takeOver hi fault).1
  | release i fault =>
    obtain ⟨session, hi, rfl⟩ := Option.map_eq_some_iff.mp hstep
    exact (h.takeOver hi fault).2
  | leave i =>
    simp only [LockFile.step] at hstep
    split at hstep <;> cases hstep
    exact h.close rfl rfl trivial
  | outsideOwnership holds =>
    cases holds <;> simp only [LockFile.step] at hstep <;> split_ifs at hstep with hold <;>
      cases hstep <;> exact h.outside (fun j => by rw [hold]; simp) fun _ _ => Iff.rfl
  | outsideParticipant slot holds =>
    cases holds <;> simp only [LockFile.step] at hstep <;> split_ifs at hstep with hold <;>
      cases hstep <;> refine h.outside (fun _ => Iff.rfl) fun j k => ?_ <;>
      by_cases hk : k = slot
    · rw [hk, upd_self, hold]
      simp
    · rw [upd_of_ne _ _ hk]
    · rw [hk, upd_self, hold]
      simp
    · rw [upd_of_ne _ _ hk]

theorem Held.reachable (h : Reachable (LockFile.step create identity) (LockFile.init ι) s) :
    s.Held :=
  h.invariant (fun _ _ _ hs _ hst => hs.step hst) Held.init

omit [DecidableEq ι] in
/-- A call that fails leaves no byte taken. -/
theorem Held.failed (h : s.Held) {e : IpcError} (hi : s.stage i = .failed e) :
    s.ownership ≠ some (.description i) ∧ ∀ k, s.byte k ≠ some (.description i) := by
  refine ⟨fun ho => ?_, fun k hb => ?_⟩
  · rw [h.ownership, hi] at ho
    cases ho
  · rw [h.byte, hi] at hb
    cases hb

omit [DecidableEq ι] in
/-- A call that returns a session has the bytes of its outcome. -/
theorem Held.returned (h : s.Held) {session : Session} (hi : s.stage i = .returned session) :
    (session.outcome = .joined → s.ownership ≠ some (.description i)) ∧
    (session.outcome = .created → s.ownership = some (.description i) ∧
      s.byte creatorSlot = some (.description i)) := by
  have hopened := h.opened i
  rw [hi] at hopened
  rcases hopened with rfl | ⟨slot, rfl⟩
  · refine ⟨(fun ho => nomatch ho), fun _ => ⟨?_, ?_⟩⟩
    · rw [h.ownership, hi]
      rfl
    · rw [h.byte, hi]
      rfl
  · refine ⟨fun _ ho => ?_, (fun ho => nomatch ho)⟩
    rw [h.ownership, hi] at ho
    cases ho

end Locks

end LockFile

end TfTree.Ipc
