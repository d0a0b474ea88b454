import Mathlib
import TfTree.Shm.Session

/-!
# The identity records

Whom `ArenaHeldButUnreachable` names. `register_creator` writes its record after the byte is
taken and `register_at` before it is tried, so the record of a joiner that loses a slot stays
under the byte of the winner.

Results:
* `Named.step`: the records keep the names of the sessions, if joiners write in turn.
* `identity_of_holder`: then the record and the pid of an error are the holder's.
* `identity_of_loser`: two owners grant one slot, and the error names the joiner that lost.
-/

namespace TfTree.Ipc.LockFile

open Conc

variable {ι : Type}

/-- A joiner writes the record of a slot only while no session has the byte, and its record
is still there when it takes the byte. -/
def InTurn [DecidableEq ι] (identity : ι → Identity) (s : LockFile ι) : Event ι → Prop
  | .write i _ => ∀ slot j, s.stage i = .writing slot →
      s.byte slot = some (.description j) → (s.stage j).session? = none
  | .turn i none => ∀ slot, s.stage i = .locking slot → ¬ heldByOther (s.byte slot) i →
      s.record slot = some (identity i)
  | _ => True

/-- The record of a session is the one of its description. -/
def Named (identity : ι → Identity) (s : LockFile ι) : Prop :=
  ∀ j session, (s.stage j).session? = some session →
    s.record session.slot = some (identity j)

theorem Named.init (identity : ι → Identity) : Named identity (init ι) :=
  fun _ _ h => nomatch h

section Steps

variable [DecidableEq ι] {s s' : LockFile ι} {i : ι} {p : Stage}
  {create : ι → CreatePolicy} {identity : ι → Identity}

/-- A step that writes no record and makes no session. -/
theorem Named.same (h : Named identity s) (hstage : s'.stage = upd s.stage i p)
    (hrecord : s'.record = s.record)
    (hsession : ∀ session, p.session? = some session →
      s.record session.slot = some (identity i)) : Named identity s' := by
  intro j session hj
  rw [hstage] at hj
  rw [hrecord]
  by_cases hji : j = i
  · rw [hji, upd_self] at hj
    rw [hji]
    exact hsession session hj
  · rw [upd_of_ne _ _ hji] at hj
    exact h j session hj

/-- A step to a stage without a session. -/
theorem Named.without (h : Named identity s) (hstage : s'.stage = upd s.stage i p)
    (hrecord : s'.record = s.record) (hp : p.session? = none) : Named identity s' :=
  h.same hstage hrecord fun session hs => by rw [hp] at hs; cases hs

/-- A record is written for a slot that no other session has. -/
theorem Named.written (h : Named identity s) {slot : ℕ} {record : Option Identity}
    (hstage : s'.stage = upd s.stage i p) (hrecord : s'.record = upd s.record slot record)
    (hothers : ∀ j session, j ≠ i → (s.stage j).session? = some session → session.slot ≠ slot)
    (hsession : ∀ session, p.session? = some session →
      session.slot = slot ∧ record = some (identity i)) : Named identity s' := by
  intro j session hj
  rw [hstage] at hj
  rw [hrecord]
  by_cases hji : j = i
  · rw [hji, upd_self] at hj
    obtain ⟨hslot, hid⟩ := hsession session hj
    rw [hslot, upd_self, hid, hji]
  · rw [upd_of_ne _ _ hji] at hj
    rw [upd_of_ne _ _ (hothers j session hji hj)]
    exact h j session hj

omit [DecidableEq ι] in
/-- A session holds the byte of its slot. -/
theorem Held.session (h : s.Held) {session : Session} (hi : (s.stage i).session? = some session) :
    s.byte session.slot = some (.description i) := by
  rw [h.byte]
  cases hstage : s.stage i <;> rw [hstage] at hi <;> cases hi <;> rfl

/-- `write_identity`. -/
theorem Named.writeIdentity (h : Named identity s) {slot : ℕ} {outcome : WriteOutcome}
    (hothers : ∀ j session, j ≠ i → (s.stage j).session? = some session → session.slot ≠ slot)
    (hp : ∀ session, p.session? = some session → session.slot = slot) :
    Named identity (s.writeIdentity i (identity i) slot p outcome) := by
  cases outcome with
  | done => exact h.written rfl rfl hothers fun session hs => ⟨hp session hs, rfl⟩
  | short left => exact h.written (p := .failed _) rfl rfl hothers fun _ hs => nomatch hs
  | error errno => exact h.without rfl rfl rfl

/-- A system call of `open()` other than `write_identity`. -/
theorem Named.turn (h : Named identity s) {fault : Option ℕ}
    (hturn : InTurn identity s (.turn i fault))
    (hstep : s.turn i (create i) fault (s.stage i) = some s') : Named identity s' := by
  cases hi : s.stage i with
  | locking slot =>
    rw [hi] at hstep
    cases fault <;> cases hstep
    · rw [tryTakeParticipant]
      split_ifs with hheld
      · exact h.without rfl rfl rfl
      · refine h.same rfl rfl fun session hs => ?_
        cases hs
        exact hturn slot hi hheld
    · exact h.without rfl rfl rfl
  | absent =>
    rw [hi] at hstep
    cases fault <;> cases hstep
    · rw [tryTakeOwnership]
      split_ifs <;> exact h.without rfl rfl rfl
    · exact h.without rfl rfl rfl
  | claiming =>
    rw [hi] at hstep
    cases fault <;> cases hstep
    · rw [tryTakeParticipant]
      split_ifs <;> exact h.without rfl rfl rfl
    · exact h.without rfl rfl rfl
  | yielding e =>
    rw [hi] at hstep
    cases fault <;> cases e <;> cases hstep
    · exact h.without rfl rfl rfl
    · have hunlock : Named identity (s.unlockOwnership i .waiting) := h.without rfl rfl rfl
      exact hunlock.without rfl rfl rfl
    · exact h.without rfl rfl rfl
    · exact h.without rfl rfl rfl
  | scanning k =>
    rw [hi] at hstep
    simp only [LockFile.turn] at hstep
    cases fault <;> split_ifs at hstep <;> cases hstep <;> exact h.without rfl rfl rfl
  | counting k mask =>
    rw [hi] at hstep
    simp only [LockFile.turn] at hstep
    cases fault <;> split_ifs at hstep <;> cases hstep <;> exact h.without rfl rfl rfl
  | reading mask =>
    rw [hi] at hstep
    obtain ⟨slot, -, hslot⟩ := Option.map_eq_some_iff.mp hstep
    cases fault <;> cases hslot <;> exact h.without rfl rfl rfl
  | asking mask pid =>
    rw [hi] at hstep
    cases fault <;> cases hstep <;> exact h.without rfl rfl rfl
  | idle | probing | writing | naming | waiting | returned | failed | attached | closed =>
    rw [hi] at hstep
    cases hstep

/-- The methods of `Session` keep the slot. -/
theorem Named.session (h : Named identity s) {session : Session} (fault : Option ℕ)
    (hi : (s.stage i).session? = some session) :
    Named identity (s.takeOver i session fault) ∧
    Named identity (s.releaseOwnership i session fault) := by
  have hkeep : ∀ (s' : LockFile ι) (owner : Bool),
      s'.stage = upd s.stage i (.attached { session with owner := owner }) →
      s'.record = s.record → Named identity s' := by
    intro s' owner hstage hrecord
    refine h.same hstage hrecord fun session' hs => ?_
    cases hs
    exact h i session hi
  cases fault with
  | some errno => exact ⟨hkeep _ session.owner rfl rfl, hkeep _ session.owner rfl rfl⟩
  | none =>
    rw [takeOver, releaseOwnership, tryTakeOwnership]
    split_ifs
    · exact ⟨hkeep _ session.owner rfl rfl, hkeep _ false rfl rfl⟩
    · exact ⟨hkeep _ session.owner rfl rfl, hkeep _ session.owner rfl rfl⟩
    · exact ⟨hkeep _ true rfl rfl, hkeep _ session.owner rfl rfl⟩

theorem Named.step (h : Named identity s) (hheld : s.Held) {e : Event ι}
    (hturn : InTurn identity s e) (hstep : step create identity s e = some s') :
    Named identity s' := by
  cases e with
  | call i fault =>
    simp only [LockFile.step] at hstep
    split at hstep <;> cases hstep <;> exact h.without rfl rfl rfl
  | probe i answer =>
    simp only [LockFile.step] at hstep
    split at hstep <;> cases hstep <;> exact h.without rfl rfl rfl
  | write i outcome =>
    simp only [LockFile.step] at hstep
    split at hstep <;> rename_i hi
    · rename_i slot
      split_ifs at hstep <;> cases hstep
      · refine h.writeIdentity (fun j session _ hj hslot => ?_) (by rintro _ ⟨⟩)
        have hbyte := hheld.session hj
        rw [hslot] at hbyte
        rw [hturn slot j hi hbyte] at hj
        cases hj
      · exact h.without rfl rfl rfl
    · cases hstep
      refine h.writeIdentity (fun j session hne hj hslot => hne ?_) fun _ hs => by cases hs; rfl
      -- the creator has the byte already
      have hbyte := hheld.session hj
      rw [hslot, (hheld.byte i creatorSlot).mpr (by rw [hi]; rfl)] at hbyte
      cases hbyte
      rfl
    · cases hstep
  | turn i fault => exact h.turn hturn hstep
  | clock i elapsed =>
    simp only [LockFile.step] at hstep
    split at hstep <;> cases hstep
    split_ifs <;> exact h.without rfl rfl rfl
  | takeOver i fault =>
    obtain ⟨session, hi, rfl⟩ := Option.map_eq_some_iff.mp hstep
    exact (h.session fault hi).1
  | release i fault =>
    obtain ⟨session, hi, rfl⟩ := Option.map_eq_some_iff.mp hstep
    exact (h.session fault hi).2
  | leave i =>
    simp only [LockFile.step] at hstep
    split at hstep <;> cases hstep
    exact h.without rfl rfl rfl
  | outsideOwnership holds =>
    cases holds <;> simp only [LockFile.step] at hstep <;> split_ifs at hstep <;> cases hstep <;>
      exact h
  | outsideParticipant slot holds =>
    cases holds <;> simp only [LockFile.step] at hstep <;> split_ifs at hstep <;> cases hstep <;>
      exact h

/-- While joiners write in turn, the record of a held slot is the one of its session, and
`held_but_unreachable` reads the pid of the holder. -/
theorem identity_of_holder
    (hrun : Runs (LockFile.step create identity) (InTurn identity) (LockFile.init ι) s) :
    (∀ k j session, s.byte k = some (.description j) → (s.stage j).session? = some session →
      s.record k = some (identity j)) ∧
    ∀ i mask k j session s', s.stage i = .reading mask → firstSlot mask = some k →
      s.byte k = some (.description j) → (s.stage j).session? = some session →
      LockFile.step create identity s (.turn i none) = some s' →
      s'.stage i = .asking mask (identity j).pid := by
  have hstep : Preserved (LockFile.step create identity) (InTurn identity)
      fun s => s.Held ∧ Named identity s :=
    fun _ _ _ h hok hst => ⟨h.1.step hst, h.2.step h.1 hok hst⟩
  obtain ⟨hheld, hnamed⟩ := hrun.invariant hstep ⟨Held.init, Named.init identity⟩
  have hrecord : ∀ k j session, s.byte k = some (.description j) →
      (s.stage j).session? = some session → s.record k = some (identity j) := by
    intro k j session hbyte hj
    have hslot := (hheld.byte j k).mp hbyte
    rw [(hheld.byte j session.slot).mp (hheld.session hj)] at hslot
    rw [← Option.some_inj.mp hslot]
    exact hnamed j session hj
  refine ⟨hrecord, fun i mask k j session s' hi hfirst hbyte hj hstep => ?_⟩
  change s.turn i _ none (s.stage i) = some s' at hstep
  rw [hi] at hstep
  simp only [LockFile.turn, hfirst, Option.map_some, hrecord k j session hbyte hj] at hstep
  cases hstep
  change upd s.stage i _ i = _
  rw [upd_self, readIdentity]
  by_cases hpid : (identity j).pid = 0
  · simp [Option.filter, hpid]
  · simp [Option.filter, hpid]

end Steps

/-- The identities of four processes. -/
def identityOf (i : Fin 4) : Identity := ⟨100 + i, 7, [], .readWrite, [], 0⟩

/-- Processes `1` and `2` join, one in the middle of the other, and each record is the holder's
own. -/
theorem identity_of_holder_two : ∃ s : LockFile (Fin 4),
    s.stage 1 = .returned ⟨.joined, 1, false⟩ ∧ s.stage 2 = .returned ⟨.joined, 2, false⟩ ∧
    s.record 1 = some (identityOf 1) ∧ s.record 2 = some (identityOf 2) := by
  have h1 : Runs (step (fun _ => .ifAbsent) identityOf) (InTurn identityOf) (init (Fin 4)) _ :=
    .step (e := .call 1 none) .refl trivial rfl
  have h2 := h1.step (e := Event.probe 1 (.ok (.serving 1))) trivial rfl
  have h3 := h2.step (e := Event.call 2 none) trivial rfl
  have h4 := h3.step (e := Event.write 1 .done) (fun _ _ _ hb => nomatch hb) rfl
  have h5 := h4.step (e := Event.probe 2 (.ok (.serving 2))) trivial rfl
  have h6 := h5.step (e := Event.write 2 .done) (fun _ _ _ hb => nomatch hb) rfl
  have h7 := h6.step (e := Event.turn 1 none) (fun slot hs _ => by cases hs; rfl) rfl
  have h8 := h7.step (e := Event.turn 2 none) (fun slot hs _ => by cases hs; rfl) rfl
  have hrecords := (identity_of_holder h8).1
  exact ⟨_, rfl, rfl, hrecords 1 1 _ rfl rfl, hrecords 2 2 _ rfl rfl⟩

/-! ## Two owners that grant one slot -/

/-- A process creates an arena. -/
def createEvents (i : Fin 4) : List (Event (Fin 4)) :=
  List.flatten [[.call i none, .probe i (.ok .absent)],
    List.replicate (maxParticipants + 3) (.turn i none), [.write i .done]]

/-- Process `0` grants slot `1` to process `1` and dies; process `2` creates an arena and
grants slot `1` to process `3`, which joins; then process `1` writes its record and loses
the byte. Process `2` dies, and process `1` waits for its deadline. -/
def loserEvents : List (Event (Fin 4)) :=
  List.flatten [createEvents 0, [.call 1 none, .probe 1 (.ok (.serving 1)), .leave 0],
    createEvents 2,
    [.call 3 none, .probe 3 (.ok (.serving 1)), .write 3 .done, .turn 3 none],
    [.write 1 .done, .turn 1 none, .leave 2],
    List.replicate 4 (.turn 1 none), [.clock 1 true],
    List.replicate (maxParticipants + 3) (.turn 1 none)]

set_option maxRecDepth 20000 in
/-- Process `3` has the byte of slot `1`, nobody is taking the slot, and the record is the
one of process `1`: the error that process `1` returns names itself. -/
theorem identity_of_loser : ∃ s : LockFile (Fin 4),
    Reachable (step (fun _ => .ifAbsent) identityOf) (init (Fin 4)) s ∧
    s.byte 1 = some (.description 3) ∧ s.stage 3 = .returned ⟨.joined, 1, false⟩ ∧
    (∀ i, (s.stage i).taking? ≠ some 1) ∧ s.record 1 ≠ some (identityOf 3) ∧
    s.stage 1 = .failed (.arenaHeldButUnreachable 2 (some 1) (identityOf 1).pid false) := by
  have hexec : (execAll (step (fun _ => .ifAbsent) identityOf) (init (Fin 4)) loserEvents).any
      (fun s => s.byte 1 = some (.description 3) ∧ s.stage 3 = .returned ⟨.joined, 1, false⟩ ∧
        (∀ i, (s.stage i).taking? ≠ some 1) ∧ s.record 1 ≠ some (identityOf 3) ∧
        s.stage 1 = .failed (.arenaHeldButUnreachable 2 (some 1) (identityOf 1).pid false)) := by
    decide
  obtain ⟨s, hs, hP⟩ := (Option.any_eq_true _ _).mp hexec
  exact ⟨s, reachable_of_execAll hs, of_decide_eq_true hP⟩

end TfTree.Ipc.LockFile
