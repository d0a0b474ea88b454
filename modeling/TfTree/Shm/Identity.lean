import Mathlib
import TfTree.Shm.Participant

/-!
# The identity of a participant record

One record of the participant table (`tf_tree_core/src/participant.rs`) and any number of
threads that register in it, release it, reclaim it and read its identity, each access a
step of its own, and the liveness verdict that `participant_is_alive` (`tf_tree/src/tree.rs`)
forms from an identity.

Results:
* `Inv.step`: what a step makes of the fields and of the threads that read them.
* `identity_registered`: along every run in which no field is stored under a reader and no
  registrant is reclaimed, an identity is that of one registration.
* `identity_torn`: a slot that is registered again between two loads.
-/

namespace TfTree

open Conc

/-! ## Model of `participant.rs` -/

/-- `ParticipantRecord`. -/
structure ParticipantRecord where
  state : ℕ
  pid : ℕ
  startTime : ℕ
  incarnation : ℕ
  attachedAtNanos : ℤ
  heartbeat : ℕ
  deriving DecidableEq

/-- The arguments of `fill_slot`. -/
structure Registrant where
  pid : ℕ
  startTime : ℕ
  now : ℤ
  deriving DecidableEq

/-- A `(pid, start_time, incarnation)`. -/
structure Identity where
  pid : ℕ
  startTime : ℕ
  incarnation : ℕ
  deriving DecidableEq

/-- The fields of a record that `identity` loads. -/
def ParticipantRecord.identity (record : ParticipantRecord) : Identity :=
  ⟨record.pid, record.startTime, record.incarnation⟩

/-- Where a thread is in `fill_slot` (lines 134–150) or in `identity` (lines 264–276). -/
inductive RecordPhase where
  | idle
  /-- The compare-and-swap has succeeded. -/
  | reserved (r : Registrant)
  | pidStored (r : Registrant)
  | startStored (r : Registrant)
  | attachedStored (r : Registrant)
  | heartbeatStored (r : Registrant)
  /-- `incarnation.fetch_add` has returned; the live word is not stored. -/
  | counted (r : Registrant) (incarnation : ℕ)
  /-- `identity` has found the slot `LIVE`. -/
  | checked
  | pidLoaded (pid : ℕ)
  | startLoaded (pid startTime : ℕ)
  /-- `identity` has returned `Some`. -/
  | identified (id : Identity)
  deriving DecidableEq

namespace RecordPhase

/-- Between the compare-and-swap and the live word of `fill_slot`. -/
def Filling : RecordPhase → Prop
  | .reserved _ | .pidStored _ | .startStored _ | .attachedStored _ | .heartbeatStored _
  | .counted _ _ => True
  | _ => False

/-- Between the check and the last load of `identity`. -/
def Reading : RecordPhase → Prop
  | .checked | .pidLoaded _ | .startLoaded _ _ => True
  | _ => False

/-- The next access stores a field that `identity` loads. -/
def StoresField : RecordPhase → Prop
  | .reserved _ | .pidStored _ | .heartbeatStored _ => True
  | _ => False

/-- The thread is in no call. -/
def Ready : RecordPhase → Bool
  | .idle | .identified _ => true
  | _ => false

end RecordPhase

/-- A record and its threads. `registered` is auxiliary: the registrations so far. -/
structure RecordSys (ι : Type) where
  slot : ParticipantRecord
  thread : ι → RecordPhase
  registered : List Identity

namespace RecordSys

variable {ι : Type} [DecidableEq ι]

/-- A fresh arena. -/
def init : RecordSys ι where
  slot := ⟨FREE, 0, 0, 0, 0, 0⟩
  thread := fun _ => .idle
  registered := []

inductive Event (ι : Type) where
  /-- `fill_slot` is called: its compare-and-swap. -/
  | register (i : ι) (r : Registrant)
  /-- The next access of `fill_slot`. -/
  | fill (i : ι)
  /-- `release`. -/
  | release (incarnation : ℕ)
  /-- `reclaim`. -/
  | reclaim (observed : ℕ)
  /-- `identity` is called: its load of the state. -/
  | check (i : ι)
  /-- The next load of `identity`. -/
  | load (i : ι)
  | die (i : ι)

variable (s : RecordSys ι) (i : ι)

/-- The thread goes to a phase. -/
def goto (p : RecordPhase) : RecordSys ι := { s with thread := upd s.thread i p }

/-- `state.compare_exchange(word, FREE)`. -/
def exchange (word : ℕ) : RecordSys ι :=
  if s.slot.state = word then { s with slot := { s.slot with state := FREE } } else s

/-- The accesses of `fill_slot` after its compare-and-swap. -/
def fill : RecordPhase → Option (RecordSys ι)
  | .reserved r => some { s.goto i (.pidStored r) with slot := { s.slot with pid := r.pid } }
  | .pidStored r =>
    some { s.goto i (.startStored r) with slot := { s.slot with startTime := r.startTime } }
  | .startStored r =>
    some { s.goto i (.attachedStored r) with slot := { s.slot with attachedAtNanos := r.now } }
  | .attachedStored r =>
    some { s.goto i (.heartbeatStored r) with slot := { s.slot with heartbeat := 0 } }
  | .heartbeatStored r =>
    let incarnation := (s.slot.incarnation + 1) % 2 ^ 64
    some { s.goto i (.counted r incarnation) with
      slot := { s.slot with incarnation := incarnation }
      registered := ⟨r.pid, r.startTime, incarnation⟩ :: s.registered }
  | .counted _ incarnation =>
    some { s.goto i .idle with slot := { s.slot with state := liveWord incarnation } }
  | _ => none

/-- The loads of `identity` after its check. -/
def load : RecordPhase → Option (RecordSys ι)
  | .checked => some (s.goto i (.pidLoaded s.slot.pid))
  | .pidLoaded pid => some (s.goto i (.startLoaded pid s.slot.startTime))
  | .startLoaded pid startTime =>
    some (s.goto i (.identified ⟨pid, startTime, s.slot.incarnation⟩))
  | _ => none

/-- One step. -/
def step (s : RecordSys ι) : Event ι → Option (RecordSys ι)
  | .register i r =>
    if (s.thread i).Ready then
      if s.slot.state = FREE then
        some { s.goto i (.reserved r) with slot := { s.slot with state := RESERVED } }
      else some (s.goto i .idle)
    else none
  | .fill i => s.fill i (s.thread i)
  | .release incarnation => some (s.exchange (liveWord incarnation))
  | .reclaim observed => some (s.exchange observed)
  | .check i =>
    if (s.thread i).Ready then
      some (s.goto i (if stateOf s.slot.state ≠ LIVE then .idle else .checked))
    else none
  | .load i => s.load i (s.thread i)
  | .die i => some (s.goto i .idle)

/-- No field is stored under a thread that reads the identity, and no thread loses the slot
    while it fills it. -/
def Calm (s : RecordSys ι) : Event ι → Prop
  | .fill i => (s.thread i).StoresField → ∀ j, ¬ (s.thread j).Reading
  | .reclaim observed => observed = RESERVED → ∀ j, ¬ (s.thread j).Filling
  | _ => True

end RecordSys

/-! ## Model of `tree.rs` -/

/-- `ProcStartTime`. -/
inductive ProcStartTime where
  | known (startTime : ℕ)
  | noSuchProcess
  | unreadable
  deriving DecidableEq

/-- `UNKNOWN_START_TIME`. -/
def unknownStartTime : ℕ := 0

/-- `alive_given` (lines 2502–2515). -/
def aliveGiven (storedStartTime : ℕ) (probe : ProcStartTime) (procAnswers : Bool) : Bool :=
  match probe with
  | .known st => if storedStartTime = unknownStartTime then true else st == storedStartTime
  | .noSuchProcess => !procAnswers
  | .unreadable => true

/-- `participant_is_alive` (lines 2529–2550), on what `identity` returned: `otherBoot` when
    both boot ids are known and differ. -/
def participantIsAlive (otherBoot : Bool) (identity : Option Identity)
    (readStartTime : ℕ → ProcStartTime) (procAnswers : Bool) : Bool :=
  if otherBoot then false
  else
    match identity with
    | none => false
    | some id => aliveGiven id.startTime (readStartTime id.pid) procAnswers

/-! ## The fields and the threads -/

namespace RecordSys

variable {ι : Type} {s s' : RecordSys ι} {i j : ι}

/-- What a thread knows of the fields: those it has stored, or those it has loaded. -/
def Sees (s : RecordSys ι) : RecordPhase → Prop
  | .idle | .reserved _ => True
  | .pidStored r => s.slot.pid = r.pid
  | .startStored r | .attachedStored r | .heartbeatStored r =>
    s.slot.pid = r.pid ∧ s.slot.startTime = r.startTime
  | .counted _ incarnation =>
    s.slot.incarnation = incarnation ∧ s.slot.identity ∈ s.registered
  | .checked => s.slot.identity ∈ s.registered
  | .pidLoaded pid => s.slot.pid = pid ∧ s.slot.identity ∈ s.registered
  | .startLoaded pid startTime =>
    s.slot.pid = pid ∧ s.slot.startTime = startTime ∧ s.slot.identity ∈ s.registered
  | .identified id => id ∈ s.registered

/-- One thread fills the slot at most, and then its word is `RESERVED`; the fields of a live
    slot are those of one registration. -/
structure Inv (s : RecordSys ι) : Prop where
  alone : ∀ i j, (s.thread i).Filling → (s.thread j).Filling → i = j
  reserved : ∀ i, (s.thread i).Filling → s.slot.state = RESERVED
  live : stateOf s.slot.state = LIVE → s.slot.identity ∈ s.registered
  sees : ∀ i, s.Sees (s.thread i)

theorem Inv.init : (init : RecordSys ι).Inv where
  alone := fun _ _ h => h.elim
  reserved := fun _ h => h.elim
  live := fun h => absurd (show stateOf FREE = LIVE from h) (by decide)
  sees := fun _ => trivial

/-- What a thread knows stays true when the fields do not change. -/
theorem Sees.of_same {p : RecordPhase} (h : s.Sees p) (hid : s'.slot.identity = s.slot.identity)
    (hreg : s'.registered = s.registered) : s'.Sees p := by
  have hfields := hid
  simp only [ParticipantRecord.identity, Identity.mk.injEq] at hfields
  obtain ⟨hpid, hstart, hinc⟩ := hfields
  unfold Sees at h ⊢
  rw [hpid, hstart, hinc, hid, hreg]
  exact h

/-- A thread that neither fills nor reads knows of registrations only. -/
theorem Sees.of_mono {p : RecordPhase} (h : s.Sees p) (hf : ¬ p.Filling) (hr : ¬ p.Reading)
    (hreg : s.registered ⊆ s'.registered) : s'.Sees p := by
  cases p with
  | idle => trivial
  | identified id => exact hreg h
  | checked | pidLoaded | startLoaded => exact absurd trivial hr
  | reserved | pidStored | startStored | attachedStored | heartbeatStored | counted =>
    exact absurd trivial hf

/-- A thread goes to a phase of which it knows enough. -/
theorem Inv.goto [DecidableEq ι] (h : s.Inv) {p : RecordPhase} (hf : ¬ p.Filling)
    (hp : s.Sees p) : (s.goto i p).Inv := by
  have hwas : ∀ j, (upd s.thread i p j).Filling → (s.thread j).Filling := by
    intro j hj
    by_cases hji : j = i
    · subst hji
      rw [upd_self] at hj
      exact absurd hj hf
    · rwa [upd_of_ne _ _ hji] at hj
  refine ⟨fun j k hj hk => h.alone j k (hwas j hj) (hwas k hk),
    fun j hj => h.reserved j (hwas j hj),
    h.live, fun j => ?_⟩
  show s.Sees (upd s.thread i p j)
  by_cases hji : j = i
  · subst hji
    rwa [upd_self]
  · rw [upd_of_ne _ _ hji]
    exact h.sees j

/-- The thread that fills the slot moves on. -/
theorem Inv.filled [DecidableEq ι] (h : s.Inv) (hi : (s.thread i).Filling) {p : RecordPhase}
    (hthread : s'.thread = upd s.thread i p)
    (hstate : p.Filling → s'.slot.state = s.slot.state)
    (hlive : stateOf s'.slot.state = LIVE → s'.slot.identity ∈ s'.registered)
    (hp : s'.Sees p) (hothers : ∀ j, j ≠ i → s'.Sees (s.thread j)) : s'.Inv := by
  -- only this thread may be filling after the step
  have honly : ∀ j, (s'.thread j).Filling → j = i ∧ p.Filling := by
    intro j hj
    rw [hthread] at hj
    by_cases hji : j = i
    · subst hji
      rw [upd_self] at hj
      exact ⟨rfl, hj⟩
    · rw [upd_of_ne _ _ hji] at hj
      exact absurd (h.alone j i hj hi) hji
  refine ⟨fun j k hj hk => (honly j hj).1.trans (honly k hk).1.symm, fun j hj => ?_, hlive,
    fun j => ?_⟩
  · rw [hstate (honly j hj).2]
    exact h.reserved i hi
  · rw [hthread]
    by_cases hji : j = i
    · subst hji
      rwa [upd_self]
    · rw [upd_of_ne _ _ hji]
      exact hothers j hji

/-- The word goes to `FREE` when no thread fills the slot. -/
theorem Inv.exchange (h : s.Inv) {word : ℕ}
    (hfree : s.slot.state = word → ∀ j, ¬ (s.thread j).Filling) : (s.exchange word).Inv := by
  unfold RecordSys.exchange
  split_ifs with hword
  · refine ⟨h.alone, fun j hj => absurd hj (hfree hword j), ?_, fun j => ?_⟩
    · intro hl
      exact absurd (show stateOf FREE = LIVE from hl) (by decide)
    · exact (h.sees j).of_same rfl rfl
  · exact h

/-- A thread takes a free slot. -/
theorem Inv.register [DecidableEq ι] (h : s.Inv) (hfree : s.slot.state = FREE) (r : Registrant) :
    Inv { s.goto i (.reserved r) with slot := { s.slot with state := RESERVED } } := by
  have hnone : ∀ j, ¬ (s.thread j).Filling := by
    intro j hj
    have hres := h.reserved j hj
    rw [hfree] at hres
    exact absurd hres (by decide)
  have honly : ∀ j, (upd s.thread i (.reserved r) j).Filling → j = i := by
    intro j hj
    by_contra hji
    rw [upd_of_ne _ _ hji] at hj
    exact hnone j hj
  refine ⟨fun j k hj hk => (honly j hj).trans (honly k hk).symm, fun _ _ => rfl, ?_, fun j => ?_⟩
  · intro hl
    exact absurd (show stateOf RESERVED = LIVE from hl) (by decide)
  · show Sees _ (upd s.thread i (.reserved r) j)
    by_cases hji : j = i
    · subst hji
      rw [upd_self]
      trivial
    · rw [upd_of_ne _ _ hji]
      exact (h.sees j).of_same rfl rfl

/-- The accesses of `fill_slot`. -/
theorem Inv.fill [DecidableEq ι] (h : s.Inv)
    (hcalm : (s.thread i).StoresField → ∀ j, ¬ (s.thread j).Reading)
    (hstep : s.fill i (s.thread i) = some s') : s'.Inv := by
  have hsees := h.sees i
  -- a slot that is being filled is not live
  have hdead : ∀ rec' : ParticipantRecord, (s.thread i).Filling → rec'.state = s.slot.state →
      stateOf rec'.state ≠ LIVE := by
    intro rec' hi hrec
    rw [hrec, h.reserved i hi]
    decide
  -- the others neither fill nor, while a field is stored, read
  have hothers : (s.thread i).Filling → (s.thread i).StoresField →
      s.registered ⊆ s'.registered → ∀ j, j ≠ i → s'.Sees (s.thread j) := by
    intro hi hst hreg j hj
    exact (h.sees j).of_mono (fun hf => hj (h.alone j i hf hi)) (hcalm hst j) hreg
  cases hphase : s.thread i with
  | idle | checked | pidLoaded | startLoaded | identified =>
    rw [hphase] at hstep
    cases hstep
  | reserved r =>
    rw [hphase] at hstep hothers hdead
    cases hstep
    refine h.filled (by rw [hphase]; trivial) rfl (fun _ => rfl) ?_ rfl ?_
    · exact fun hl => absurd hl (hdead _ trivial rfl)
    · exact hothers trivial trivial (List.Subset.refl _)
  | pidStored r =>
    rw [hphase] at hstep hothers hdead hsees
    cases hstep
    refine h.filled (by rw [hphase]; trivial) rfl (fun _ => rfl) ?_ ⟨hsees, rfl⟩ ?_
    · exact fun hl => absurd hl (hdead _ trivial rfl)
    · exact hothers trivial trivial (List.Subset.refl _)
  | startStored r =>
    rw [hphase] at hstep hdead hsees
    cases hstep
    refine h.filled (by rw [hphase]; trivial) rfl (fun _ => rfl) ?_ hsees ?_
    · exact fun hl => absurd hl (hdead _ trivial rfl)
    · exact fun j _ => (h.sees j).of_same rfl rfl
  | attachedStored r =>
    rw [hphase] at hstep hdead hsees
    cases hstep
    refine h.filled (by rw [hphase]; trivial) rfl (fun _ => rfl) ?_ hsees ?_
    · exact fun hl => absurd hl (hdead _ trivial rfl)
    · exact fun j _ => (h.sees j).of_same rfl rfl
  | heartbeatStored r =>
    rw [hphase] at hstep hothers hdead hsees
    cases hstep
    obtain ⟨hpid, hstart⟩ := hsees
    refine h.filled (by rw [hphase]; trivial) rfl (fun _ => rfl) ?_ ⟨rfl, ?_⟩ ?_
    · exact fun hl => absurd hl (hdead _ trivial rfl)
    · show Identity.mk s.slot.pid s.slot.startTime _ ∈ _ :: s.registered
      rw [hpid, hstart]
      exact List.mem_cons_self
    · exact hothers trivial trivial (List.subset_cons_self _ _)
  | counted r incarnation =>
    rw [hphase] at hstep hsees
    cases hstep
    refine h.filled (by rw [hphase]; trivial) rfl (fun hp => hp.elim) ?_ trivial ?_
    · exact fun _ => hsees.2
    · exact fun j _ => (h.sees j).of_same rfl rfl

/-- The loads of `identity`. -/
theorem Inv.load [DecidableEq ι] (h : s.Inv) (hstep : s.load i (s.thread i) = some s') :
    s'.Inv := by
  have hsees := h.sees i
  cases hphase : s.thread i with
  | idle | identified | reserved | pidStored | startStored | attachedStored | heartbeatStored
  | counted =>
    rw [hphase] at hstep
    cases hstep
  | checked =>
    rw [hphase] at hstep hsees
    cases hstep
    exact h.goto id ⟨rfl, hsees⟩
  | pidLoaded pid =>
    rw [hphase] at hstep hsees
    cases hstep
    exact h.goto id ⟨hsees.1, rfl, hsees.2⟩
  | startLoaded pid startTime =>
    rw [hphase] at hstep hsees
    cases hstep
    obtain ⟨rfl, rfl, hid⟩ := hsees
    exact h.goto id hid

/-- **Step lemma.** -/
theorem Inv.step [DecidableEq ι] : Preserved (step (ι := ι)) Calm Inv := by
  intro s e s' h hcalm hstep
  cases e with
  | register i r =>
    simp only [RecordSys.step] at hstep
    split_ifs at hstep with hready hfree
    · cases hstep
      exact h.register hfree r
    · cases hstep
      exact h.goto id trivial
  | fill i => exact h.fill hcalm hstep
  | release incarnation =>
    cases hstep
    refine h.exchange fun hword j hj => ?_
    rw [h.reserved j hj] at hword
    exact liveWord_ne_reserved incarnation hword.symm
  | reclaim observed =>
    cases hstep
    refine h.exchange fun hword j hj => hcalm ?_ j hj
    rw [← hword, h.reserved j hj]
  | check i =>
    simp only [RecordSys.step] at hstep
    split_ifs at hstep with hready hlive
    · cases hstep
      exact h.goto id trivial
    · cases hstep
      exact h.goto id (h.live (not_not.mp hlive))
  | load i => exact h.load hstep
  | die i =>
    cases hstep
    exact h.goto id trivial

/-- **Main theorem.** Along every run in which no field is stored while a thread is between
    the check and the last load of `identity`, and no registrant is reclaimed before its
    live word, every identity returned is that of one registration, and a liveness verdict
    formed from it is about the process of that registration. -/
theorem identity_registered [DecidableEq ι] {found : Identity}
    (hrun : Runs step Calm init s) (hi : s.thread i = .identified found) :
    found ∈ s.registered ∧ ∀ otherBoot readStartTime procAnswers, ∃ r ∈ s.registered,
      participantIsAlive otherBoot (some found) readStartTime procAnswers =
        (!otherBoot && aliveGiven r.startTime (readStartTime r.pid) procAnswers) := by
  have hinv : s.Inv := hrun.invariant Inv.step Inv.init
  have hmem : found ∈ s.registered := by
    have hsees := hinv.sees i
    rw [hi] at hsees
    exact hsees
  refine ⟨hmem, fun otherBoot readStartTime procAnswers => ⟨found, hmem, ?_⟩⟩
  cases otherBoot <;> rfl

theorem calm_fill {s : RecordSys (Fin 2)} {i : Fin 2} (h0 : ¬ (s.thread 0).Reading)
    (h1 : ¬ (s.thread 1).Reading) : Calm s (.fill i) :=
  fun _ => Fin.forall_fin_two.mpr ⟨h0, h1⟩

theorem calm_of_ne [DecidableEq ι] {e : Event ι} (hfill : ∀ i, e ≠ .fill i)
    (hreclaim : ∀ w, e ≠ .reclaim w) : Calm s e := by
  cases e with
  | fill i => exact absurd rfl (hfill i)
  | reclaim w => exact absurd rfl (hreclaim w)
  | register | release | check | load | die => trivial

/-- Thread `1` registers and leaves while thread `0` reads its identity. -/
theorem identity_registered_left : ∃ s : RecordSys (Fin 2),
    s.thread 0 = .identified ⟨100, 5, 1⟩ ∧ ⟨100, 5, 1⟩ ∈ s.registered := by
  have h1 : Runs step Calm (init : RecordSys (Fin 2)) _ :=
    .step (e := .register 1 ⟨100, 5, 0⟩) .refl (calm_of_ne nofun nofun) rfl
  have h2 := h1.step (e := .fill 1) (calm_fill id id) rfl
  have h3 := h2.step (e := .fill 1) (calm_fill id id) rfl
  have h4 := h3.step (e := .fill 1) (calm_fill id id) rfl
  have h5 := h4.step (e := .fill 1) (calm_fill id id) rfl
  have h6 := h5.step (e := .fill 1) (calm_fill id id) rfl
  have h7 := h6.step (e := .fill 1) (calm_fill id id) rfl
  have h8 := h7.step (e := .check 0) (calm_of_ne nofun nofun) rfl
  have h9 := h8.step (e := .load 0) (calm_of_ne nofun nofun) rfl
  have h10 := h9.step (e := .release 1) (calm_of_ne nofun nofun) rfl
  have h11 := h10.step (e := .load 0) (calm_of_ne nofun nofun) rfl
  have h12 := h11.step (e := .load 0) (calm_of_ne nofun nofun) rfl
  exact ⟨_, rfl, (identity_registered h12 (i := 0) rfl).1⟩

/-- Process `100` registers and is read up to its pid; it leaves, process `200` registers,
    and the last two loads follow. -/
def tornEvents : List (Event ℕ) :=
  [.register 1 ⟨100, 5, 0⟩, .fill 1, .fill 1, .fill 1, .fill 1, .fill 1, .fill 1,
    .check 0, .load 0, .release 1,
    .register 2 ⟨200, 9, 0⟩, .fill 2, .fill 2, .fill 2, .fill 2, .fill 2, .fill 2,
    .load 0, .load 0]

/-- Both processes are running. -/
def bothRun : ℕ → ProcStartTime
  | 100 => .known 5
  | 200 => .known 9
  | _ => .noSuchProcess

/-- The identity is of no registration, and the verdict is that its process is dead, while
    the processes of all registrations are alive. -/
theorem identity_torn : ∃ s : RecordSys ℕ, Reachable step init s ∧
    s.thread 0 = .identified ⟨100, 9, 2⟩ ∧ ⟨100, 9, 2⟩ ∉ s.registered ∧
    participantIsAlive false (some ⟨100, 9, 2⟩) bothRun true = false ∧
    ∀ r ∈ s.registered, aliveGiven r.startTime (bothRun r.pid) true = true := by
  obtain ⟨s, hs, hthread, hreg⟩ : ∃ s, execAll step (init : RecordSys ℕ) tornEvents = some s ∧
      s.thread 0 = .identified ⟨100, 9, 2⟩ ∧ s.registered = [⟨200, 9, 2⟩, ⟨100, 5, 1⟩] :=
    ⟨_, rfl, rfl, rfl⟩
  refine ⟨s, reachable_of_execAll hs, hthread, ?_, by decide, ?_⟩
  · rw [hreg]
    decide
  · rw [hreg]
    decide

end RecordSys

end TfTree
