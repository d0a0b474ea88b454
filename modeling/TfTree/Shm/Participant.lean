import TfTree.Shm.Rendezvous
import Mathlib.Data.Nat.Bitwise

/-!
# The participant table

The records of one arena (`tf_tree_core/src/participant.rs`), the slots an owner grants
and takes back (`spawn_owner_server`, `tf_tree/src/open.rs`), the sweeps of the other
participants (`Tree::reap_participants`) and the lock bytes. The serving thread of an
owner and the sweeping threads of every participant access a record word or a byte one at
a time. A pass of `open()` is a process of its own.

Results:
* `Seat.step`: the process of a slot holds the slot's byte, in every run.
* `Records.free`: a compare-and-swap that follows a probe takes no live process's record.
* `records_stay`: no record of a live process is freed, unless a hang-up finds its slot
  registered by somebody else, or a record word comes back to a waiting reclaimer.
-/

namespace TfTree

open Conc

/-! ## Model of `participant.rs` -/

/-- `FREE`. -/
def FREE : ℕ := 0

/-- `RESERVED`. -/
def RESERVED : ℕ := 1

/-- `LIVE`. -/
def LIVE : ℕ := 2

/-- `live_word` (lines 25–30); a word is a `u32`. -/
def liveWord (incarnation : ℕ) : ℕ := (incarnation % 2 ^ 32) <<< 2 % 2 ^ 32 ||| LIVE

/-- `state_of` (lines 32–37). -/
def stateOf (word : ℕ) : ℕ := word &&& 0b11

/-- The low 30 bits of the incarnation survive. -/
theorem liveWord_eq (incarnation : ℕ) : liveWord incarnation = 4 * (incarnation % 2 ^ 30) + 2 := by
  have hshift : (incarnation % 2 ^ 32) <<< 2 % 2 ^ 32 = 2 ^ 2 * (incarnation % 2 ^ 30) := by
    rw [Nat.shiftLeft_eq]
    omega
  rw [liveWord, hshift, LIVE, ← Nat.two_pow_add_eq_or_of_lt (by decide)]

theorem stateOf_liveWord (incarnation : ℕ) : stateOf (liveWord incarnation) = LIVE := by
  rw [stateOf, show 0b11 = 2 ^ 2 - 1 from rfl, Nat.and_two_pow_sub_one_eq_mod, liveWord_eq, LIVE]
  omega

theorem liveWord_ne_free (incarnation : ℕ) : liveWord incarnation ≠ FREE := by
  rw [liveWord_eq, FREE]
  omega

theorem liveWord_ne_reserved (incarnation : ℕ) : liveWord incarnation ≠ RESERVED := by
  rw [liveWord_eq, RESERVED]
  omega

/-- `2 ^ 30` registrations of a slot have different words. -/
theorem liveWord_inj {m n : ℕ} (hm : m < 2 ^ 30) (hn : n < 2 ^ 30) (h : liveWord m = liveWord n) :
    m = n := by
  rw [liveWord_eq, liveWord_eq, Nat.mod_eq_of_lt hm, Nat.mod_eq_of_lt hn] at h
  omega

/-! ## Model of `open.rs` -/

/-- A process, from its handshake to the close of its files. -/
inductive PeerPhase where
  | idle
  /-- The request is sent to the owner. -/
  | waiting (owner : ℕ)
  /-- `Reach::Serving`; the byte is not taken. -/
  | granted (slot : ℕ)
  /-- The byte is held. A read-only peer stays here. -/
  | seated (slot : ℕ)
  /-- `fill_slot` after its compare-and-swap. -/
  | reserved (slot : ℕ)
  /-- `fill_slot` has returned the incarnation. -/
  | live (slot incarnation : ℕ)
  /-- `release` is done. -/
  | released (slot : ℕ)
  /-- Dead, or on an error path: the kernel closes its files one after the other. -/
  | exiting
  deriving DecidableEq, Repr

/-- The slot whose byte a process holds for its `Session`. -/
def PeerPhase.slot? : PeerPhase → Option ℕ
  | .seated k | .reserved k | .live k _ | .released k => some k
  | _ => none

/-- The serving thread of an owner, between two accesses. `joiner` is the client of the
    running `assign` callback. -/
inductive Serving where
  /-- The process does not serve. -/
  | off
  /-- In `epoll::wait`. -/
  | idle
  /-- The top of the body of `for slot in 0..n`. -/
  | assigning (joiner slot : ℕ)
  /-- The word is not `FREE`: `reclamation_verdict` is called. -/
  | verdict (joiner slot : ℕ)
  /-- The verdict has `observed`; the byte is to be probed. -/
  | judging (joiner slot observed : ℕ)
  /-- `Reclaimable`: the compare-and-swap is next. -/
  | reclaiming (joiner slot observed : ℕ)
  /-- There is no record: `is_held` is next. -/
  | probing (joiner slot : ℕ)
  /-- The hang-up callback has `observed`; its compare-and-swap is next. -/
  | hungUp (slot observed : ℕ)
  deriving DecidableEq, Repr

/-- The record and the word that the next compare-and-swap is for. -/
def Serving.target? : Serving → Option (ℕ × ℕ)
  | .reclaiming _ k w | .hungUp k w => some (k, w)
  | _ => none

/-- A thread in `reap_participants`, at one slot. -/
inductive Sweeping where
  | idle
  | judging (slot observed : ℕ)
  | reclaiming (slot observed : ℕ)
  deriving DecidableEq, Repr

def Sweeping.target? : Sweeping → Option (ℕ × ℕ)
  | .reclaiming k w => some (k, w)
  | _ => none

/-- The record and the word that a thread has read for a verdict. -/
def Serving.observed? : Serving → Option (ℕ × ℕ)
  | .judging _ k w | .reclaiming _ k w | .hungUp k w => some (k, w)
  | _ => none

def Sweeping.observed? : Sweeping → Option (ℕ × ℕ)
  | .judging k w | .reclaiming k w => some (k, w)
  | _ => none

/-- The connection a slot was granted on: the bit of `granted` is set unless it is `none`. -/
inductive Link where
  | none
  | up
  /-- The client's end is closed; the server has not handled the event. -/
  | down
  deriving DecidableEq, Repr

/-- The records, the lock file and the processes of one arena. -/
structure ParticipantSys where
  /-- `build_shared` has run. -/
  built : Bool
  /-- `ParticipantRecord::state`. -/
  word : ℕ → ℕ
  /-- `ParticipantRecord::incarnation`. -/
  incarnation : ℕ → ℕ
  byte : ℕ → Option ℕ
  ownership : Option ℕ
  phase : ℕ → PeerPhase
  /-- The owner and the slot of a process's connection. -/
  conn : ℕ → Option (ℕ × ℕ)
  serving : ℕ → Serving
  link : ℕ → ℕ → Link
  sweeping : ℕ → ℕ → Sweeping

namespace ParticipantSys

/-- Nobody has opened the rendezvous. -/
def init : ParticipantSys where
  built := false
  word := fun _ => FREE
  incarnation := fun _ => 0
  byte := fun _ => none
  ownership := none
  phase := fun _ => .idle
  conn := fun _ => none
  serving := fun _ => .off
  link := fun _ _ => .none
  sweeping := fun _ _ => .idle

inductive Event where
  /-- The creator's `register_creator` and its arena. -/
  | create (i : ℕ)
  /-- The client connects and sends its request. -/
  | connect (i o : ℕ)
  /-- The owner accepts a request. -/
  | accept (o i : ℕ)
  /-- One access of an owner's serving thread; `answer`: the kernel answers a probe. -/
  | advance (o : ℕ) (answer : Bool)
  /-- The owner handles the hang-up of the connection that a slot was granted on. -/
  | hangup (o slot : ℕ)
  /-- `register_at` of `tf_tree_ipc`: `try_take_participant`. -/
  | takeByte (i : ℕ)
  /-- `fill_slot`: `FREE` to `RESERVED`. -/
  | reserve (i : ℕ)
  /-- `fill_slot`: the incarnation and the live word. -/
  | publish (i : ℕ)
  /-- `take_over_ownership`, or the role from the creation on, and `spawn_owner_server`. -/
  | serve (i : ℕ)
  /-- `reap_participants` comes to a slot and loads its word. -/
  | sweep (i t slot : ℕ)
  | sweepProbe (i t : ℕ) (answer : Bool)
  | sweepReclaim (i t : ℕ)
  /-- `release` on a clean detach. -/
  | release (i : ℕ)
  /-- A death, an error path or the end of a detach. -/
  | exit (i : ℕ)
  /-- The kernel closes the lock file. -/
  | unlock (i : ℕ)
  /-- The kernel closes the socket. -/
  | disconnect (i : ℕ)
  deriving DecidableEq, Repr

variable (s : ParticipantSys) (i o k : ℕ)

/-- The process goes to a phase. -/
def goto (p : PeerPhase) : ParticipantSys := { s with phase := upd s.phase i p }

/-- The process takes a participant byte. -/
def hold : ParticipantSys := { s with byte := upd s.byte k (some i) }

/-- A record word is stored. -/
def store (w : ℕ) : ParticipantSys := { s with word := upd s.word k w }

/-- `reclaim`: one `compare_exchange(observed, FREE)`. -/
def reclaim (observed : ℕ) : ParticipantSys := if s.word k = observed then s.store k FREE else s

/-- The serving thread goes on. -/
def toStage (v : Serving) : ParticipantSys := { s with serving := upd s.serving o v }

def setLink (l : Link) : ParticipantSys := { s with link := upd s.link o (upd (s.link o) k l) }

def setSweep (t : ℕ) (v : Sweeping) : ParticipantSys :=
  { s with sweeping := upd s.sweeping i (upd (s.sweeping i) t v) }

/-- `Err(HelloStatus::NoParticipantSlots)`. -/
def reject : ParticipantSys := if s.phase i = .waiting o then s.goto i .exiting else s

/-- `Ok(slot)`: the client may be gone. -/
def grant : ParticipantSys :=
  if s.phase i = .waiting o then
    { (s.setLink o k .up).goto i (.granted k) with conn := upd s.conn i (some (o, k)) }
  else s.setLink o k .down

/-- The `assign` closure (lines 893–950), the `reclamation_verdict` it calls (lines
    170–191) and the end of the hang-up closure (lines 951–1002). -/
def advance (answer : Bool) : Option ParticipantSys :=
  match s.serving o with
  | .assigning i k =>
    if maxParticipants ≤ k then some ((s.toStage o .idle).reject i o)
    else if s.link o k ≠ .none then some (s.toStage o (.assigning i (k + 1)))
    else if stateOf (s.word k) = FREE then some (s.toStage o (.probing i k))
    else some (s.toStage o (.verdict i k))
  | .verdict i k =>
    if (s.phase o).slot? = some k ∨ stateOf (s.word k) = FREE then
      some (s.toStage o (.assigning i (k + 1)))
    else some (s.toStage o (.judging i k (s.word k)))
  | .judging i k observed =>
    if answer ∧ s.byte k = none then some (s.toStage o (.reclaiming i k observed))
    else some (s.toStage o (.assigning i (k + 1)))
  | .reclaiming i k observed =>
    some ((s.reclaim k observed).toStage o
      (if s.word k = observed then .probing i k else .assigning i (k + 1)))
  | .probing i k =>
    -- `unwrap_or(false)`: no answer counts as free
    if answer ∧ s.byte k ≠ none then some (s.toStage o (.assigning i (k + 1)))
    else some ((s.toStage o .idle).grant i o k)
  | .hungUp k observed => some (((s.reclaim k observed).setLink o k .none).toStage o .idle)
  | .off | .idle => none

/-- One step. -/
def step (s : ParticipantSys) : Event → Option ParticipantSys
  | .create i =>
    match s.phase i with
    | .idle =>
      if s.built = false ∧ s.byte creatorSlot = none ∧ s.ownership = none then
        some { (s.hold i creatorSlot).goto i (.seated creatorSlot) with
          built := true, ownership := some i }
      else none
    | _ => none
  | .connect i o =>
    match s.phase i with
    | .idle => if s.serving o ≠ .off then some (s.goto i (.waiting o)) else none
    | _ => none
  | .accept o i =>
    match s.serving o with
    | .idle => if s.phase i = .waiting o then some (s.toStage o (.assigning i 0)) else none
    | _ => none
  | .advance o answer => s.advance o answer
  | .hangup o k =>
    match s.serving o, s.link o k with
    | .idle, .down =>
      if stateOf (s.word k) = FREE then some (s.setLink o k .none)
      else some (s.toStage o (.hungUp k (s.word k)))
    | _, _ => none
  | .takeByte i =>
    match s.phase i with
    | .granted k =>
      if s.byte k = none then some ((s.hold i k).goto i (.seated k)) else some (s.goto i .exiting)
    | _ => none
  | .reserve i =>
    match s.phase i with
    | .seated k =>
      if s.word k = FREE then some ((s.store k RESERVED).goto i (.reserved k))
      else some (s.goto i .exiting)
    | _ => none
  | .publish i =>
    match s.phase i with
    | .reserved k =>
      let incarnation := s.incarnation k + 1
      some { (s.store k (liveWord incarnation)).goto i (.live k incarnation) with
        incarnation := upd s.incarnation k incarnation }
    | _ => none
  | .serve i =>
    match s.phase i, s.serving i with
    | .live _ _, .off =>
      if s.ownership = none ∨ s.ownership = some i then
        some { s.toStage i .idle with ownership := some i, link := upd s.link i fun _ => .none }
      else none
    | _, _ => none
  | .sweep i t k =>
    match s.phase i, s.sweeping i t with
    | .live own _, .idle =>
      if k < maxParticipants ∧ k ≠ own ∧ stateOf (s.word k) ≠ FREE then
        some (s.setSweep i t (.judging k (s.word k)))
      else none
    | _, _ => none
  | .sweepProbe i t answer =>
    match s.sweeping i t with
    | .judging k observed =>
      if answer ∧ s.byte k = none then some (s.setSweep i t (.reclaiming k observed))
      else some (s.setSweep i t .idle)
    | _ => none
  | .sweepReclaim i t =>
    match s.sweeping i t with
    | .reclaiming k observed => some ((s.reclaim k observed).setSweep i t .idle)
    | _ => none
  | .release i =>
    match s.phase i with
    | .live k incarnation => some ((s.reclaim k (liveWord incarnation)).goto i (.released k))
    | _ => none
  | .exit i =>
    match s.phase i with
    | .idle | .exiting => none
    | _ =>
      some { (s.toStage i .off).goto i .exiting with sweeping := upd s.sweeping i fun _ => .idle }
  | .unlock i =>
    match s.phase i with
    | .exiting =>
      some { s with
        byte := fun k => if s.byte k = some i then none else s.byte k
        ownership := if s.ownership = some i then none else s.ownership }
    | _ => none
  | .disconnect i =>
    match s.phase i, s.conn i with
    | .exiting, some (o, k) => some { s.setLink o k .down with conn := upd s.conn i none }
    | _, _ => none

/-! ## The bytes -/

section Bytes

variable {phase : ℕ → PeerPhase} {byte : ℕ → Option ℕ} {i k : ℕ} {p : PeerPhase}

/-- The process of a slot holds its byte. -/
def Seat (phase : ℕ → PeerPhase) (byte : ℕ → Option ℕ) : Prop :=
  ∀ j k, (phase j).slot? = some k → byte k = some j

theorem Seat.move (h : Seat phase byte) (hp : ∀ k, p.slot? = some k → byte k = some i) :
    Seat (upd phase i p) byte := by
  intro j k hk
  by_cases hj : j = i
  · subst hj
    rw [upd_self] at hk
    exact hp k hk
  · rw [upd_of_ne _ _ hj] at hk
    exact h j k hk

theorem Seat.take (h : Seat phase byte) (hfree : byte k = none) :
    Seat phase (upd byte k (some i)) := by
  intro j k' hk'
  have hj := h j k' hk'
  by_cases hkk : k' = k
  · subst hkk
    rw [hfree] at hj
    cases hj
  · rw [upd_of_ne _ _ hkk]
    exact hj

theorem Seat.unlock (h : Seat phase byte) (hnone : (phase i).slot? = none) :
    Seat phase (fun k => if byte k = some i then none else byte k) := by
  intro j k hk
  have hj := h j k hk
  have hne : byte k ≠ some i := by
    rw [hj]
    rintro ⟨⟩
    rw [hnone] at hk
    cases hk
  show (if byte k = some i then none else byte k) = some j
  rw [if_neg hne]
  exact hj

/-- Two processes have different slots. -/
theorem Seat.unique (h : Seat phase byte) {j j' : ℕ} (hj : (phase j).slot? = some k)
    (hj' : (phase j').slot? = some k) : j = j' := by
  have hb := h j k hj
  rw [h j' k hj'] at hb
  exact (Option.some_inj.mp hb).symm

end Bytes

/-! ## The records -/

section Records

variable {phase : ℕ → PeerPhase} {byte : ℕ → Option ℕ} {word : ℕ → ℕ} {serving : ℕ → Serving}
  {sweeping : ℕ → ℕ → Sweeping} {i k w : ℕ} {p : PeerPhase}

/-- A live process is registered in the slot. -/
def Registered (phase : ℕ → PeerPhase) (k : ℕ) : Prop := ∃ j n, phase j = .live k n

/-- Some thread is about to free the record if it still has the word `w`. -/
def Targeted (serving : ℕ → Serving) (sweeping : ℕ → ℕ → Sweeping) (k w : ℕ) : Prop :=
  (∃ o, (serving o).target? = some (k, w)) ∨ ∃ j t, (sweeping j t).target? = some (k, w)

/-- The record of every live process has its word, and nobody is about to free that word. -/
structure Records (phase : ℕ → PeerPhase) (word : ℕ → ℕ) (serving : ℕ → Serving)
    (sweeping : ℕ → ℕ → Sweeping) : Prop where
  stays : ∀ j k n, phase j = .live k n → word k = liveWord n
  spared : ∀ k w, Targeted serving sweeping k w → ∀ j n, phase j = .live k n → w ≠ liveWord n

/-- A process moves on without registering. -/
theorem Records.move (h : Records phase word serving sweeping) (hp : ∀ k n, p ≠ .live k n) :
    Records (upd phase i p) word serving sweeping where
  stays := by
    intro j k n hj
    by_cases hji : j = i
    · subst hji
      rw [upd_self] at hj
      exact absurd hj (hp k n)
    · rw [upd_of_ne _ _ hji] at hj
      exact h.stays j k n hj
  spared := by
    intro k w hkw j n hj
    by_cases hji : j = i
    · subst hji
      rw [upd_self] at hj
      exact absurd hj (hp k n)
    · rw [upd_of_ne _ _ hji] at hj
      exact h.spared k w hkw j n hj

/-- The record of a slot without a live process may change. -/
theorem Records.store (h : Records phase word serving sweeping) (hk : ¬ Registered phase k)
    (w : ℕ) :
    Records phase (upd word k w) serving sweeping where
  spared := h.spared
  stays := by
    intro j k' n hj
    have hne : k' ≠ k := by
      rintro rfl
      exact hk ⟨j, n, hj⟩
    rw [upd_of_ne _ _ hne]
    exact h.stays j k' n hj

/-- Whoever frees a word that is its target frees nobody's record. -/
theorem Records.free (h : Records phase word serving sweeping)
    (htarget : Targeted serving sweeping k w) (hw : word k = w) :
    Records phase (upd word k FREE) serving sweeping := by
  refine h.store ?_ FREE
  rintro ⟨j, n, hj⟩
  exact h.spared k w htarget j n hj (hw ▸ h.stays j k n hj)

/-- A process is registered under a word that nobody is about to free. -/
theorem Records.publish (h : Records phase word serving sweeping) {n : ℕ}
    (hw : word k = liveWord n) (hfresh : ¬ Targeted serving sweeping k (liveWord n)) :
    Records (upd phase i (.live k n)) word serving sweeping where
  stays := by
    intro j k' n' hj
    by_cases hji : j = i
    · subst hji
      rw [upd_self] at hj
      cases hj
      exact hw
    · rw [upd_of_ne _ _ hji] at hj
      exact h.stays j k' n' hj
  spared := by
    intro k' w hkw j n' hj
    by_cases hji : j = i
    · subst hji
      rw [upd_self] at hj
      cases hj
      rintro rfl
      exact hfresh hkw
    · rw [upd_of_ne _ _ hji] at hj
      exact h.spared k' w hkw j n' hj

/-- A serving thread goes on; a slot it is about to free has no live process. -/
theorem Records.serve (h : Records phase word serving sweeping) {o : ℕ} {v : Serving}
    (hv : ∀ k w, v.target? = some (k, w) → ¬ Registered phase k) :
    Records phase word (upd serving o v) sweeping where
  stays := h.stays
  spared := by
    rintro k w (⟨o', ho'⟩ | hsweep) j n hj
    · by_cases hoo : o' = o
      · subst hoo
        rw [upd_self] at ho'
        exact absurd ⟨j, n, hj⟩ (hv k w ho')
      · rw [upd_of_ne _ _ hoo] at ho'
        exact h.spared k w (.inl ⟨o', ho'⟩) j n hj
    · exact h.spared k w (.inr hsweep) j n hj

/-- The same for a sweeping thread. -/
theorem Records.sweep (h : Records phase word serving sweeping) {t : ℕ} {v : Sweeping}
    (hv : ∀ k w, v.target? = some (k, w) → ¬ Registered phase k) :
    Records phase word serving (upd sweeping i (upd (sweeping i) t v)) where
  stays := h.stays
  spared := by
    rintro k w (hserving | ⟨j', t', hjt⟩) j n hj
    · exact h.spared k w (.inl hserving) j n hj
    · by_cases hji : j' = i
      · subst hji
        rw [upd_self] at hjt
        by_cases htt : t' = t
        · subst htt
          rw [upd_self] at hjt
          exact absurd ⟨j, n, hj⟩ (hv k w hjt)
        · rw [upd_of_ne _ _ htt] at hjt
          exact h.spared k w (.inr ⟨j', t', hjt⟩) j n hj
      · rw [upd_of_ne _ _ hji] at hjt
        exact h.spared k w (.inr ⟨j', t', hjt⟩) j n hj

/-- All sweeping threads of a process end. -/
theorem Records.sweepsEnd (h : Records phase word serving sweeping) :
    Records phase word serving (upd sweeping i fun _ => .idle) where
  stays := h.stays
  spared := by
    rintro k w (hserving | ⟨j', t', hjt⟩) j n hj
    · exact h.spared k w (.inl hserving) j n hj
    · by_cases hji : j' = i
      · subst hji
        rw [upd_self] at hjt
        cases hjt
      · rw [upd_of_ne _ _ hji] at hjt
        exact h.spared k w (.inr ⟨j', t', hjt⟩) j n hj

/-- A probe that finds the byte free finds no live process in the slot. -/
theorem Seat.not_registered (h : Seat phase byte) (hfree : byte k = none) :
    ¬ Registered phase k := by
  rintro ⟨j, n, hj⟩
  have hb := h j k (by rw [hj]; rfl)
  rw [hfree] at hb
  cases hb

/-- A process whose slot it is, and that is not registered, is alone there. -/
theorem Seat.alone (h : Seat phase byte) (hi : (phase i).slot? = some k)
    (hlive : ∀ n, phase i ≠ .live k n) : ¬ Registered phase k := by
  rintro ⟨j, n, hj⟩
  have hji : j = i := h.unique (by rw [hj]; rfl) hi
  subst hji
  exact hlive n hj

end Records

/-! ## Steps -/

variable {s s' : ParticipantSys} {e : Event} {i o k w : ℕ}

@[simp] theorem reclaim_phase : (s.reclaim k w).phase = s.phase := by
  unfold reclaim
  split_ifs <;> rfl

@[simp] theorem reclaim_byte : (s.reclaim k w).byte = s.byte := by
  unfold reclaim
  split_ifs <;> rfl

theorem Seat.reject (h : Seat s.phase s.byte) : Seat (s.reject i o).phase (s.reject i o).byte := by
  unfold ParticipantSys.reject
  split_ifs
  · exact h.move nofun
  · exact h

theorem Seat.grant (h : Seat s.phase s.byte) : Seat (s.grant i o k).phase (s.grant i o k).byte := by
  unfold ParticipantSys.grant
  split_ifs
  · exact h.move (by rintro _ ⟨⟩)
  · exact h

/-- The serving thread takes no byte. -/
theorem Seat.advance (h : Seat s.phase s.byte) {answer : Bool}
    (hs : s.advance o answer = some s') : Seat s'.phase s'.byte := by
  unfold ParticipantSys.advance at hs
  split at hs
  · split_ifs at hs
    · cases hs
      exact Seat.reject (s := s.toStage o .idle) h
    · cases hs
      exact h
    · cases hs
      exact h
    · cases hs
      exact h
  · split_ifs at hs
    · cases hs
      exact h
    · cases hs
      exact h
  · split_ifs at hs
    · cases hs
      exact h
    · cases hs
      exact h
  · cases hs
    simpa [toStage] using h
  · split_ifs at hs
    · cases hs
      exact h
    · cases hs
      exact Seat.grant (s := s.toStage o .idle) h
  · cases hs
    simpa [toStage, setLink] using h
  · cases hs
  · cases hs

theorem Seat.step (h : Seat s.phase s.byte) (hs : step s e = some s') : Seat s'.phase s'.byte := by
  cases e with
  | create i =>
    simp only [ParticipantSys.step] at hs
    split at hs
    · split_ifs at hs with hc
      cases hs
      refine (h.take hc.2.1).move ?_
      rintro k ⟨⟩
      exact upd_self ..
    · cases hs
  | connect i o =>
    simp only [ParticipantSys.step] at hs
    split at hs
    · split_ifs at hs
      cases hs
      exact h.move nofun
    · cases hs
  | accept o i =>
    simp only [ParticipantSys.step] at hs
    split at hs
    · split_ifs at hs
      cases hs
      exact h
    · cases hs
  | advance o answer => exact h.advance hs
  | hangup o k =>
    simp only [ParticipantSys.step] at hs
    split at hs
    · split_ifs at hs
      · cases hs
        exact h
      · cases hs
        exact h
    · cases hs
  | takeByte i =>
    simp only [ParticipantSys.step] at hs
    split at hs
    · split_ifs at hs with hfree
      · cases hs
        refine (h.take hfree).move ?_
        rintro k ⟨⟩
        exact upd_self ..
      · cases hs
        exact h.move nofun
    · cases hs
  | reserve i =>
    simp only [ParticipantSys.step] at hs
    split at hs
    · next k hi =>
      split_ifs at hs
      · cases hs
        refine h.move ?_
        rintro k ⟨⟩
        exact h i _ (by rw [hi]; rfl)
      · cases hs
        exact h.move nofun
    · cases hs
  | publish i =>
    simp only [ParticipantSys.step] at hs
    split at hs
    · next k hi =>
      cases hs
      refine h.move ?_
      rintro k ⟨⟩
      exact h i _ (by rw [hi]; rfl)
    · cases hs
  | serve i =>
    simp only [ParticipantSys.step] at hs
    split at hs
    · split_ifs at hs
      cases hs
      exact h
    · cases hs
  | sweep i t k =>
    simp only [ParticipantSys.step] at hs
    split at hs
    · split_ifs at hs
      cases hs
      exact h
    · cases hs
  | sweepProbe i t answer =>
    simp only [ParticipantSys.step] at hs
    split at hs
    · split_ifs at hs
      · cases hs
        exact h
      · cases hs
        exact h
    · cases hs
  | sweepReclaim i t =>
    simp only [ParticipantSys.step] at hs
    split at hs
    · cases hs
      simpa [setSweep] using h
    · cases hs
  | release i =>
    simp only [ParticipantSys.step] at hs
    split at hs
    · next k n hi =>
      cases hs
      have hbyte : (s.reclaim k (liveWord n)).byte = s.byte := reclaim_byte
      have hphase : (s.reclaim k (liveWord n)).phase = s.phase := reclaim_phase
      show Seat (upd (s.reclaim k (liveWord n)).phase i _) (s.reclaim k (liveWord n)).byte
      rw [hbyte, hphase]
      refine h.move ?_
      rintro k ⟨⟩
      exact h i _ (by rw [hi]; rfl)
    · cases hs
  | exit i =>
    simp only [ParticipantSys.step] at hs
    split at hs
    · cases hs
    · cases hs
    · cases hs
      exact h.move nofun
  | unlock i =>
    simp only [ParticipantSys.step] at hs
    split at hs
    · next hi =>
      cases hs
      exact h.unlock (by rw [hi]; rfl)
    · cases hs
  | disconnect i =>
    simp only [ParticipantSys.step] at hs
    split at hs
    · cases hs
      exact h
    · cases hs

/-! ## Incarnations -/

section Words

variable {word incarnation : ℕ → ℕ} {serving : ℕ → Serving} {sweeping : ℕ → ℕ → Sweeping}

/-- The word is one that the record has had. -/
def Seen (incarnation : ℕ → ℕ) (k w : ℕ) : Prop :=
  w = FREE ∨ w = RESERVED ∨ ∃ n, n ≤ incarnation k ∧ w = liveWord n

/-- No record, and no thread that has read one, has the word of a later incarnation. -/
structure Words (word incarnation : ℕ → ℕ) (serving : ℕ → Serving)
    (sweeping : ℕ → ℕ → Sweeping) : Prop where
  record : ∀ k, Seen incarnation k (word k)
  server : ∀ o k w, (serving o).observed? = some (k, w) → Seen incarnation k w
  sweeper : ∀ j t k w, (sweeping j t).observed? = some (k, w) → Seen incarnation k w

theorem Words.store (h : Words word incarnation serving sweeping) (hw : Seen incarnation k w) :
    Words (upd word k w) incarnation serving sweeping where
  server := h.server
  sweeper := h.sweeper
  record := by
    intro k'
    by_cases hk : k' = k
    · subst hk
      rw [upd_self]
      exact hw
    · rw [upd_of_ne _ _ hk]
      exact h.record k'

theorem Words.serve (h : Words word incarnation serving sweeping) {v : Serving}
    (hv : ∀ k w, v.observed? = some (k, w) → Seen incarnation k w) :
    Words word incarnation (upd serving o v) sweeping where
  record := h.record
  sweeper := h.sweeper
  server := by
    intro o' k' w' ho'
    by_cases hoo : o' = o
    · subst hoo
      rw [upd_self] at ho'
      exact hv k' w' ho'
    · rw [upd_of_ne _ _ hoo] at ho'
      exact h.server o' k' w' ho'

theorem Words.sweep (h : Words word incarnation serving sweeping) {f : ℕ → Sweeping}
    (hf : ∀ t k w, (f t).observed? = some (k, w) → Seen incarnation k w) :
    Words word incarnation serving (upd sweeping i f) where
  record := h.record
  server := h.server
  sweeper := by
    intro j t k' w' hj
    by_cases hji : j = i
    · subst hji
      rw [upd_self] at hj
      exact hf t k' w' hj
    · rw [upd_of_ne _ _ hji] at hj
      exact h.sweeper j t k' w' hj

/-- The incarnation is counted up. -/
theorem Words.bump (h : Words word incarnation serving sweeping) (k : ℕ) :
    Words word (upd incarnation k (incarnation k + 1)) serving sweeping := by
  have hseen : ∀ k' w, Seen incarnation k' w →
      Seen (upd incarnation k (incarnation k + 1)) k' w := by
    rintro k' w (hw | hw | ⟨n, hn, hw⟩)
    · exact .inl hw
    · exact .inr (.inl hw)
    · refine .inr (.inr ⟨n, ?_, hw⟩)
      by_cases hk : k' = k
      · subst hk
        rw [upd_self]
        omega
      · rw [upd_of_ne _ _ hk]
        exact hn
  exact ⟨fun k' => hseen k' _ (h.record k'),
    fun o' k' w' ho' => hseen k' w' (h.server o' k' w' ho'),
    fun j t k' w' hj => hseen k' w' (h.sweeper j t k' w' hj)⟩

/-- The word that is published next is nobody's target before `2 ^ 30` registrations. -/
theorem Words.fresh (h : Words word incarnation serving sweeping)
    (hk : incarnation k + 1 < 2 ^ 30) :
    ¬ Targeted serving sweeping k (liveWord (incarnation k + 1)) := by
  have hnew : ¬ Seen incarnation k (liveWord (incarnation k + 1)) := by
    rintro (hw | hw | ⟨n, hn, hw⟩)
    · exact liveWord_ne_free _ hw
    · exact liveWord_ne_reserved _ hw
    · have := liveWord_inj hk (by omega) hw
      omega
  rintro (⟨o, ho⟩ | ⟨j, t, hj⟩)
  · refine hnew (h.server o k _ ?_)
    cases hv : serving o with
    | reclaiming | hungUp => rw [hv] at ho; exact ho
    | _ => rw [hv] at ho; cases ho
  · refine hnew (h.sweeper j t k _ ?_)
    cases hv : sweeping j t with
    | reclaiming => rw [hv] at hj; exact hj
    | _ => rw [hv] at hj; cases hj

end Words

/-- The words of a state. -/
def Dated (s : ParticipantSys) : Prop := Words s.word s.incarnation s.serving s.sweeping

theorem Dated.toStage (h : Dated s) {v : Serving}
    (hv : ∀ k w, v.observed? = some (k, w) → Seen s.incarnation k w) : Dated (s.toStage o v) :=
  Words.serve h hv

/-- The thread keeps what it has read, or reads the record. -/
theorem Dated.keep (h : Dated s) {v : Serving}
    (hv : ∀ k w, v.observed? = some (k, w) → (s.serving o).observed? = some (k, w) ∨ s.word k = w) :
    Dated (s.toStage o v) := by
  refine h.toStage fun k w hkw => ?_
  rcases hv k w hkw with hold | hread
  · exact h.server o k w hold
  · exact hread ▸ h.record k

theorem Dated.reclaim (h : Dated s) : Dated (s.reclaim k w) := by
  unfold ParticipantSys.reclaim
  split_ifs
  · exact Words.store h (.inl rfl)
  · exact h

theorem Dated.reject (h : Dated s) : Dated (s.reject i o) := by
  unfold ParticipantSys.reject
  split_ifs <;> exact h

theorem Dated.grant (h : Dated s) : Dated (s.grant i o k) := by
  unfold ParticipantSys.grant
  split_ifs <;> exact h

theorem Dated.setSweep (h : Dated s) {t : ℕ} {v : Sweeping}
    (hv : ∀ k w, v.observed? = some (k, w) →
      (s.sweeping i t).observed? = some (k, w) ∨ s.word k = w) : Dated (s.setSweep i t v) := by
  refine Words.sweep h fun t' k w hkw => ?_
  by_cases ht : t' = t
  · subst ht
    rw [upd_self] at hkw
    rcases hv k w hkw with hold | hread
    · exact h.sweeper i t' k w hold
    · exact hread ▸ h.record k
  · rw [upd_of_ne _ _ ht] at hkw
    exact h.sweeper i t' k w hkw

theorem Dated.advance (h : Dated s) {answer : Bool} (hs : s.advance o answer = some s') :
    Dated s' := by
  unfold ParticipantSys.advance at hs
  split at hs
  · split_ifs at hs
    · cases hs
      exact (h.toStage (v := .idle) nofun).reject
    · cases hs
      exact h.toStage nofun
    · cases hs
      exact h.toStage nofun
    · cases hs
      exact h.toStage nofun
  · split_ifs at hs
    · cases hs
      exact h.toStage nofun
    · -- the second load
      cases hs
      refine h.keep ?_
      rintro k w ⟨⟩
      exact .inr rfl
  · next i k observed ho =>
    split_ifs at hs
    · cases hs
      refine h.keep ?_
      rintro k w ⟨⟩
      exact .inl (by rw [ho]; rfl)
    · cases hs
      exact h.toStage nofun
  · next i k observed ho =>
    cases hs
    refine h.reclaim.toStage ?_
    split_ifs
    · exact nofun
    · exact nofun
  · split_ifs at hs
    · cases hs
      exact h.toStage nofun
    · cases hs
      exact (h.toStage (v := .idle) nofun).grant
  · next k observed ho =>
    cases hs
    have hfree : Dated (s.reclaim k observed) := h.reclaim
    exact Dated.toStage (s := (s.reclaim k observed).setLink o k .none) hfree nofun
  · cases hs
  · cases hs

theorem Dated.step (h : Dated s) (hs : step s e = some s') : Dated s' := by
  cases e with
  | advance o answer => exact h.advance hs
  | hangup o k =>
    simp only [ParticipantSys.step] at hs
    split at hs
    · split_ifs at hs
      · cases hs
        exact h
      · cases hs
        refine h.keep ?_
        rintro k w ⟨⟩
        exact .inr rfl
    · cases hs
  | accept o i =>
    simp only [ParticipantSys.step] at hs
    split at hs
    · split_ifs at hs
      cases hs
      exact h.toStage (by rintro _ _ ⟨⟩)
    · cases hs
  | reserve i =>
    simp only [ParticipantSys.step] at hs
    split at hs
    · split_ifs at hs
      · cases hs
        exact Words.store h (.inr (.inl rfl))
      · cases hs
        exact h
    · cases hs
  | publish i =>
    simp only [ParticipantSys.step] at hs
    split at hs
    · next k _ =>
      cases hs
      refine Words.store (Words.bump h k) (.inr (.inr ⟨_, ?_, rfl⟩))
      show s.incarnation k + 1 ≤ upd s.incarnation k (s.incarnation k + 1) k
      rw [upd_self]
    · cases hs
  | serve i =>
    simp only [ParticipantSys.step] at hs
    split at hs
    · split_ifs at hs
      cases hs
      exact h.toStage (by rintro _ _ ⟨⟩)
    · cases hs
  | sweep i t k =>
    simp only [ParticipantSys.step] at hs
    split at hs
    · split_ifs at hs
      cases hs
      refine h.setSweep ?_
      rintro k w ⟨⟩
      exact .inr rfl
    · cases hs
  | sweepProbe i t answer =>
    simp only [ParticipantSys.step] at hs
    split at hs
    · next k observed hi =>
      split_ifs at hs
      · cases hs
        refine h.setSweep ?_
        rintro k w ⟨⟩
        exact .inl (by rw [hi]; rfl)
      · cases hs
        exact h.setSweep (by rintro _ _ ⟨⟩)
    · cases hs
  | sweepReclaim i t =>
    simp only [ParticipantSys.step] at hs
    split at hs
    · cases hs
      exact h.reclaim.setSweep (by rintro _ _ ⟨⟩)
    · cases hs
  | release i =>
    simp only [ParticipantSys.step] at hs
    split at hs
    · cases hs
      exact h.reclaim
    · cases hs
  | exit i =>
    simp only [ParticipantSys.step] at hs
    split at hs
    · cases hs
    · cases hs
    · cases hs
      exact Words.sweep (h.toStage (v := .off) (by rintro _ _ ⟨⟩)) (by rintro _ _ _ ⟨⟩)
  | create i | connect i o | takeByte i | unlock i | disconnect i =>
    simp only [ParticipantSys.step] at hs
    split at hs
    · first
        | (split_ifs at hs <;> cases hs <;> exact h)
        | (cases hs; exact h)
    · cases hs

/-- Every state reached before some slot has had `2 ^ 30` registrations can publish. -/
theorem fresh_of_reachable (hreach : Reachable step init s) (hk : s.incarnation k + 1 < 2 ^ 30) :
    ¬ Targeted s.serving s.sweeping k (liveWord (s.incarnation k + 1)) := by
  have hinit : Dated init := ⟨fun _ => .inl rfl, fun _ _ _ => nofun, fun _ _ _ _ => nofun⟩
  have hdated : Dated s := hreach.invariant (fun _ _ _ h _ hs => h.step hs) hinit
  exact hdated.fresh hk

/-! ## Runs -/

/-- The owner handles a hang-up while no live process is registered in the slot, and no
    process publishes the very word that some thread is about to free. -/
def Quiet (s : ParticipantSys) (e : Event) : Prop :=
  (∀ o k, e = .hangup o k → ¬ Registered s.phase k) ∧
    ∀ i k, e = .publish i → s.phase i = .reserved k →
      ¬ Targeted s.serving s.sweeping k (liveWord (s.incarnation k + 1))

/-- The records of a state. -/
def Safe (s : ParticipantSys) : Prop := Records s.phase s.word s.serving s.sweeping

theorem Safe.toStage (h : Safe s) {v : Serving}
    (hv : ∀ k w, v.target? = some (k, w) → ¬ Registered s.phase k) : Safe (s.toStage o v) :=
  Records.serve h hv

theorem Safe.goto (h : Safe s) {p : PeerPhase} (hp : ∀ k n, p ≠ .live k n) : Safe (s.goto i p) :=
  Records.move h hp

theorem Safe.reject (h : Safe s) : Safe (s.reject i o) := by
  unfold ParticipantSys.reject
  split_ifs
  · exact h.goto nofun
  · exact h

theorem Safe.grant (h : Safe s) : Safe (s.grant i o k) := by
  unfold ParticipantSys.grant
  split_ifs
  · exact Records.move h (by rintro _ _ ⟨⟩)
  · exact h

/-- The compare-and-swap of a thread whose target it is. -/
theorem Safe.reclaim (h : Safe s) (htarget : Targeted s.serving s.sweeping k w) :
    Safe (s.reclaim k w) := by
  unfold ParticipantSys.reclaim
  split_ifs with hw
  · exact Records.free h htarget hw
  · exact h

theorem Safe.advance (h : Safe s) (hseat : Seat s.phase s.byte) {answer : Bool}
    (hs : s.advance o answer = some s') : Safe s' := by
  unfold ParticipantSys.advance at hs
  split at hs
  · split_ifs at hs
    · cases hs
      exact (h.toStage (v := .idle) nofun).reject
    · cases hs
      exact h.toStage nofun
    · cases hs
      exact h.toStage nofun
    · cases hs
      exact h.toStage nofun
  · split_ifs at hs
    · cases hs
      exact h.toStage nofun
    · cases hs
      exact h.toStage nofun
  · split_ifs at hs with hprobe
    · -- the byte is free, so the word is nobody's
      cases hs
      refine h.toStage ?_
      rintro k w ⟨⟩
      exact hseat.not_registered hprobe.2
    · cases hs
      exact h.toStage nofun
  · next i k observed ho =>
    cases hs
    refine (h.reclaim (.inl ⟨o, by rw [ho]; rfl⟩)).toStage ?_
    split_ifs
    · exact nofun
    · exact nofun
  · split_ifs at hs
    · cases hs
      exact h.toStage nofun
    · cases hs
      exact (h.toStage (v := .idle) nofun).grant
  · next k observed ho =>
    cases hs
    have hfree := h.reclaim (k := k) (w := observed) (.inl ⟨o, by rw [ho]; rfl⟩)
    exact Safe.toStage (s := (s.reclaim k observed).setLink o k .none) hfree nofun
  · cases hs
  · cases hs

theorem Safe.step (h : Safe s) (hseat : Seat s.phase s.byte) (hquiet : Quiet s e)
    (hs : step s e = some s') : Safe s' := by
  cases e with
  | create i =>
    simp only [ParticipantSys.step] at hs
    split at hs
    · split_ifs at hs
      cases hs
      exact Records.move h (by rintro _ _ ⟨⟩)
    · cases hs
  | connect i o =>
    simp only [ParticipantSys.step] at hs
    split at hs
    · split_ifs at hs
      cases hs
      exact h.goto (by rintro _ _ ⟨⟩)
    · cases hs
  | accept o i =>
    simp only [ParticipantSys.step] at hs
    split at hs
    · split_ifs at hs
      cases hs
      exact h.toStage (by rintro _ _ ⟨⟩)
    · cases hs
  | advance o answer => exact h.advance hseat hs
  | hangup o k =>
    simp only [ParticipantSys.step] at hs
    split at hs
    · split_ifs at hs
      · cases hs
        exact h
      · -- no probe: the condition of the run
        cases hs
        refine h.toStage ?_
        rintro k w ⟨⟩
        exact hquiet.1 o _ rfl
    · cases hs
  | takeByte i =>
    simp only [ParticipantSys.step] at hs
    split at hs
    · split_ifs at hs
      · cases hs
        exact Records.move h (by rintro _ _ ⟨⟩)
      · cases hs
        exact h.goto (by rintro _ _ ⟨⟩)
    · cases hs
  | reserve i =>
    simp only [ParticipantSys.step] at hs
    split at hs
    · next k hi =>
      split_ifs at hs
      · cases hs
        refine Records.move (Records.store h ?_ RESERVED) (by rintro _ _ ⟨⟩)
        exact hseat.alone (by rw [hi]; rfl) fun n => by simp [hi]
      · cases hs
        exact h.goto (by rintro _ _ ⟨⟩)
    · cases hs
  | publish i =>
    simp only [ParticipantSys.step] at hs
    split at hs
    · next k hi =>
      cases hs
      have halone := hseat.alone (i := i) (k := k) (by rw [hi]; rfl) fun n => by simp [hi]
      exact Records.publish (Records.store h halone _) (upd_self ..) (hquiet.2 i k rfl hi)
    · cases hs
  | serve i =>
    simp only [ParticipantSys.step] at hs
    split at hs
    · split_ifs at hs
      cases hs
      exact h.toStage (by rintro _ _ ⟨⟩)
    · cases hs
  | sweep i t k =>
    simp only [ParticipantSys.step] at hs
    split at hs
    · split_ifs at hs
      cases hs
      exact Records.sweep h (by rintro _ _ ⟨⟩)
    · cases hs
  | sweepProbe i t answer =>
    simp only [ParticipantSys.step] at hs
    split at hs
    · split_ifs at hs with hprobe
      · cases hs
        refine Records.sweep h ?_
        rintro k w ⟨⟩
        exact hseat.not_registered hprobe.2
      · cases hs
        exact Records.sweep h (by rintro _ _ ⟨⟩)
    · cases hs
  | sweepReclaim i t =>
    simp only [ParticipantSys.step] at hs
    split at hs
    · next k observed hi =>
      cases hs
      have hfree := h.reclaim (k := k) (w := observed) (.inr ⟨i, t, by rw [hi]; rfl⟩)
      exact Records.sweep hfree (by rintro _ _ ⟨⟩)
    · cases hs
  | release i =>
    simp only [ParticipantSys.step] at hs
    split at hs
    · next k n hi =>
      -- the process leaves its slot and frees its own record
      cases hs
      have halone := hseat.move (i := i) (p := .released k) fun k' hk' => by
        cases hk'
        exact hseat i k (by rw [hi]; rfl)
      have hmoved : Safe (s.goto i (.released k)) := h.goto (by rintro _ _ ⟨⟩)
      have hnone := halone.alone (i := i) (k := k) (by rw [upd_self]; rfl)
        fun n => by simp [upd_self]
      unfold ParticipantSys.reclaim
      split_ifs
      · exact Records.store hmoved hnone FREE
      · exact hmoved
    · cases hs
  | exit i =>
    simp only [ParticipantSys.step] at hs
    split at hs
    · cases hs
    · cases hs
    · cases hs
      exact Records.sweepsEnd
        (Safe.goto (h.toStage (v := .off) (by rintro _ _ ⟨⟩)) (by rintro _ _ ⟨⟩))
  | unlock i =>
    simp only [ParticipantSys.step] at hs
    split at hs
    · cases hs
      exact h
    · cases hs
  | disconnect i =>
    simp only [ParticipantSys.step] at hs
    split at hs
    · cases hs
      exact h
    · cases hs

theorem seat_preserved : Preserved step anyStep fun s => Seat s.phase s.byte :=
  fun _ _ _ h _ hs => h.step hs

/-- Bytes and records. -/
def Inv (s : ParticipantSys) : Prop := Seat s.phase s.byte ∧ Safe s

theorem Inv.init : Inv init := ⟨fun _ _ => nofun, fun _ _ _ => nofun, fun _ _ _ _ _ => nofun⟩

theorem Inv.preserved : Preserved step Quiet Inv :=
  fun _ _ _ h hquiet hs => ⟨h.1.step hs, h.2.step h.1 hquiet hs⟩

/-- **Main theorem.** A live process keeps the byte of its slot and its record, as long as
    every hang-up finds its slot without a live record; two live processes never have
    records of one slot. -/
theorem records_stay (s : ParticipantSys) :
    (Runs step Quiet init s → ∀ i k n, s.phase i = .live k n →
      s.byte k = some i ∧ s.word k = liveWord n) ∧
    (Reachable step init s → ∀ i j k m n, s.phase i = .live k m → s.phase j = .live k n →
      i = j) := by
  refine ⟨fun hrun i k n hi => ?_, fun hreach i j k m n hi hj => ?_⟩
  · have hinv := hrun.invariant Inv.preserved Inv.init
    exact ⟨hinv.1 i k (by rw [hi]; rfl), hinv.2.stays i k n hi⟩
  · have hseat : Seat s.phase s.byte := hreach.invariant seat_preserved Inv.init.1
    exact hseat.unique (by rw [hi]; rfl) (by rw [hj]; rfl)

theorem quiet_of_ne (hhangup : ∀ o k, e ≠ .hangup o k) (hpublish : ∀ i, e ≠ .publish i) :
    Quiet s e :=
  ⟨fun o k he => absurd he (hhangup o k), fun i _ he => absurd he (hpublish i)⟩

/-- The first registrations of a slot are quiet. -/
theorem quiet_publish (hrun : Runs step Quiet init s)
    (hk : ∀ k, s.phase i = .reserved k → s.incarnation k + 1 < 2 ^ 30) : Quiet s (.publish i) := by
  refine ⟨nofun, ?_⟩
  rintro j k ⟨⟩ hi
  exact fresh_of_reachable (hrun.mono fun _ _ _ => trivial) (hk k hi)

/-- The events that are quiet in every state. -/
def Event.isQuiet : Event → Bool
  | .hangup _ _ | .publish _ => false
  | _ => true

theorem runs_of_isQuiet (es : List Event) (h : exec step (fun _ e => e.isQuiet) s es = some s') :
    Runs step Quiet s s' := by
  refine (runs_of_exec h).mono fun _ e he => quiet_of_ne ?_ ?_
  · rintro o k rfl
    cases he
  · rintro i rfl
    cases he

/-- Processes `1` and `2` join the arena of process `0`, and process `2` dies. Process `1` sweeps
    its slot while process `0` handles the hang-up: the second reclamation finds nothing. -/
theorem records_stay_swept : ∃ s, Runs step Quiet init s ∧ s.phase 1 = .live 1 1 ∧
    s.phase 2 = .exiting ∧ s.word 2 = FREE ∧ s.byte 1 = some 1 ∧ s.word 1 = liveWord 1 := by
  have h1 : Runs step Quiet init _ := runs_of_isQuiet [.create 0, .reserve 0] rfl
  have h2 := h1.step (e := .publish 0) (quiet_publish h1 ?_) rfl
  · have h3 := h2.trans (runs_of_isQuiet [.serve 0, .connect 1 0, .accept 0 1, .advance 0 true,
      .advance 0 true, .advance 0 true, .advance 0 true, .takeByte 1, .reserve 1] rfl)
    have h4 := h3.step (e := .publish 1) (quiet_publish h3 ?_) rfl
    · have h5 := h4.trans (runs_of_isQuiet [.connect 2 0, .accept 0 2, .advance 0 true,
        .advance 0 true, .advance 0 true, .advance 0 true, .advance 0 true, .takeByte 2,
        .reserve 2] rfl)
      have h6 := h5.step (e := .publish 2) (quiet_publish h5 ?_) rfl
      · have h7 := h6.trans
          (runs_of_isQuiet [.exit 2, .unlock 2, .disconnect 2, .sweep 1 0 2] rfl)
        have h8 := h7.step (e := .hangup 0 2) ⟨?_, nofun⟩ rfl
        · have h9 := h8.trans
            (runs_of_isQuiet [.sweepProbe 1 0 true, .advance 0 true, .sweepReclaim 1 0] rfl)
          exact ⟨_, h9, rfl, rfl, rfl, (records_stay _).1 h9 1 1 1 rfl⟩
        · -- the byte of the slot is free, so nobody is registered in it
          rintro o k ⟨⟩ ⟨j, n, hj⟩
          cases ((records_stay _).1 h7 j 2 n hj).1
      · rintro k ⟨⟩
        decide
    · rintro k ⟨⟩
      decide
  · rintro k ⟨⟩
    decide

/-- The owner `0` grants slot `1` to process `1` and slot `2` to process `2`, and dies
    before process `1` takes its byte. Process `2` inherits the role and grants slot `1`
    again, to process `4`. Process `1` registers; process `4` finds the byte taken and
    hangs up. -/
def regrantEvents : List Event :=
  [.create 0, .reserve 0, .publish 0, .serve 0,
    .connect 1 0, .accept 0 1, .advance 0 true, .advance 0 true, .advance 0 true, .advance 0 true,
    .connect 2 0, .accept 0 2, .advance 0 true, .advance 0 true, .advance 0 true, .advance 0 true,
    .advance 0 true, .takeByte 2, .reserve 2, .publish 2,
    .exit 0, .unlock 0, .serve 2,
    .connect 3 2, .accept 2 3, .advance 2 true, .advance 2 true, .advance 2 true, .advance 2 true,
    .advance 2 true,
    .connect 4 2, .accept 2 4, .advance 2 true, .advance 2 true, .advance 2 true,
    .takeByte 1, .reserve 1, .publish 1, .takeByte 4, .disconnect 4, .hangup 2 1]

/-- The hang-up of process `4` frees the record of process `1`, which is alive. -/
theorem live_record_freed : ∃ s s', Reachable step init s ∧ step s (.advance 2 true) = some s' ∧
    s.phase 1 = .live 1 1 ∧ s.byte 1 = some 1 ∧ s.word 1 = liveWord 1 ∧
    s'.phase 1 = .live 1 1 ∧ s'.byte 1 = some 1 ∧ s'.word 1 = FREE := by
  have hexec : ∃ s, execAll step init regrantEvents = some s ∧
    s.serving 2 = .hungUp 1 (liveWord 1) ∧
      s.phase 1 = .live 1 1 ∧ s.byte 1 = some 1 ∧ s.word 1 = liveWord 1 :=
      ⟨_, rfl, rfl, rfl, rfl, rfl⟩
  obtain ⟨s, hs, hserving, hphase, hbyte, hword⟩ := hexec
  refine ⟨s, ((s.reclaim 1 (liveWord 1)).setLink 2 1 .none).toStage 2 .idle,
    reachable_of_execAll hs, ?_, hphase, hbyte, hword, ?_, ?_, ?_⟩
  · simp only [step, advance, hserving]
  · show (s.reclaim 1 (liveWord 1)).phase 1 = .live 1 1
    rw [reclaim_phase, hphase]
  · show (s.reclaim 1 (liveWord 1)).byte 1 = some 1
    rw [reclaim_byte, hbyte]
  · show (s.reclaim 1 (liveWord 1)).word 1 = FREE
    rw [ParticipantSys.reclaim, if_pos hword]
    exact upd_self s.word 1 FREE

end ParticipantSys

end TfTree
