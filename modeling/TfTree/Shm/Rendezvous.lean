import TfTree.Conc.System
import Mathlib.Order.Basic

/-!
# The rendezvous

`open()` (`tf_tree_ipc/src/open.rs`), the handshake that joins (`client.rs`), the
creation and the inheritance of an arena (`tf_tree/src/open.rs`), over the bytes of one
lock file. Each `open()` call and the session it returns is a process with a file
description of its own; every access of a byte or of the socket is a step.

Results:
* `Wf.step`: a participant byte is held exactly by the session or the creator of its slot.
* `Fresh.step`: unless a byte is taken behind a scan, or by a grant of an older arena,
  every session is on the newest arena.
* `sessions_agree`: then all live sessions are on one arena.
-/

namespace TfTree

open Conc

/-! ## Model of `open.rs` -/

/-- `MAX_PARTICIPANTS`. -/
def maxParticipants : ℕ := 64

/-- `CREATOR_SLOT`. -/
def creatorSlot : ℕ := 0

/-- `CreatePolicy`. -/
inductive CreatePolicy where
  | ifAbsent
  | never
  | always
  deriving DecidableEq, Repr

/-- Where a process is in `Open::open`, `Open::attempt`, and the life of its session. -/
inductive OpenPhase where
  /-- `open()` is not called yet. -/
  | idle
  /-- The top of the loop. -/
  | probing
  /-- `Reach::Serving`: the owner sent the segment and a slot; the byte is not taken. -/
  | granted (arena slot : ℕ)
  /-- Step 1 is over without a session. -/
  | absent
  /-- The ownership byte is taken; step 4 has probed the slots below `next`. -/
  | scanning (next : ℕ)
  /-- The ownership byte is to be released before the next pass. -/
  | releasing
  /-- Step 4 is passed; the creator's byte is not taken. -/
  | registering
  /-- The creator's byte is taken; there is no arena. -/
  | creating
  /-- The arena is built; nothing serves it. -/
  | created (arena : ℕ)
  /-- A session that does not own the arena. -/
  | joined (arena slot : ℕ)
  /-- `inherit_ownership`: the ownership byte is taken; nothing is bound. -/
  | heir (arena slot : ℕ)
  /-- A session that serves. -/
  | owner (arena slot : ℕ)
  /-- An owner whose serving thread is stopped. -/
  | closing (arena slot : ℕ)
  /-- The lock file is closed: a death, a failed `open()` or a dropped session. -/
  | gone
  deriving DecidableEq, Repr

/-- The arena a process has built or is attached to. -/
def OpenPhase.arena? : OpenPhase → Option ℕ
  | .created a | .joined a _ | .heir a _ | .owner a _ | .closing a _ => some a
  | _ => none

/-- The participant byte a process holds. -/
def OpenPhase.slot? : OpenPhase → Option ℕ
  | .creating | .created _ => some creatorSlot
  | .joined _ k | .heir _ k | .owner _ k | .closing _ k => some k
  | _ => none

/-- The slots below it were free when the process probed them in step 4, and its arena
    is still to be built. -/
def OpenPhase.scanned : OpenPhase → ℕ
  | .scanning next => next
  | .registering | .creating => maxParticipants
  | _ => 0

/-- The bytes of the lock file, the socket and the processes. -/
structure Rendezvous where
  phase : ℕ → OpenPhase
  ownership : Option ℕ
  byte : ℕ → Option ℕ
  /-- The process that listens at the socket path. -/
  server : Option ℕ
  /-- The number of arenas built so far; their numbers are below it. -/
  arenas : ℕ

namespace Rendezvous

/-- Nobody has opened the rendezvous. -/
def init : Rendezvous where
  phase := fun _ => .idle
  ownership := none
  byte := fun _ => none
  server := none
  arenas := 0

inductive Event where
  /-- `open()` is called. -/
  | call (i : ℕ)
  /-- The probe finds nobody, or a server that does not answer. -/
  | notServed (i : ℕ)
  /-- The handshake: the server grants the slot. -/
  | grant (i slot : ℕ)
  /-- `register_at`: `try_take_participant`. -/
  | takeByte (i : ℕ)
  /-- `try_take_ownership`. -/
  | takeOwnership (i : ℕ)
  /-- `any_participant_held`: one probe, or the end of the loop. -/
  | scan (i : ℕ)
  | releaseOwnership (i : ℕ)
  /-- `register_creator`: `try_take_participant(CREATOR_SLOT)`. -/
  | register (i : ℕ)
  /-- `build_shared`. -/
  | build (i : ℕ)
  /-- `spawn_owner_server`. -/
  | serve (i : ℕ)
  /-- `take_over_ownership`. -/
  | takeOver (i : ℕ)
  /-- `inherit_ownership` gives the role back. -/
  | handBack (i : ℕ)
  /-- The serving thread of an owner that closes stops. -/
  | stop (i : ℕ)
  /-- A death, or the close of the lock file: its bytes are freed. -/
  | leave (i : ℕ)
  deriving DecidableEq, Repr

variable (s : Rendezvous) (i : ℕ)

/-- The process goes to a phase. -/
def goto (p : OpenPhase) : Rendezvous := { s with phase := upd s.phase i p }

/-- The process takes a participant byte. -/
def hold (slot : ℕ) : Rendezvous := { s with byte := upd s.byte slot (some i) }

/-- The lock file of the process is closed. -/
def close : Rendezvous where
  phase := upd s.phase i .gone
  ownership := if s.ownership = some i then none else s.ownership
  byte := fun k => if s.byte k = some i then none else s.byte k
  server := if s.server = some i then none else s.server
  arenas := s.arenas

/-- One step. `create` is the policy of each process. -/
def step (create : ℕ → CreatePolicy) (s : Rendezvous) : Event → Option Rendezvous
  | .call i =>
    match s.phase i with
    | .idle => some (s.goto i .probing)
    | _ => none
  | .notServed i =>
    match s.phase i with
    | .probing => some (s.goto i .absent)
    | _ => none
  | .grant i slot =>
    match s.phase i, s.server with
    | .probing, some o =>
      match s.phase o with
      | .owner a _ =>
        if slot < maxParticipants ∧ s.byte slot = none then some (s.goto i (.granted a slot))
        else none
      | _ => none
    | _, _ => none
  | .takeByte i =>
    match s.phase i with
    | .granted a slot =>
      if s.byte slot = none then some ((s.hold i slot).goto i (.joined a slot))
      else some (s.goto i .absent)
    | _ => none
  | .takeOwnership i =>
    match s.phase i with
    | .absent =>
      if s.ownership = none then
        some ({ s with ownership := some i }.goto i
          (if create i = CreatePolicy.always then .registering else .scanning 0))
      else some (s.goto i .probing)
    | _ => none
  | .scan i =>
    match s.phase i with
    | .scanning k =>
      if k < maxParticipants then
        some (s.goto i (if s.byte k = none then .scanning (k + 1) else .releasing))
      else if create i = CreatePolicy.never then some (s.close i)
      else some (s.goto i .registering)
    | _ => none
  | .releaseOwnership i =>
    match s.phase i with
    | .releasing => some ({ s with ownership := none }.goto i .probing)
    | _ => none
  | .register i =>
    match s.phase i with
    | .registering =>
      if s.byte creatorSlot = none then some ((s.hold i creatorSlot).goto i .creating)
      else some (s.goto i .releasing)
    | _ => none
  | .build i =>
    match s.phase i with
    | .creating => some ({ s with arenas := s.arenas + 1 }.goto i (.created s.arenas))
    | _ => none
  | .serve i =>
    match s.phase i with
    | .created a => some ({ s with server := some i }.goto i (.owner a creatorSlot))
    | .heir a k => some ({ s with server := some i }.goto i (.owner a k))
    | _ => none
  | .takeOver i =>
    match s.phase i with
    | .joined a k =>
      if s.ownership = none then some ({ s with ownership := some i }.goto i (.heir a k))
      else some s
    | _ => none
  | .handBack i =>
    match s.phase i with
    | .heir a k => some ({ s with ownership := none }.goto i (.joined a k))
    | _ => none
  | .stop i =>
    match s.phase i with
    | .owner a k =>
      some ({ s with server := if s.server = some i then none else s.server }.goto i (.closing a k))
    | _ => none
  | .leave i =>
    match s.phase i with
    | .idle | .gone => none
    | _ => some (s.close i)

/-! ## The participant bytes -/

section Bytes

variable {phase : ℕ → OpenPhase} {byte : ℕ → Option ℕ} {arenas i k : ℕ} {p : OpenPhase}

/-- A participant byte is held exactly by the process whose slot it is. -/
structure Wf (phase : ℕ → OpenPhase) (byte : ℕ → Option ℕ) : Prop where
  holder : ∀ k j, byte k = some j ↔ (phase j).slot? = some k
  bound : ∀ j k, (phase j).slot? = some k ∨ (∃ a, phase j = .granted a k) → k < maxParticipants

/-- A process moves on and keeps its byte. -/
theorem Wf.move (h : Wf phase byte) (hslot : p.slot? = (phase i).slot?)
    (hgrant : ∀ a k, p = .granted a k → k < maxParticipants) : Wf (upd phase i p) byte where
  holder := by
    intro k j
    by_cases hj : j = i
    · subst hj
      rw [upd_self, hslot]
      exact h.holder k j
    · rw [upd_of_ne _ _ hj]
      exact h.holder k j
  bound := by
    intro j k hk
    by_cases hj : j = i
    · subst hj
      rw [upd_self] at hk
      rcases hk with hk | ⟨a, hk⟩
      · exact h.bound j k (.inl (hslot ▸ hk))
      · exact hgrant a k hk
    · rw [upd_of_ne _ _ hj] at hk
      exact h.bound j k hk

/-- A process without a byte takes a free one. -/
theorem Wf.take (h : Wf phase byte) (hnone : (phase i).slot? = none) (hfree : byte k = none)
    (hslot : p.slot? = some k) (hk : k < maxParticipants) :
    Wf (upd phase i p) (upd byte k (some i)) where
  holder := by
    intro k' j
    have hj' : ∀ k', byte k' ≠ some i := fun k' heq => by
      rw [h.holder, hnone] at heq
      cases heq
    by_cases hj : j = i
    · subst hj
      rw [upd_self, hslot]
      by_cases hk' : k' = k
      · subst hk'
        simp
      · rw [upd_of_ne _ _ hk']
        simp only [hj' k', false_iff]
        exact fun heq => hk' (Option.some_inj.mp heq).symm
    · rw [upd_of_ne _ _ hj, ← h.holder]
      by_cases hk' : k' = k
      · subst hk'
        rw [upd_self, hfree]
        simp [Ne.symm hj]
      · rw [upd_of_ne _ _ hk']
  bound := by
    intro j k' hk'
    by_cases hj : j = i
    · subst hj
      rw [upd_self, hslot] at hk'
      rcases hk' with hk' | ⟨a, rfl⟩
      · cases hk'
        exact hk
      · cases hslot
    · rw [upd_of_ne _ _ hj] at hk'
      exact h.bound j k' hk'

/-- A process closes its lock file. -/
theorem Wf.close (h : Wf phase byte) :
    Wf (upd phase i .gone) (fun k => if byte k = some i then none else byte k) where
  holder := by
    intro k j
    by_cases hj : j = i
    · subst hj
      rw [upd_self]
      split_ifs with hb
      · simp [OpenPhase.slot?]
      · simp [hb, OpenPhase.slot?]
    · rw [upd_of_ne _ _ hj, ← h.holder]
      split_ifs with hb
      · rw [hb]
        simp [Ne.symm hj]
      · rfl
  bound := by
    intro j k hk
    by_cases hj : j = i
    · subst hj
      rw [upd_self] at hk
      rcases hk with hk | ⟨a, hk⟩
      · cases hk
      · cases hk
    · rw [upd_of_ne _ _ hj] at hk
      exact h.bound j k hk

/-! ## The newest arena -/

/-- Every process with an arena has the newest one; what a process that may create has
    probed in step 4 is still free, the creator's byte aside. -/
structure Fresh (create : ℕ → CreatePolicy) (phase : ℕ → OpenPhase) (byte : ℕ → Option ℕ)
    (arenas : ℕ) : Prop where
  newest : ∀ j a, (phase j).arena? = some a → a + 1 = arenas
  scanned : ∀ j, create j ≠ .never → ∀ k, k ≠ creatorSlot → k < (phase j).scanned → byte k = none
  policy : ∀ j, phase j = .registering ∨ phase j = .creating → create j ≠ .never

variable {create : ℕ → CreatePolicy}

theorem Fresh.move (h : Fresh create phase byte arenas)
    (harena : ∀ a, p.arena? = some a → a + 1 = arenas)
    (hscan : create i ≠ .never → ∀ k, k ≠ creatorSlot → k < p.scanned → byte k = none)
    (hpolicy : p = .registering ∨ p = .creating → create i ≠ .never) :
    Fresh create (upd phase i p) byte arenas where
  newest := by
    intro j a hj
    by_cases hji : j = i
    · subst hji
      rw [upd_self] at hj
      exact harena a hj
    · rw [upd_of_ne _ _ hji] at hj
      exact h.newest j a hj
  scanned := by
    intro j hj k hk hlt
    by_cases hji : j = i
    · subst hji
      rw [upd_self] at hlt
      exact hscan hj k hk hlt
    · rw [upd_of_ne _ _ hji] at hlt
      exact h.scanned j hj k hk hlt
  policy := by
    intro j hj
    by_cases hji : j = i
    · subst hji
      rw [upd_self] at hj
      exact hpolicy hj
    · rw [upd_of_ne _ _ hji] at hj
      exact h.policy j hj

/-- A byte nobody has probed in step 4 may be taken. -/
theorem Fresh.take (h : Fresh create phase byte arenas)
    (hq : k ≠ creatorSlot → ∀ j, create j ≠ .never → (phase j).scanned ≤ k) :
    Fresh create phase (upd byte k (some i)) arenas where
  newest := h.newest
  policy := h.policy
  scanned := by
    intro j hj k' hk' hlt
    by_cases heq : k' = k
    · subst heq
      have hle := hq hk' j hj
      omega
    · rw [upd_of_ne _ _ heq]
      exact h.scanned j hj k' hk' hlt

theorem Fresh.close (h : Fresh create phase byte arenas) :
    Fresh create (upd phase i .gone) (fun k => if byte k = some i then none else byte k)
      arenas := by
  refine Fresh.move ⟨h.newest, fun j hj k hk hlt => ?_, h.policy⟩ nofun ?_ nofun
  · rw [h.scanned j hj k hk hlt]
    split_ifs <;> rfl
  · intro _ k _ hlt
    exact absurd hlt (Nat.not_lt_zero k)

theorem slot_of_arena {a : ℕ} (h : p.arena? = some a) : ∃ k, p.slot? = some k := by
  cases p with
  | created | joined | heir | owner | closing => exact ⟨_, rfl⟩
  | _ => cases h

/-- A creator that passed step 4 and holds the creator's byte is alone. -/
theorem Fresh.alone (h : Fresh create phase byte arenas) (hwf : Wf phase byte)
    (hi : phase i = .creating) (j a : ℕ) : (phase j).arena? ≠ some a := by
  intro hj
  obtain ⟨k, hk⟩ := slot_of_arena hj
  have hbyte := (hwf.holder k j).mpr hk
  have hlt := hwf.bound j k (.inl hk)
  by_cases hzero : k = creatorSlot
  · subst hzero
    have hown := (hwf.holder creatorSlot i).mpr (by rw [hi]; rfl)
    rw [hown] at hbyte
    obtain rfl := Option.some_inj.mp hbyte
    rw [hi] at hj
    cases hj
  · have hfree := h.scanned i (h.policy i (.inr hi)) k hzero (by rw [hi]; exact hlt)
    rw [hfree] at hbyte
    cases hbyte

theorem Fresh.build (h : Fresh create phase byte arenas) (hwf : Wf phase byte)
    (hi : phase i = .creating) :
    Fresh create (upd phase i (.created arenas)) byte (arenas + 1) := by
  refine Fresh.move ⟨fun j a hj => absurd hj (h.alone hwf hi j a), h.scanned, h.policy⟩ ?_ ?_ nofun
  · rintro a ⟨⟩
    rfl
  · intro _ k _ hlt
    exact absurd hlt (Nat.not_lt_zero k)

end Bytes

/-! ## Runs -/

/-- A joiner that takes its byte has been granted the newest arena, and no process that
    may create one has probed the byte in a step 4 it has passed or is still in. -/
def Quiet (create : ℕ → CreatePolicy) (s : Rendezvous) (e : Event) : Prop :=
  ∀ i a k, e = .takeByte i → s.phase i = .granted a k → s.byte k = none →
    a + 1 = s.arenas ∧
      (k ≠ creatorSlot → ∀ j, create j ≠ .never → (s.phase j).scanned ≤ k)

def Inv (create : ℕ → CreatePolicy) (s : Rendezvous) : Prop :=
  Wf s.phase s.byte ∧ Fresh create s.phase s.byte s.arenas

theorem Inv.init (create : ℕ → CreatePolicy) : Inv create init :=
  ⟨⟨fun _ _ => ⟨nofun, nofun⟩, fun _ _ h => h.elim nofun nofun⟩,
    ⟨nofun, fun _ _ _ _ h => absurd h (Nat.not_lt_zero _), fun _ h => h.elim nofun nofun⟩⟩

variable {create : ℕ → CreatePolicy} {s s' : Rendezvous} {i : ℕ} {p : OpenPhase}

/-- A process moves on, with the byte and the arena it has, outside step 4. -/
theorem Inv.goto (h : Inv create s) (hslot : p.slot? = (s.phase i).slot?)
    (harena : p.arena? = (s.phase i).arena?) (hscan : p.scanned = 0)
    (hgrant : ∀ a k, p = .granted a k → k < maxParticipants) : Inv create (s.goto i p) := by
  refine ⟨h.1.move hslot hgrant, h.2.move (fun a ha => h.2.newest i a (harena ▸ ha)) ?_ ?_⟩
  · intro _ k _ hlt
    rw [hscan] at hlt
    exact absurd hlt (Nat.not_lt_zero k)
  · rintro (rfl | rfl)
    · cases hscan
    · cases hscan

theorem Inv.close (h : Inv create s) (i : ℕ) : Inv create (s.close i) :=
  ⟨h.1.close, h.2.close⟩

theorem Inv.grant {slot : ℕ} (h : Inv create s) (hs : step create s (.grant i slot) = some s') :
    Inv create s' := by
  dsimp only [step] at hs
  split at hs
  · next hi _ =>
    split at hs
    · split_ifs at hs with hslot
      cases hs
      refine h.goto (by rw [hi]; rfl) (by rw [hi]; rfl) rfl ?_
      rintro a k ⟨⟩
      exact hslot.1
    · cases hs
  · cases hs

/-- A joiner takes its byte: the condition of the run. -/
theorem Inv.takeByte (h : Inv create s) (hquiet : Quiet create s (.takeByte i))
    (hs : step create s (.takeByte i) = some s') : Inv create s' := by
  dsimp only [step] at hs
  split at hs
  · next a slot hi =>
    split_ifs at hs with hfree
    · cases hs
      obtain ⟨hnew, hunscanned⟩ := hquiet i a slot rfl hi hfree
      have hbound := h.1.bound i slot (.inr ⟨a, hi⟩)
      refine ⟨h.1.take (by rw [hi]; rfl) hfree rfl hbound, ?_⟩
      refine (h.2.take hunscanned).move ?_ ?_ nofun
      · rintro b ⟨⟩
        exact hnew
      · intro _ k _ hlt
        exact absurd hlt (Nat.not_lt_zero k)
    · cases hs
      exact h.goto (by rw [hi]; rfl) (by rw [hi]; rfl) rfl nofun
  · cases hs

theorem Inv.takeOwnership (h : Inv create s) (hcreate : create i ≠ .always)
    (hs : step create s (.takeOwnership i) = some s') : Inv create s' := by
  dsimp only [step] at hs
  split at hs
  · next hi =>
    rw [if_neg hcreate] at hs
    split_ifs at hs with hown
    · cases hs
      exact Inv.goto (s := { s with ownership := some i }) h (by rw [hi]; rfl) (by rw [hi]; rfl)
        rfl nofun
    · cases hs
      exact h.goto (by rw [hi]; rfl) (by rw [hi]; rfl) rfl nofun
  · cases hs

/-- One probe of step 4, or its end. -/
theorem Inv.scan (h : Inv create s) (hs : step create s (.scan i) = some s') : Inv create s' := by
  dsimp only [step] at hs
  split at hs
  · next k hi =>
    by_cases hk : k < maxParticipants
    · rw [if_pos hk] at hs
      cases hs
      by_cases hb : s.byte k = none
      · -- one more free slot
        rw [if_pos hb]
        refine ⟨h.1.move (by rw [hi]; rfl) nofun, h.2.move nofun (fun hc k' hk' hlt => ?_) nofun⟩
        rcases Nat.lt_succ_iff_lt_or_eq.mp hlt with hlt | rfl
        · exact h.2.scanned i hc k' hk' (by rw [hi]; exact hlt)
        · exact hb
      · rw [if_neg hb]
        exact h.goto (by rw [hi]; rfl) (by rw [hi]; rfl) rfl nofun
    · rw [if_neg hk] at hs
      split_ifs at hs with hnever
      · cases hs
        exact h.close i
      · -- the scan is over: every slot was free
        cases hs
        refine ⟨h.1.move (by rw [hi]; rfl) nofun,
          h.2.move nofun (fun hc k' hk' hlt => ?_) fun _ => hnever⟩
        have hlt : k' < maxParticipants := hlt
        exact h.2.scanned i hc k' hk' (by rw [hi]; show k' < k; omega)
  · cases hs

/-- A creator past step 4 takes the creator's byte. -/
theorem Inv.register (h : Inv create s) (hs : step create s (.register i) = some s') :
    Inv create s' := by
  dsimp only [step] at hs
  split at hs
  · next hi =>
    split_ifs at hs with hfree
    · cases hs
      refine ⟨h.1.take (by rw [hi]; rfl) hfree rfl (by decide), ?_⟩
      refine (h.2.take fun hne => absurd rfl hne).move nofun (fun hc k hk hlt => ?_)
        fun _ => h.2.policy i (.inl hi)
      rw [upd_of_ne _ _ hk]
      exact h.2.scanned i hc k hk (by rw [hi]; exact hlt)
    · cases hs
      exact h.goto (by rw [hi]; rfl) (by rw [hi]; rfl) rfl nofun
  · cases hs

theorem Inv.build (h : Inv create s) (hs : step create s (.build i) = some s') :
    Inv create s' := by
  dsimp only [step] at hs
  split at hs
  · next hi =>
    cases hs
    exact ⟨h.1.move (by rw [hi]; rfl) nofun, h.2.build h.1 hi⟩
  · cases hs

/-- The role and the socket change hands, and nobody's byte or arena. -/
theorem Inv.role (h : Inv create s) {e : Event}
    (he : e = .releaseOwnership i ∨ e = .serve i ∨ e = .takeOver i ∨ e = .handBack i ∨ e = .stop i)
    (hs : step create s e = some s') : Inv create s' := by
  have hmove : ∀ {ownership server : Option ℕ} {p : OpenPhase},
      p.slot? = (s.phase i).slot? → p.arena? = (s.phase i).arena? → p.scanned = 0 →
      (∀ a k, p ≠ .granted a k) →
      Inv create ({ s with ownership := ownership, server := server }.goto i p) :=
    fun {ownership server} _ hslot harena hscan hgrant =>
      Inv.goto (s := { s with ownership := ownership, server := server }) h hslot harena hscan
        fun a k hp => absurd hp (hgrant a k)
  rcases he with rfl | rfl | rfl | rfl | rfl
  · dsimp only [step] at hs
    split at hs
    · next hi =>
      cases hs
      exact hmove (by rw [hi]; rfl) (by rw [hi]; rfl) rfl nofun
    · cases hs
  · dsimp only [step] at hs
    split at hs
    · next a hi =>
      cases hs
      exact hmove (by rw [hi]; rfl) (by rw [hi]; rfl) rfl nofun
    · next a k hi =>
      cases hs
      exact hmove (by rw [hi]; rfl) (by rw [hi]; rfl) rfl nofun
    · cases hs
  · dsimp only [step] at hs
    split at hs
    · next a k hi =>
      split_ifs at hs
      · cases hs
        exact hmove (by rw [hi]; rfl) (by rw [hi]; rfl) rfl nofun
      · cases hs
        exact h
    · cases hs
  · dsimp only [step] at hs
    split at hs
    · next a k hi =>
      cases hs
      exact hmove (by rw [hi]; rfl) (by rw [hi]; rfl) rfl nofun
    · cases hs
  · dsimp only [step] at hs
    split at hs
    · next a k hi =>
      cases hs
      exact hmove (by rw [hi]; rfl) (by rw [hi]; rfl) rfl nofun
    · cases hs

/-- **Step lemma.** -/
theorem Inv.preserved (hcreate : ∀ i, create i ≠ .always) :
    Preserved (step create) (Quiet create) (Inv create) := by
  intro s e s' h hquiet hs
  cases e with
  | call i =>
    dsimp only [step] at hs
    split at hs
    · next hi =>
      cases hs
      exact h.goto (by rw [hi]; rfl) (by rw [hi]; rfl) rfl nofun
    · cases hs
  | notServed i =>
    dsimp only [step] at hs
    split at hs
    · next hi =>
      cases hs
      exact h.goto (by rw [hi]; rfl) (by rw [hi]; rfl) rfl nofun
    · cases hs
  | grant i slot => exact h.grant hs
  | takeByte i => exact h.takeByte hquiet hs
  | takeOwnership i => exact h.takeOwnership (hcreate i) hs
  | scan i => exact h.scan hs
  | register i => exact h.register hs
  | build i => exact h.build hs
  | releaseOwnership i => exact h.role (.inl rfl) hs
  | serve i => exact h.role (.inr (.inl rfl)) hs
  | takeOver i => exact h.role (.inr (.inr (.inl rfl))) hs
  | handBack i => exact h.role (.inr (.inr (.inr (.inl rfl)))) hs
  | stop i => exact h.role (.inr (.inr (.inr (.inr rfl)))) hs
  | leave i =>
    dsimp only [step] at hs
    split at hs
    · cases hs
    · cases hs
    · cases hs
      exact h.close i

/-- **Main theorem.** When every joiner takes its byte in time, all live processes that
    have built, joined, inherited or serve an arena have the same one. -/
theorem sessions_agree (hcreate : ∀ i, create i ≠ .always)
    (hrun : Runs (step create) (Quiet create) init s) {i j a b : ℕ}
    (hi : (s.phase i).arena? = some a) (hj : (s.phase j).arena? = some b) : a = b := by
  have hinv := hrun.invariant (Inv.preserved hcreate) (.init create)
  have ha := hinv.2.newest i a hi
  have hb := hinv.2.newest j b hj
  omega

/-! ## Two concrete runs -/

theorem goto_goto (s : Rendezvous) (i : ℕ) (p q : OpenPhase) :
    (s.goto i p).goto i q = s.goto i q := by
  unfold goto
  congr 1
  funext j
  by_cases hj : j = i
  · rw [hj, upd_self, upd_self]
  · rw [upd_of_ne _ _ hj, upd_of_ne _ _ hj]
    exact upd_of_ne _ _ hj

/-- Step 4 passes over free bytes. -/
theorem runs_scan {ok : Rendezvous → Event → Prop} (hok : ∀ s i, ok s (.scan i))
    (hfree : ∀ k, k < maxParticipants → s.byte k = none) (n : ℕ) (hn : n ≤ maxParticipants) :
    Runs (step create) ok (s.goto i (.scanning 0)) (s.goto i (.scanning n)) := by
  induction n with
  | zero => exact .refl
  | succ n ih =>
    refine (ih (by omega)).step (e := .scan i) (hok _ i) ?_
    have hphase : (s.goto i (.scanning n)).phase i = .scanning n := upd_self ..
    have hbyte : (s.goto i (.scanning n)).byte n = none := hfree n hn
    simp only [step, hphase, hbyte]
    rw [if_pos (show n < maxParticipants by omega), if_pos trivial, goto_goto]

theorem quiet_of_ne {e : Event} (h : ∀ i, e ≠ .takeByte i) : Quiet create s e :=
  fun i _ _ he => absurd he (h i)

/-- Process `0` creates the arena and process `1` joins it. -/
theorem sessions_agree_joined : ∃ s, Runs (step fun _ => .ifAbsent) (Quiet fun _ => .ifAbsent)
    init s ∧ s.phase 1 = .joined 0 1 ∧ ∀ j b, (s.phase j).arena? = some b → 0 = b := by
  have h1 : Runs (step fun _ => .ifAbsent) (Quiet fun _ => .ifAbsent) init _ :=
    .step (e := .call 0) .refl (quiet_of_ne nofun) rfl
  have h2 := h1.step (e := .notServed 0) (quiet_of_ne nofun) rfl
  have h3 := h2.step (e := .takeOwnership 0) (quiet_of_ne nofun) rfl
  have h4 := h3.trans (runs_scan (fun _ _ => quiet_of_ne nofun) (fun _ _ => rfl) maxParticipants
    (Nat.le_refl _))
  have h5 := h4.step (e := .scan 0) (quiet_of_ne nofun) rfl
  have h6 := h5.step (e := .register 0) (quiet_of_ne nofun) rfl
  have h7 := h6.step (e := .build 0) (quiet_of_ne nofun) rfl
  have h8 := h7.step (e := .serve 0) (quiet_of_ne nofun) rfl
  have h9 := h8.step (e := .call 1) (quiet_of_ne nofun) rfl
  have h10 := h9.step (e := .grant 1 1) (quiet_of_ne nofun) rfl
  have h11 := h10.step (e := .takeByte 1) ?_ rfl
  · have hcreate : ∀ i, (fun _ : ℕ => CreatePolicy.ifAbsent) i ≠ .always := fun _ => nofun
    exact ⟨_, h11, rfl, fun j b hj => sessions_agree hcreate h11 (i := 1) rfl hj⟩
  · rintro i a k ⟨⟩ hi -
    cases hi
    refine ⟨rfl, fun _ j _ => ?_⟩
    by_cases hj0 : j = 0
    · subst hj0
      exact Nat.zero_le _
    · by_cases hj1 : j = 1
      · subst hj1
        exact Nat.zero_le _
      · simp [goto, hold, upd, init, OpenPhase.scanned, hj0, hj1]

/-- Process `1` is granted slot `1` of the first arena, whose owner then dies; process `2`
    finds no byte held and creates the second arena; process `1` takes its byte. Both
    sessions are alive. -/
theorem second_arena_beside_a_joiner : ∃ s, Reachable (step fun _ => .ifAbsent) init s ∧
    s.phase 1 = .joined 0 1 ∧ s.phase 2 = .owner 1 0 := by
  have h1 : Runs (step fun _ => .ifAbsent) anyStep init _ :=
    .step (e := .call 0) .refl trivial rfl
  have h2 := h1.step (e := .notServed 0) trivial rfl
  have h3 := h2.step (e := .takeOwnership 0) trivial rfl
  have h4 := h3.trans (runs_scan (fun _ _ => trivial) (fun _ _ => rfl) maxParticipants
    (Nat.le_refl _))
  have h5 := h4.step (e := .scan 0) trivial rfl
  have h6 := h5.step (e := .register 0) trivial rfl
  have h7 := h6.step (e := .build 0) trivial rfl
  have h8 := h7.step (e := .serve 0) trivial rfl
  have h9 := h8.step (e := .call 1) trivial rfl
  have h10 := h9.step (e := .grant 1 1) trivial rfl
  have h11 := h10.step (e := .leave 0) trivial rfl
  have h12 := h11.step (e := .call 2) trivial rfl
  have h13 := h12.step (e := .notServed 2) trivial rfl
  have h14 := h13.step (e := .takeOwnership 2) trivial rfl
  have h15 := h14.trans (runs_scan (fun _ _ => trivial) ?_ maxParticipants
    (Nat.le_refl _))
  · have h16 := h15.step (e := .scan 2) trivial rfl
    have h17 := h16.step (e := .register 2) trivial rfl
    have h18 := h17.step (e := .build 2) trivial rfl
    have h19 := h18.step (e := .takeByte 1) trivial rfl
    have h20 := h19.step (e := .serve 2) trivial rfl
    exact ⟨_, h20, rfl, rfl⟩
  · -- the dead owner's byte is free again
    intro k _
    by_cases hk : k = creatorSlot
    · subst hk
      rfl
    · simp [goto, close, hold, upd, init, hk]

end Rendezvous

end TfTree
