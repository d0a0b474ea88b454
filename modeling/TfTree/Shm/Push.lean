import TfTree.Shm.Claim
import TfTree.Ring.Writer

/-!
# Pushes of one edge

The claim record, the lease byte and the ring of one edge with the threads of the processes
that claim, push, drop and reap it (`tf_tree_core/src/edge.rs`, `tf_tree/src/tree.rs`). The
threads of a process share its lock-file description: a byte that the process holds is
taken again, and an unlock by any thread frees it. A push is its epoch check followed by the
accesses of `SampleRing::push`, each a step of its own. A thread that claims or reaps while
it has a writer is two threads of the model.

Results:
* `Inv.step`: while the owner word is not cleared under a current claim, one thread has it.
* `pushes_exclusive`: along every such run no store reaches the ring inside another push; and
  a reap that clears the word of a writer, or inside a push, can be followed by one.
-/

namespace TfTree

open Conc ClaimSys

variable {F : Type}

/-! ## Model of `edge.rs` and `tree.rs`, with threads -/

/-- Where a thread is. -/
inductive ThreadPhase (F : Type) where
  /-- In `claim` or a drop, with a writer between two pushes, or idle. -/
  | claim (c : ClaimPhase)
  /-- In `reap_claims`, past its owner load. -/
  | reap (r : ReapPhase)
  /-- In `Publisher::push`, past its epoch check, with these accesses left. -/
  | pushing (epoch word : ℕ) (rest : RingProg F (Except PushError Unit))

/-- The claim record, the lease byte, the ring and the threads of the processes. -/
structure PushSys (F : Type) where
  owner : ℕ
  epoch : ℕ
  lease : Option Slot
  live : Slot → Bool
  thread : Slot → ℕ → ThreadPhase F
  ring : RingArena F

namespace PushSys

/-- A fresh record, before any process has joined. -/
def init (ring : RingArena F) : PushSys F where
  owner := 0
  epoch := 0
  lease := none
  live := fun _ => false
  thread := fun _ _ => .claim .idle
  ring := ring

/-- The steps of the system. -/
inductive Event (F : Type) where
  | join (p : Slot)
  | die (p : Slot)
  /-- An access of a claim, a drop or a reap. -/
  | access (p : Slot) (t : ℕ) (a : Access)
  /-- `Publisher::push` is called: the epoch check. -/
  | check (p : Slot) (t : ℕ) (stamp : ℤ) (iso : Iso3 F)
  /-- The next access of `SampleRing::push`. -/
  | ring (p : Slot) (t : ℕ)

section Accesses

variable (s : PushSys F) (p : Slot) (t : ℕ)

/-- `epoch.fetch_add(1)`. -/
def nextEpoch : ℕ := (s.epoch + 1) % 2 ^ 64

/-- Thread `t` of `p` goes to `c`. -/
def goto (c : ThreadPhase F) : PushSys F :=
  { s with thread := upd s.thread p (upd (s.thread p) t c) }

/-- `release`: a CAS of the owner word from `word` to `0`. -/
def releaseWord (word : ℕ) : PushSys F := { s with owner := if s.owner = word then 0 else s.owner }

/-- The lease byte is free, or held through `p`'s own description. -/
def LeaseFree : Prop := s.lease = none ∨ s.lease = some p

instance : Decidable (s.LeaseFree p) := inferInstanceAs (Decidable (_ ∨ _))

/-- `reap_claims` skips this record. -/
def Skips (only : Option Slot) : Prop :=
  s.owner = 0 ∨ slotOf s.owner = p ∨ only.any (slotOf s.owner != ·.val) = true

instance (only : Option Slot) : Decidable (s.Skips p only) :=
  inferInstanceAs (Decidable (_ ∨ _ ∨ _))

/-- An access of a claim, a drop or a reap by thread `t` of the live process `p`. -/
def access : Access → ThreadPhase F → Option (PushSys F)
  | .cas, .claim .idle =>
    if s.owner = 0 then some { s.goto p t (.claim .claiming) with owner := TfTree.claiming }
    else some s
  | .bump, .claim .claiming =>
    some { s.goto p t (.claim (.bumped s.nextEpoch)) with epoch := s.nextEpoch }
  | .store, .claim (.bumped epoch) =>
    some { s.goto p t (.claim (.stored epoch (packOwner epoch p))) with owner := packOwner epoch p }
  | .takeLease, .claim (.stored epoch word) =>
    if s.LeaseFree p then some { s.goto p t (.claim (.leased epoch word)) with lease := some p }
    else some (s.goto p t (.claim (.refused word)))
  | .leaseUnavailable, .claim (.stored _ word) => some (s.goto p t (.claim (.refused word)))
  | .recheck, .claim (.leased epoch word) =>
    if s.epoch ≠ epoch then some (s.goto p t (.claim (.revoked word)))
    else some (s.goto p t (.claim (.holding epoch word)))
  | .release, .claim (.refused word) => some ((s.releaseWord word).goto p t (.claim .idle))
  | .release, .claim (.revoked word) => some ((s.releaseWord word).goto p t (.claim .unlocking))
  | .release, .claim (.holding _ word) => some ((s.releaseWord word).goto p t (.claim .unlocking))
  | .unlock, .claim .unlocking =>
    some { s.goto p t (.claim .idle) with lease := if s.lease = some p then none else s.lease }
  | .reapLoad only, .claim .idle =>
    if s.Skips p only then some s else some (s.goto p t (.reap .loaded))
  | .reapProbe, .reap .loaded =>
    if s.LeaseFree p then some (s.goto p t (.reap .probed)) else some (s.goto p t (.claim .idle))
  | .reapUnreadable, .reap .loaded => some (s.goto p t (.claim .idle))
  | .reapBump, .reap .probed =>
    some { s.goto p t (.reap .bumped) with epoch := s.nextEpoch }
  | .reapStore, .reap .bumped => some { s.goto p t (.claim .idle) with owner := 0 }
  | _, _ => none

/-- A push returns after its last access. -/
def settle (epoch word : ℕ) : RingProg F (Except PushError Unit) → ThreadPhase F
  | .ret _ => .claim (.holding epoch word)
  | rest => .pushing epoch word rest

/-- The epoch check of `Publisher::push`. -/
def check (r : SampleRing F) (stamp : ℤ) (iso : Iso3 F) : ThreadPhase F → Option (PushSys F)
  | .claim (.holding epoch word) =>
    some (s.goto p t (settle epoch word (publisherPush r s.epoch epoch stamp iso)))
  | _ => none

/-- One access of `SampleRing::push`. -/
def pushAccess : ThreadPhase F → Option (PushSys F)
  | .pushing epoch word (.call o k) =>
    some { s.goto p t (settle epoch word (k (o.exec s.ring).1)) with ring := (o.exec s.ring).2 }
  | _ => none

end Accesses

/-- One step, on the edge of the ring `r`. -/
def step (r : SampleRing F) (s : PushSys F) : Event F → Option (PushSys F)
  | .join p =>
    if s.live p then none
    else some { s with
      live := upd s.live p true, thread := upd s.thread p fun _ => .claim .idle }
  | .die p =>
    if s.live p then
      some { s with
        live := upd s.live p false
        lease := if s.lease = some p then none else s.lease }
    else none
  | .access p t a => if s.live p then s.access p t a (s.thread p t) else none
  | .check p t stamp iso => if s.live p then s.check p t r stamp iso (s.thread p t) else none
  | .ring p t => if s.live p then s.pushAccess p t (s.thread p t) else none

/-! ## What a thread may still do to the ring -/

/-- The claim has bumped the epoch to this value and is past its owner store. -/
def epochOf : ThreadPhase F → Option ℕ
  | .claim (.stored n _) => some n
  | .claim (.leased n _) => some n
  | .claim (.holding n _) => some n
  | _ => none

/-- The thread stores the owner word, passes its checks or is inside a push, unless
    the epoch moves on. -/
def IsCurrent (epoch : ℕ) : ThreadPhase F → Prop
  | .claim .claiming => True
  | .claim (.bumped _) => True
  | .pushing _ _ _ => True
  | c => epochOf c = some epoch

/-- Thread `t` of `p` is live and current. -/
def Current (s : PushSys F) (p : Slot) (t : ℕ) : Prop :=
  s.live p = true ∧ IsCurrent s.epoch (s.thread p t)

/-- Thread `t` of `p` is live and inside a push: past the epoch check, before the last
    access. -/
def Pushing (s : PushSys F) (p : Slot) (t : ℕ) : Prop :=
  s.live p = true ∧ ∃ n w rest, s.thread p t = .pushing n w rest

/-- The same, and its next access is a store. -/
def Storing (s : PushSys F) (p : Slot) (t : ℕ) : Prop :=
  s.live p = true ∧ ∃ n w o k, s.thread p t = .pushing n w (.call o k) ∧ ¬ o.IsLoad

/-- The step clears the owner word while another thread is current, or brings the epoch
    back to that of a live thread's claim. -/
def Disrupts (s : PushSys F) : Event F → Prop
  | .access _ _ .reapStore => ∃ q u, s.Current q u
  | .access p t .release => ∃ q u, ¬ (q = p ∧ u = t) ∧ s.Current q u ∧
      ∃ n, s.thread p t = .claim (.refused s.owner) ∨ s.thread p t = .claim (.revoked s.owner) ∨
        s.thread p t = .claim (.holding n s.owner)
  | .access _ _ .bump => ∃ q u, s.live q = true ∧ epochOf (s.thread q u) = some s.nextEpoch
  | .access _ _ .reapBump => ∃ q u, s.live q = true ∧ epochOf (s.thread q u) = some s.nextEpoch
  | _ => False

section Goto

variable {s s' : PushSys F} {p q : Slot} {t u : ℕ} {c : ThreadPhase F} {r : SampleRing F}

theorem goto_thread (s : PushSys F) (p q : Slot) (t u : ℕ) (c : ThreadPhase F) :
    (s.goto p t c).thread q u = if q = p ∧ u = t then c else s.thread q u := by
  show upd s.thread p (upd (s.thread p) t c) q u = _
  by_cases hq : q = p
  · subst hq
    rw [upd_self, upd_apply]
    by_cases hu : u = t
    · rw [if_pos hu, if_pos ⟨rfl, hu⟩]
    · rw [if_neg hu, if_neg fun h => hu h.2]
  · rw [upd_of_ne _ _ hq, if_neg fun h => hq h.1]

@[simp] theorem goto_self (s : PushSys F) (p : Slot) (t : ℕ) (c : ThreadPhase F) :
    (s.goto p t c).thread p t = c := by
  rw [goto_thread, if_pos ⟨rfl, rfl⟩]

theorem goto_other (h : ¬ (q = p ∧ u = t)) (c : ThreadPhase F) :
    (s.goto p t c).thread q u = s.thread q u := by
  rw [goto_thread, if_neg h]

theorem packOwner_ne_zero (n : ℕ) (p : Slot) : packOwner n p ≠ 0 :=
  Names.ne_zero (packOwner_mod n p)

end Goto

/-! ## One current thread -/

/-- At most one live thread is current, and then the owner word is not free. -/
structure Inv (s : PushSys F) : Prop where
  one : ∀ p t q u, s.Current p t → s.Current q u → p = q ∧ t = u
  owned : ∀ p t, s.Current p t → s.owner ≠ 0

theorem inv_init (m : RingArena F) : Inv (init m) where
  one := by
    rintro p t q u ⟨h, -⟩
    cases h
  owned := by
    rintro p t ⟨h, -⟩
    cases h

section Step

variable {s s' : PushSys F} {p q : Slot} {t u : ℕ} {c : ThreadPhase F} {r : SampleRing F}
  {owner epoch : ℕ} {lease : Option Slot} {ring : RingArena F}

/-- **Step lemma.** A thread moves: it becomes current only if it was or the owner word was
    free, no other thread becomes current, and the owner word is cleared only if nobody is. -/
theorem Inv.goto (hi : Inv s) (hlive : s.live p = true)
    (hepoch : epoch = s.epoch ∨ ∀ q u, s.live q = true → epochOf (s.thread q u) ≠ some epoch)
    (hc : IsCurrent epoch c → s.Current p t ∨ s.owner = 0)
    (howner : owner = 0 → ¬ IsCurrent epoch c ∧ ∀ q u, ¬ (q = p ∧ u = t) → ¬ s.Current q u) :
    Inv { s.goto p t c with owner := owner, epoch := epoch, lease := lease, ring := ring } := by
  have hother : ∀ q u, ¬ (q = p ∧ u = t) →
      ({ s.goto p t c with owner := owner, epoch := epoch, lease := lease, ring := ring }
        : PushSys F).Current q u → s.Current q u := by
    rintro q u hne ⟨hl, hcur⟩
    have hcur' : IsCurrent epoch ((s.goto p t c).thread q u) := hcur
    rw [goto_other hne] at hcur'
    refine ⟨hl, ?_⟩
    rcases hepoch with rfl | hwrap
    · exact hcur'
    · have hno := hwrap q u hl
      generalize s.thread q u = c' at hcur' hno ⊢
      unfold IsCurrent at hcur' ⊢
      split at hcur'
      · trivial
      · trivial
      · trivial
      · exact absurd hcur' hno
  have hself : ({ s.goto p t c with owner := owner, epoch := epoch, lease := lease, ring := ring }
        : PushSys F).Current p t → s.Current p t ∨ s.owner = 0 := by
    rintro ⟨-, hcur⟩
    have hcur' : IsCurrent epoch ((s.goto p t c).thread p t) := hcur
    rw [goto_self] at hcur'
    exact hc hcur'
  have hfree : s.owner = 0 → ∀ q u, ¬ s.Current q u := fun h0 q u hq => hi.owned q u hq h0
  constructor
  · intro q u q' u' h h'
    by_cases hq : q = p ∧ u = t
    · by_cases hq' : q' = p ∧ u' = t
      · exact ⟨hq.1.trans hq'.1.symm, hq.2.trans hq'.2.symm⟩
      · obtain ⟨rfl, rfl⟩ := hq
        have hcur' := hother q' u' hq' h'
        rcases hself h with hcur | h0
        · exact hi.one _ _ _ _ hcur hcur'
        · exact absurd hcur' (hfree h0 q' u')
    · have hcur := hother q u hq h
      by_cases hq' : q' = p ∧ u' = t
      · obtain ⟨rfl, rfl⟩ := hq'
        rcases hself h' with hcur' | h0
        · exact hi.one _ _ _ _ hcur hcur'
        · exact absurd hcur (hfree h0 q u)
      · exact hi.one _ _ _ _ hcur (hother q' u' hq' h')
  · intro q u h h0
    obtain ⟨hnot, hnone⟩ := howner h0
    by_cases hq : q = p ∧ u = t
    · obtain ⟨rfl, rfl⟩ := hq
      apply hnot
      have hcur : IsCurrent epoch ((s.goto q u c).thread q u) := h.2
      rw [goto_self] at hcur
      exact hcur
    · exact hnone q u hq (hother q u hq h)

/-- A move that leaves the record alone. -/
theorem Inv.quiet (hi : Inv s) (hlive : s.live p = true)
    (hc : IsCurrent s.epoch c → s.Current p t) :
    Inv { s.goto p t c with lease := lease, ring := ring } := by
  refine hi.goto hlive (.inl rfl) (fun h => .inl (hc h)) fun h0 => ⟨fun h => ?_, fun q u _ h => ?_⟩
  · exact hi.owned p t (hc h) h0
  · exact hi.owned q u h h0

/-- Nobody is current under a free owner word. -/
theorem Inv.free (hi : Inv s) (h0 : s.owner = 0) (q : Slot) (u : ℕ) : ¬ s.Current q u :=
  fun h => hi.owned q u h h0

/-- **Step lemma.** A release gives up the thread's own word. -/
theorem Inv.release {w : ℕ} (hi : Inv s) (hlive : s.live p = true)
    (hc : ∀ epoch, ¬ IsCurrent epoch c)
    (hok : s.owner = w → ∀ q u, ¬ (q = p ∧ u = t) → ¬ s.Current q u) :
    Inv ((s.releaseWord w).goto p t c) := by
  have howner : (if s.owner = w then 0 else s.owner) = 0 →
      ¬ IsCurrent s.epoch c ∧ ∀ q u, ¬ (q = p ∧ u = t) → ¬ s.Current q u := by
    intro h0
    refine ⟨hc _, ?_⟩
    split_ifs at h0 with hw
    · exact hok hw
    · exact fun q u _ => hi.free h0 q u
  exact hi.goto hlive (.inl rfl) (fun h => absurd h (hc _)) howner

/-- **Step lemma.** The accesses of claims, drops and reaps. -/
theorem Inv.access {a : Access} (hi : Inv s) (hlive : s.live p = true)
    (hok : ¬ Disrupts s (.access p t a)) (h : s.access p t a (s.thread p t) = some s') :
    Inv s' := by
  have hcur : IsCurrent s.epoch (s.thread p t) → s.Current p t := fun h => ⟨hlive, h⟩
  generalize hph : s.thread p t = ph at h hcur
  unfold PushSys.access at h
  split at h
  · -- cas
    split_ifs at h with h0
    · cases h
      exact hi.goto hlive (.inl rfl) (fun _ => .inr h0) fun h => absurd h (by decide)
    · cases h
      exact hi
  · -- bump
    cases h
    refine hi.goto hlive (.inr fun q u hl he => hok ⟨q, u, hl, he⟩) (fun _ => .inl ?_) fun h0 => ?_
    · exact hcur trivial
    · exact absurd h0 (hi.owned p t (hcur trivial))
  · -- store
    cases h
    refine hi.goto hlive (.inl rfl) (fun _ => .inl (hcur trivial)) fun h0 => ?_
    exact absurd h0 (packOwner_ne_zero _ p)
  · -- takeLease
    split_ifs at h
    · cases h
      exact hi.quiet hlive hcur
    · cases h
      exact hi.quiet hlive nofun
  · -- leaseUnavailable
    cases h
    exact hi.quiet hlive nofun
  · -- recheck
    split_ifs at h
    · cases h
      exact hi.quiet hlive nofun
    · cases h
      exact hi.quiet hlive hcur
  · -- release of a refused claim
    cases h
    refine hi.release hlive (fun _ => nofun) fun hw q u hne hq => hok ⟨q, u, hne, hq, 0, .inl ?_⟩
    rw [hph, hw]
  · -- release of a revoked claim
    cases h
    refine hi.release hlive (fun _ => nofun) fun hw q u hne hq =>
      hok ⟨q, u, hne, hq, 0, .inr (.inl ?_)⟩
    rw [hph, hw]
  · -- release of a writer
    rename_i n w
    cases h
    refine hi.release hlive (fun _ => nofun) fun hw q u hne hq =>
      hok ⟨q, u, hne, hq, n, .inr (.inr ?_)⟩
    rw [hph, hw]
  · -- unlock
    cases h
    exact hi.quiet hlive nofun
  · -- reapLoad
    split_ifs at h
    · cases h
      exact hi
    · cases h
      exact hi.quiet hlive nofun
  · -- reapProbe
    split_ifs at h
    · cases h
      exact hi.quiet hlive nofun
    · cases h
      exact hi.quiet hlive nofun
  · -- reapUnreadable
    cases h
    exact hi.quiet hlive nofun
  · -- reapBump
    cases h
    refine hi.goto hlive (.inr fun q u hl he => hok ⟨q, u, hl, he⟩) nofun fun h0 => ⟨nofun, ?_⟩
    exact fun q u _ => hi.free h0 q u
  · -- reapStore
    cases h
    exact hi.goto hlive (.inl rfl) nofun fun _ => ⟨nofun, fun q u _ hq => hok ⟨q, u, hq⟩⟩
  · cases h

/-- **Step lemma.** A push starts only in a current claim, and ends in one. -/
theorem Inv.push {n w : ℕ} {rest : RingProg F (Except PushError Unit)} (hi : Inv s)
    (hlive : s.live p = true) (h : s.Current p t) :
    Inv { s.goto p t (settle n w rest) with ring := ring } :=
  hi.quiet hlive fun _ => h

/-- **Step lemma.** Every step that does not disrupt a current claim keeps the invariant. -/
theorem Inv.step {e : Event F} (hi : Inv s) (hok : ¬ Disrupts s e) (hs : s.step r e = some s') :
    Inv s' := by
  cases e with
  | join p =>
    simp only [PushSys.step] at hs
    split_ifs at hs with hdead
    cases hs
    have hcur : ∀ q u, ({ s with
        live := upd s.live p true, thread := upd s.thread p fun _ => .claim .idle }
          : PushSys F).Current q u → s.Current q u := by
      rintro q u ⟨hl, hcur⟩
      have hl' : upd s.live p true q = true := hl
      have hcur' : IsCurrent s.epoch (upd s.thread p (fun _ => .claim .idle) q u) := hcur
      have hq : q ≠ p := by
        rintro rfl
        rw [upd_self] at hcur'
        cases hcur'
      rw [upd_of_ne _ _ hq] at hl' hcur'
      exact ⟨hl', hcur'⟩
    exact ⟨fun q u q' u' h h' => hi.one _ _ _ _ (hcur q u h) (hcur q' u' h'),
      fun q u h => hi.owned q u (hcur q u h)⟩
  | die p =>
    simp only [PushSys.step] at hs
    by_cases hlive : s.live p = true
    swap
    · rw [if_neg hlive] at hs
      cases hs
    rw [if_pos hlive] at hs
    cases hs
    have hcur : ∀ q u, ({ s with
        live := upd s.live p false, lease := if s.lease = some p then none else s.lease }
          : PushSys F).Current q u → s.Current q u := by
      rintro q u ⟨hl, hcur⟩
      have hl' : upd s.live p false q = true := hl
      rw [upd_apply] at hl'
      split_ifs at hl'
      exact ⟨hl', hcur⟩
    exact ⟨fun q u q' u' h h' => hi.one _ _ _ _ (hcur q u h) (hcur q' u' h'),
      fun q u h => hi.owned q u (hcur q u h)⟩
  | access p t a =>
    simp only [PushSys.step] at hs
    split_ifs at hs with hlive
    exact hi.access hlive hok hs
  | check p t stamp iso =>
    simp only [PushSys.step] at hs
    split_ifs at hs with hlive
    generalize hph : s.thread p t = ph at hs
    unfold PushSys.check at hs
    split at hs
    · rename_i n w
      cases hs
      by_cases hn : s.epoch = n
      · have hcur : s.Current p t := ⟨hlive, by rw [hph, hn]; rfl⟩
        exact hi.push hlive hcur
      · -- the push fails, and the thread is where it was
        rw [publisherPush, if_pos hn]
        exact hi.quiet hlive fun hcur => ⟨hlive, by rw [hph]; exact hcur⟩
    · cases hs
  | ring p t =>
    simp only [PushSys.step] at hs
    split_ifs at hs with hlive
    generalize hph : s.thread p t = ph at hs
    unfold pushAccess at hs
    split at hs
    · cases hs
      refine hi.push hlive ⟨hlive, ?_⟩
      rw [hph]
      trivial
    · cases hs

end Step

/-! ## Two pushes at once -/

section Overlap

variable {s s' : PushSys F} {p q : Slot} {t u n w : ℕ} {r : SampleRing F}

/-- A live process holds the lease, and a process has threads to spare. -/
structure Wf (s : PushSys F) : Prop where
  lease : ∀ q, s.lease = some q → s.live q = true
  idle : ∀ q, ∃ bound, ∀ u, bound ≤ u → s.thread q u = .claim .idle

theorem wf_init (m : RingArena F) : Wf (init m) where
  lease := nofun
  idle := fun _ => ⟨0, fun _ _ => rfl⟩

/-- A thread of a live process moves, and takes or frees the process's byte. -/
theorem Wf.moves (hw : Wf s) (hlive : s.live p = true) (hl : s'.live = s.live)
    (hthread : ∀ q u, ¬ (q = p ∧ u = t) → s'.thread q u = s.thread q u)
    (hlease : s'.lease = s.lease ∨ s'.lease = some p ∨ s'.lease = none) : Wf s' where
  lease := by
    intro q hq
    rw [hl]
    rcases hlease with h | h | h
    · exact hw.lease q (h ▸ hq)
    · rw [h] at hq
      cases hq
      exact hlive
    · rw [h] at hq
      cases hq
  idle := by
    intro q
    obtain ⟨bound, hbound⟩ := hw.idle q
    refine ⟨max bound (t + 1), fun u hu => ?_⟩
    rw [hthread q u fun h => by omega]
    exact hbound u (by omega)

theorem access_moves {a : Access} {ph : ThreadPhase F} (h : s.access p t a ph = some s') :
    s'.live = s.live ∧ (∀ q u, ¬ (q = p ∧ u = t) → s'.thread q u = s.thread q u) ∧
      (s'.lease = s.lease ∨ s'.lease = some p ∨ s'.lease = none) := by
  have hgoto : ∀ c q u, ¬ (q = p ∧ u = t) → (s.goto p t c).thread q u = s.thread q u :=
    fun c q u hne => goto_other hne c
  have hunlock : (if s.lease = some p then none else s.lease) = s.lease ∨
      (if s.lease = some p then none else s.lease) = some p ∨
      (if s.lease = some p then none else s.lease) = none := by
    by_cases hl : s.lease = some p
    · exact .inr (.inr (if_pos hl))
    · exact .inl (if_neg hl)
  unfold PushSys.access at h
  split at h
  case h_1 | h_4 | h_6 | h_11 | h_12 =>
    split at h
    · cases h
      first | exact ⟨rfl, hgoto _, .inl rfl⟩ | exact ⟨rfl, hgoto _, .inr (.inl rfl)⟩ |
        exact ⟨rfl, fun _ _ _ => rfl, .inl rfl⟩
    · cases h
      first | exact ⟨rfl, hgoto _, .inl rfl⟩ | exact ⟨rfl, fun _ _ _ => rfl, .inl rfl⟩
  case h_10 =>
    cases h
    exact ⟨rfl, hgoto _, hunlock⟩
  all_goals
    cases h
    first | done | exact ⟨rfl, hgoto _, .inl rfl⟩

theorem Wf.step {e : Event F} (hw : Wf s) (hs : s.step r e = some s') : Wf s' := by
  cases e with
  | join p =>
    simp only [PushSys.step] at hs
    split_ifs at hs
    cases hs
    refine ⟨fun q hq => ?_, fun q => ?_⟩
    · show upd s.live p true q = true
      rw [upd_apply]
      split_ifs
      · rfl
      · exact hw.lease q hq
    · by_cases hq : q = p
      · subst hq
        exact ⟨0, fun u _ => congrFun (upd_self _ _ _) u⟩
      · obtain ⟨bound, hbound⟩ := hw.idle q
        exact ⟨bound, fun u hu => (congrFun (upd_of_ne _ _ hq) u).trans (hbound u hu)⟩
  | die p =>
    simp only [PushSys.step] at hs
    by_cases hlive : s.live p = true
    swap
    · rw [if_neg hlive] at hs
      cases hs
    rw [if_pos hlive] at hs
    cases hs
    refine ⟨fun q hq => ?_, hw.idle⟩
    have hq' : (if s.lease = some p then none else s.lease) = some q := hq
    split_ifs at hq' with hl
    have hqp : q ≠ p := by
      rintro rfl
      exact hl hq'
    show upd s.live p false q = true
    rw [upd_of_ne _ _ hqp]
    exact hw.lease q hq'
  | access p t a =>
    simp only [PushSys.step] at hs
    split_ifs at hs with hlive
    obtain ⟨h1, h2, h3⟩ := access_moves hs
    exact hw.moves hlive h1 h2 h3
  | check p t stamp iso =>
    simp only [PushSys.step] at hs
    split_ifs at hs with hlive
    unfold PushSys.check at hs
    split at hs
    · cases hs
      exact hw.moves hlive rfl (fun q u hne => goto_other hne _) (.inl rfl)
    · cases hs
  | ring p t =>
    simp only [PushSys.step] at hs
    split_ifs at hs with hlive
    unfold pushAccess at hs
    split at hs
    · cases hs
      exact hw.moves hlive rfl (fun q u hne => goto_other hne _) (.inl rfl)
    · cases hs

@[simp] theorem goto_goto (s : PushSys F) (p : Slot) (t : ℕ) (c c' : ThreadPhase F) :
    (s.goto p t c).goto p t c' = s.goto p t c' := by
  unfold goto
  congr 1
  funext q
  simp only [upd_apply]
  split_ifs
  · funext u
    simp only [upd_apply]
    split_ifs <;> rfl
  · rfl

/-- A load of a push. -/
theorem reach_load {o : RingOp F} {k : o.Res → RingProg F (Except PushError Unit)}
    (hlive : s.live p = true) (ho : o.IsLoad) :
    Reachable (step r) (s.goto p t (.pushing n w (.call o k)))
      (s.goto p t (settle n w (k (o.exec s.ring).1))) := by
  refine Runs.refl.step (e := .ring p t) trivial ?_
  have hstep : (s.goto p t (.pushing n w (.call o k))).step r (.ring p t) =
      (s.goto p t (.pushing n w (.call o k))).pushAccess p t
        ((s.goto p t (.pushing n w (.call o k))).thread p t) := if_pos hlive
  rw [hstep, goto_self]
  show some { (s.goto p t (.pushing n w (.call o k))).goto p t (settle n w (k (o.exec s.ring).1))
    with ring := (o.exec s.ring).2 } = _
  rw [goto_goto, RingOp.exec_of_isLoad ho]
  rfl

/-- Past its loads of `head` and of the newest stamp, a push gets to its first store. -/
theorem reach_storeSeq {h : ℕ} {stamp : ℤ} {iso : Iso3 F}
    {f : Unit → RingProg F (Except PushError Unit)} (hlive : s.live p = true) :
    ∃ c, Reachable (step r) (s.goto p t (settle n w (r.pushSlot h stamp iso >>= f)))
      (s.goto p t c) ∧ (s.goto p t c).Storing p t :=
  ⟨_, reach_load hlive trivial, hlive, n, w, _, _, goto_self s p t _, id⟩

/-- A writer whose epoch is current gets to the first store of a push. -/
theorem reach_storing (r : SampleRing F) (hlive : s.live p = true)
    (hph : s.thread p t = .claim (.holding s.epoch w)) :
    ∃ c, Reachable (step r) s (s.goto p t c) ∧ (s.goto p t c).Storing p t := by
  let stamp := r.stampOf s.ring ((s.ring r.edge).head - 1)
  let iso := Iso3.fromBits ((s.ring r.edge).data 0)
  have hcheck : s.step r (.check p t stamp iso) =
      some (s.goto p t (settle s.epoch w (r.push stamp iso))) := by
    have hstep : s.step r (.check p t stamp iso) = s.check p t r stamp iso (s.thread p t) :=
      if_pos hlive
    rw [hstep, hph]
    show some (s.goto p t (settle s.epoch w (publisherPush r s.epoch s.epoch stamp iso))) = _
    rw [publisherPush, if_neg (not_not.mpr rfl)]
  have h0 : Reachable (step r) s (s.goto p t (settle s.epoch w (r.push stamp iso))) :=
    Runs.refl.step trivial hcheck
  have h1 : Reachable (step r) s (s.goto p t (settle s.epoch w
      (if (s.ring r.edge).head > 0 then
        r.stampAt ((s.ring r.edge).head - 1) >>= fun last =>
          if stamp < last then return .error (.nonMonotonicStamp r.edge last stamp)
          else r.pushSlot (s.ring r.edge).head stamp iso >>= fun _ => return .ok ()
      else r.pushSlot (s.ring r.edge).head stamp iso >>= fun _ => return .ok ()))) :=
    h0.trans (reach_load hlive trivial)
  by_cases hhead : (s.ring r.edge).head > 0
  · rw [if_pos hhead] at h1
    have h2 : Reachable (step r) s (s.goto p t (settle s.epoch w
        (if stamp < stamp then return .error (.nonMonotonicStamp r.edge stamp stamp)
        else r.pushSlot (s.ring r.edge).head stamp iso >>= fun _ => return .ok ()))) :=
      h1.trans (reach_load hlive trivial)
    rw [if_neg (lt_irrefl stamp)] at h2
    obtain ⟨c, hc, hstoring⟩ := reach_storeSeq (n := s.epoch) (w := w) hlive
    exact ⟨c, h2.trans hc, hstoring⟩
  · rw [if_neg hhead] at h1
    obtain ⟨c, hc, hstoring⟩ := reach_storeSeq (n := s.epoch) (w := w) hlive
    exact ⟨c, h1.trans hc, hstoring⟩

/-- An idle thread of the process that may take the byte claims a free edge. -/
theorem reach_holding (hlive : s.live q = true) (hidle : s.thread q u = .claim .idle)
    (h0 : s.owner = 0) (hfree : s.LeaseFree q) :
    ∃ s', Reachable (step r) s s' ∧ s'.live = s.live ∧
      s'.thread q u = .claim (.holding s'.epoch (packOwner s'.epoch q)) ∧
      ∀ p t, ¬ (p = q ∧ t = u) → s'.thread p t = s.thread p t := by
  have hdo : ∀ (s : PushSys F) a, s.live q = true →
      s.step r (.access q u a) = s.access q u a (s.thread q u) := fun s a hl => if_pos hl
  let s1 : PushSys F := { s.goto q u (.claim .claiming) with owner := claiming }
  have h1 : s.step r (.access q u .cas) = some s1 := by
    rw [hdo s _ hlive, hidle]
    exact if_pos h0
  let e := s.nextEpoch
  let s2 : PushSys F := { s1.goto q u (.claim (.bumped e)) with epoch := e }
  have h2 : s1.step r (.access q u .bump) = some s2 := by
    rw [hdo s1 _ hlive, show s1.thread q u = .claim .claiming from goto_self s q u _]
    rfl
  let s3 : PushSys F :=
    { s2.goto q u (.claim (.stored e (packOwner e q))) with owner := packOwner e q }
  have h3 : s2.step r (.access q u .store) = some s3 := by
    rw [hdo s2 _ hlive, show s2.thread q u = .claim (.bumped e) from goto_self s1 q u _]
    rfl
  let s4 : PushSys F := { s3.goto q u (.claim (.leased e (packOwner e q))) with lease := some q }
  have h4 : s3.step r (.access q u .takeLease) = some s4 := by
    rw [hdo s3 _ hlive,
      show s3.thread q u = .claim (.stored e (packOwner e q)) from goto_self s2 q u _]
    exact if_pos hfree
  let s5 : PushSys F := s4.goto q u (.claim (.holding e (packOwner e q)))
  have h5 : s4.step r (.access q u .recheck) = some s5 := by
    rw [hdo s4 _ hlive,
      show s4.thread q u = .claim (.leased e (packOwner e q)) from goto_self s3 q u _]
    exact if_neg (not_not.mpr rfl)
  have hr1 : Reachable (step r) s s1 := Runs.refl.step trivial h1
  have hr3 : Reachable (step r) s s3 := (hr1.step trivial h2).step trivial h3
  have hr5 : Reachable (step r) s s5 := (hr3.step trivial h4).step trivial h5
  refine ⟨s5, hr5, rfl, goto_self s4 q u _, fun p t hne => ?_⟩
  calc s5.thread p t = s4.thread p t := goto_other hne _
    _ = s3.thread p t := goto_other hne _
    _ = s2.thread p t := goto_other hne _
    _ = s1.thread p t := goto_other hne _
    _ = s.thread p t := goto_other hne _

/-- The owner store of a reap. -/
theorem reapStore_eq {i : Slot} {j : ℕ} (hs : s.step r (.access i j .reapStore) = some s') :
    s.thread i j = .reap .bumped ∧ s' = { s.goto i j (.claim .idle) with owner := 0 } := by
  simp only [step] at hs
  split_ifs at hs
  cases hij : s.thread i j with
  | reap c =>
    rw [hij] at hs
    cases c with
    | bumped =>
      cases hs
      exact ⟨rfl, rfl⟩
    | _ => cases hs
  | _ =>
    rw [hij] at hs
    cases hs

/-- A reap that clears the word of a writer whose epoch is current, or inside a push before
    a store, can be followed by a store inside another push. -/
theorem reap_overlaps (hw : Wf s) {i : Slot} {j : ℕ}
    (hp : (∃ w, s.live p = true ∧ s.thread p t = .claim (.holding s.epoch w)) ∨ s.Storing p t)
    (hs : s.step r (.access i j .reapStore) = some s') :
    ∃ s'' q u, Reachable (step r) s' s'' ∧ ¬ (p = q ∧ t = u) ∧ s''.Storing p t ∧
      s''.Storing q u := by
  have hw' : Wf s' := hw.step hs
  have hlive : s.live p = true := hp.elim (fun ⟨_, h, _⟩ => h) And.left
  obtain ⟨hij, rfl⟩ := reapStore_eq hs
  have hne : ¬ (p = i ∧ t = j) := by
    rintro ⟨rfl, rfl⟩
    rcases hp with ⟨w, -, hph⟩ | ⟨-, n, w, o, k, hph, -⟩
    · rw [hij] at hph
      cases hph
    · rw [hij] at hph
      cases hph
  set s1 : PushSys F := { s.goto i j (.claim .idle) with owner := 0 } with hs1
  have hphase : s1.thread p t = s.thread p t := goto_other hne _
  -- the writer goes on to a store of its push
  obtain ⟨c, hc, hstoring⟩ : ∃ c, Reachable (step r) s1 (s1.goto p t c) ∧
      (s1.goto p t c).Storing p t := by
    rcases hp with ⟨w, -, hph⟩ | ⟨-, n, w, o, k, hph, ho⟩
    · exact reach_storing r hlive (hphase.trans hph)
    · have hself : s1.goto p t (s1.thread p t) = s1 := by
        unfold PushSys.goto
        congr 1
        funext q
        rw [upd_apply]
        split_ifs with hq
        · subst hq
          funext u
          rw [upd_apply]
          split_ifs with hu
          · rw [hu]
          · rfl
        · rfl
      refine ⟨s1.thread p t, ?_, hlive, n, w, o, k, ?_, ho⟩
      · rw [hself]
        exact .refl
      · rw [goto_self]
        exact hphase.trans hph
  -- an idle thread that may take the byte claims the edge, and pushes, too
  have hfree : ∃ q, s1.live q = true ∧ s1.LeaseFree q := by
    cases hl : s1.lease with
    | none => exact ⟨p, hlive, .inl hl⟩
    | some q => exact ⟨q, hw'.lease q hl, .inr hl⟩
  obtain ⟨q, hlq, hfree⟩ := hfree
  obtain ⟨bound, hbound⟩ := hw'.idle q
  let u := max bound (t + 1)
  have hother : ¬ (q = p ∧ u = t) := fun h => by omega
  have hother' : ¬ (p = q ∧ t = u) := fun h => by omega
  have hidle : (s1.goto p t c).thread q u = .claim .idle :=
    (goto_other hother _).trans (hbound u (by omega))
  obtain ⟨s2, hr2, hl2, hph2, hf2⟩ :=
    reach_holding (r := r) (s := s1.goto p t c) hlq hidle rfl hfree
  have hlq2 : s2.live q = true := by
    rw [hl2]
    exact hlq
  obtain ⟨c', hc', hstoring'⟩ := reach_storing r hlq2 hph2
  refine ⟨s2.goto q u c', q, u, (hc.trans hr2).trans hc', hother', ?_, hstoring'⟩
  obtain ⟨-, n, w, o, k, hph, ho⟩ := hstoring
  refine ⟨?_, n, w, o, k, ?_, ho⟩
  · show s2.live p = true
    rw [hl2]
    exact hlive
  · rw [goto_other hother', hf2 p t hother']
    exact hph

/-- **Main theorem.** Along every run without a disrupting step, an access to the ring by a
    push finds no other push in progress. In every run, a reap that clears the word of a
    writer whose epoch is current, or before a store of its push, can be followed by a store
    inside another push. -/
theorem pushes_exclusive (r : SampleRing F) (m : RingArena F) (s : PushSys F) :
    (Runs (step r) (fun s e => ¬ Disrupts s e) (init m) s →
      ∀ p t q u s', s.Pushing p t → s.step r (.ring q u) = some s' → p = q ∧ t = u) ∧
    (Reachable (step r) (init m) s → ∀ p t i j s',
      (∃ w, s.live p = true ∧ s.thread p t = .claim (.holding s.epoch w)) ∨ s.Storing p t →
      s.step r (.access i j .reapStore) = some s' →
        ∃ s'' q u, Reachable (step r) s' s'' ∧ ¬ (p = q ∧ t = u) ∧ s''.Storing p t ∧
          s''.Storing q u) := by
  constructor
  · rintro hr p t q u s' ⟨hlive, n, w, rest, hph⟩ hs
    have hi : Inv s := hr.invariant (fun _ _ _ hi hok hs => hi.step hok hs) (inv_init m)
    have hp : s.Current p t := ⟨hlive, by rw [hph]; trivial⟩
    simp only [step] at hs
    split_ifs at hs with hlq
    have hq : s.Current q u := by
      refine ⟨hlq, ?_⟩
      generalize s.thread q u = c at hs
      unfold pushAccess at hs
      split at hs
      · trivial
      · cases hs
    exact hi.one p t q u hp hq
  · intro hr p t i j s' hp hs
    have hw : Wf s := hr.invariant (fun _ _ _ hw _ hs => hw.step hs) (wf_init m)
    exact reap_overlaps hw hp hs

/-- Before any claim, no bump brings an epoch back. -/
theorem not_disrupts_bump (h : ∀ q u, epochOf (s.thread q u) = none) :
    ¬ Disrupts s (.access p t .bump) := by
  rintro ⟨q, u, -, he⟩
  rw [h q u] at he
  cases he

/-- One thread claims the edge and is inside a push. Another process has come to reap the claim
    and to claim the edge itself: its probe finds the lease, and its claim is refused. -/
theorem pushes_exclusive_contended : ∃ s : PushSys ℚ,
    Runs (step ⟨0, 4⟩) (fun s e => ¬ Disrupts s e) (init emptyArena) s ∧ s.live 1 = true ∧
    s.Pushing 0 0 ∧ ∀ q u s', s.step ⟨0, 4⟩ (.ring q u) = some s' → 0 = q ∧ 0 = u := by
  have h1 : Runs (step (⟨0, 4⟩ : SampleRing ℚ)) (fun s e => ¬ Disrupts s e) (init emptyArena) _ :=
    .step (e := .join 0) .refl id rfl
  have h2 := h1.step (e := .access 0 0 .cas) id rfl
  have h3 := h2.step (e := .access 0 0 .bump) (not_disrupts_bump fun q u => ?_) rfl
  · have h4 := h3.step (e := .access 0 0 .store) id rfl
    have h5 := h4.step (e := .access 0 0 .takeLease) id rfl
    have h6 := h5.step (e := .access 0 0 .recheck) id rfl
    have h7 := h6.step (e := .join 1) id rfl
    have h8 := h7.step (e := .access 1 0 (.reapLoad none)) id rfl
    have h9 := h8.step (e := .check 0 0 10 ⟨⟨1, 0, 0, 0⟩, ⟨1, 0, 0⟩⟩) id rfl
    have h10 := h9.step (e := .access 1 0 .reapProbe) id rfl
    have h11 := h10.step (e := .ring 0 0) id rfl
    have h12 := h11.step (e := .access 1 1 .cas) id rfl
    obtain ⟨s, hr, hlive, hpush⟩ : ∃ s : PushSys ℚ,
        Runs (step ⟨0, 4⟩) (fun s e => ¬ Disrupts s e) (init emptyArena) s ∧ s.live 1 = true ∧
          s.Pushing 0 0 :=
      ⟨_, h12, rfl, rfl, 1, packOwner 1 0, _, rfl⟩
    exact ⟨s, hr, hlive, hpush, fun q u s' hs => (pushes_exclusive _ _ _).1 hr 0 0 q u s' hpush hs⟩
  · -- nobody has an epoch before the first claim has one
    show epochOf ((_ : PushSys ℚ).goto 0 0 (.claim .claiming) |>.thread q u) = none
    rw [goto_thread]
    split_ifs
    · rfl
    · show epochOf (upd (fun _ _ => .claim .idle) 0 (fun _ => .claim .idle) q u) = none
      rw [upd_apply]
      split_ifs <;> rfl

end Overlap

/-! ## A writer handed over between threads -/

/-- Thread `0` of process `0` claims the edge and drops its writer; between the release of
    the word and the unlock, thread `1` claims the edge. The unlock frees its byte. While it
    is inside a push, process `1` reaps the edge, claims it and pushes. -/
def handOverRun : List (Event ℚ) :=
  [.join 0, .join 1,
    .access 0 0 .cas, .access 0 0 .bump, .access 0 0 .store, .access 0 0 .takeLease,
    .access 0 0 .recheck, .access 0 0 .release,
    .access 0 1 .cas, .access 0 1 .bump, .access 0 1 .store, .access 0 1 .takeLease,
    .access 0 1 .recheck,
    .access 0 0 .unlock,
    .check 0 1 10 ⟨⟨1, 0, 0, 0⟩, ⟨1, 0, 0⟩⟩, .ring 0 1, .ring 0 1, .ring 0 1,
    .access 1 0 (.reapLoad none), .access 1 0 .reapProbe, .access 1 0 .reapBump,
    .access 1 0 .reapStore,
    .access 1 1 .cas, .access 1 1 .bump, .access 1 1 .store, .access 1 1 .takeLease,
    .access 1 1 .recheck, .check 1 1 20 ⟨⟨1, 0, 0, 0⟩, ⟨2, 0, 0⟩⟩, .ring 1 1, .ring 1 1]

/-- Thread `1` of process `1` stores into the ring inside the push of thread `1` of process
    `0`, which stores, too. -/
theorem pushes_overlap : ∃ s : PushSys ℚ, Reachable (step ⟨0, 4⟩) (init emptyArena) s ∧
    s.Storing 0 1 ∧ s.Storing 1 1 ∧ (s.step ⟨0, 4⟩ (.ring 1 1)).isSome = true := by
  have hexec : execAll (step ⟨0, 4⟩) (init emptyArena) handOverRun = some _ := rfl
  refine ⟨_, reachable_of_execAll hexec, ?_, ?_, rfl⟩
  · exact ⟨rfl, 2, packOwner 2 0, _, _, rfl, id⟩
  · exact ⟨rfl, 4, packOwner 4 1, _, _, rfl, id⟩

end PushSys

end TfTree
