import TfTree.Conc.System
import TfTree.Ring.Mem
import Mathlib.Algebra.Field.Rat

/-!
# Claiming and reaping an edge

The claim record of one edge (`tf_tree_core/src/edge.rs`), its lease byte, and the
processes that claim and reap it (`tf_tree/src/tree.rs`), each access a step of its
own. A process is a participant slot; a process that joins after a death reuses it.
The records and the bytes of different edges are independent.

Results:
* `Wf.step`: the lease and the owner words follow the processes that hold them.
* `Secure.step`: nothing disturbs a writer whose re-check passed with nothing in
  flight.
* `reap_spares_live_claims`: along every run in which no re-check passes over an
  unfinished reap or claim, no live writer is revoked; and each re-check that does
  pass over one can be followed by a revocation.
-/

namespace TfTree

open Conc

/-! ## Model of `edge.rs` -/

/-- `CLAIMING`: the owner word of a claim in flight. -/
def claiming : ℕ := 2 ^ 64 - 1

/-- The participant slots an owner word can name: `slot + 1` fits its low 16 bits and
    is not the low half of `CLAIMING`. -/
abbrev Slot := Fin 65534

instance neZero_slots : NeZero 65534 := ⟨by decide⟩

/-- `pack_owner`. -/
def packOwner (epoch : ℕ) (slot : Slot) : ℕ := (epoch * 2 ^ 16 % 2 ^ 64) ||| (slot.val + 1)

/-- `slot_of`; `u32::MAX` when the word names no slot. -/
def slotOf (word : ℕ) : ℕ :=
  if word = 0 ∨ word = claiming then 2 ^ 32 - 1 else word % 2 ^ 16 - 1

/-- `Publisher::push`: `record` is the epoch of the claim record, `epoch` the
    publisher's. -/
def publisherPush {F : Type} (r : SampleRing F) (record epoch : ℕ) (stamp : ℤ) (iso : Iso3 F) :
    RingProg F (Except PushError Unit) :=
  if record ≠ epoch then return .error (.claimRevoked r.edge) else r.push stamp iso

/-! ## Model of `tree.rs` -/

/-- Where a process is in `claim`, `take_claim_lease` and the drop of an `EdgeWriter`. -/
inductive ClaimPhase where
  | idle
  /-- The CAS to `CLAIMING` has succeeded. -/
  | claiming
  /-- The epoch is bumped to this value; the owner word is not stored. -/
  | bumped (epoch : ℕ)
  /-- `claim` has returned. -/
  | stored (epoch word : ℕ)
  /-- The lease is refused; the owner word is not released. -/
  | refused (word : ℕ)
  /-- The lease is taken; the epoch is not re-checked. -/
  | leased (epoch word : ℕ)
  /-- The re-check has failed; nothing is given back yet. -/
  | revoked (word : ℕ)
  /-- The owner word is released; the lease is not. -/
  | unlocking
  /-- `Tree::claim` has returned `Ok`, and the writer is not dropped. -/
  | holding (epoch word : ℕ)
  deriving DecidableEq, Repr

/-- Where a process is in `reap_claims`, on this edge. -/
inductive ReapPhase where
  | idle
  /-- The owner word is loaded and passed the filters. -/
  | loaded
  /-- The lease byte was probed and is not held. -/
  | probed
  /-- `reap` has bumped the epoch; the owner word is not cleared. -/
  | bumped
  deriving DecidableEq, Repr

/-- The claim record, the lease byte and the processes. -/
structure ClaimSys where
  owner : ℕ
  epoch : ℕ
  lease : Option Slot
  live : Slot → Bool
  claimer : Slot → ClaimPhase
  reaper : Slot → ReapPhase

namespace ClaimSys

/-- A fresh record, before any process has joined. -/
def init : ClaimSys where
  owner := 0
  epoch := 0
  lease := none
  live := fun _ => false
  claimer := fun _ => .idle
  reaper := fun _ => .idle

/-- `epoch.fetch_add(1)`. -/
def nextEpoch (s : ClaimSys) : ℕ := (s.epoch + 1) % 2 ^ 64

/-- The accesses of the calls of a process, one an atomic step. -/
inductive Access where
  /-- `claim`: the CAS. -/
  | cas
  /-- `claim`: `epoch.fetch_add`. -/
  | bump
  /-- `claim`: the owner store. -/
  | store
  /-- `take_claim_lease`: `try_take_claim`. -/
  | takeLease
  /-- The same, failing with an `fcntl` error. -/
  | leaseUnavailable
  /-- `take_claim_lease`: the epoch re-check. -/
  | recheck
  /-- `release`, by a failed claim or a drop. -/
  | release
  /-- `release_claim`. -/
  | unlock
  /-- `reap_claims`: the owner load and the filters; `only` is `only_slot`. -/
  | reapLoad (only : Option Slot)
  | reapProbe
  /-- An unreadable byte reads as held. -/
  | reapUnreadable
  /-- `reap`: `epoch.fetch_add`. -/
  | reapBump
  /-- `reap`: the owner store. -/
  | reapStore
  deriving DecidableEq, Repr

/-- The steps of the system. -/
inductive Event where
  | join (p : Slot)
  | die (p : Slot)
  | access (p : Slot) (a : Access)
  deriving DecidableEq, Repr

section Accesses

variable (s : ClaimSys) (p : Slot)

/-- `p` goes to `c` in its claim or its drop. -/
def atClaim (c : ClaimPhase) : ClaimSys := { s with claimer := upd s.claimer p c }

/-- `p` goes to `r` in its reap. -/
def atReap (r : ReapPhase) : ClaimSys := { s with reaper := upd s.reaper p r }

/-- `release`: a CAS of the owner word from `word` to `0`. -/
def releaseWord (word : ℕ) : ClaimSys := { s with owner := if s.owner = word then 0 else s.owner }

/-- The lease byte is free, or `p`'s own, which it does not see. -/
def LeaseFree : Prop := s.lease = none ∨ s.lease = some p

instance : Decidable (s.LeaseFree p) := inferInstanceAs (Decidable (_ ∨ _))

/-- `reap_claims` skips this record. -/
def Skips (only : Option Slot) : Prop :=
  s.owner = 0 ∨ slotOf s.owner = p ∨ only.any (slotOf s.owner != ·.val) = true

instance (only : Option Slot) : Decidable (s.Skips p only) :=
  inferInstanceAs (Decidable (_ ∨ _ ∨ _))

/-- An access of the live process `p`, which runs one call at a time. -/
def access : Access → ClaimPhase → ReapPhase → Option ClaimSys
  | .cas, .idle, .idle =>
    if s.owner = 0 then some { s.atClaim p .claiming with owner := TfTree.claiming } else some s
  | .bump, .claiming, _ => some { s.atClaim p (.bumped s.nextEpoch) with epoch := s.nextEpoch }
  | .store, .bumped epoch, _ =>
    some { s.atClaim p (.stored epoch (packOwner epoch p)) with owner := packOwner epoch p }
  | .takeLease, .stored epoch word, _ =>
    if s.LeaseFree p then some { s.atClaim p (.leased epoch word) with lease := some p }
    else some (s.atClaim p (.refused word))
  | .leaseUnavailable, .stored _ word, _ => some (s.atClaim p (.refused word))
  | .recheck, .leased epoch word, _ =>
    if s.epoch ≠ epoch then some (s.atClaim p (.revoked word))
    else some (s.atClaim p (.holding epoch word))
  | .release, .refused word, _ => some ((s.releaseWord word).atClaim p .idle)
  | .release, .revoked word, _ => some ((s.releaseWord word).atClaim p .unlocking)
  | .release, .holding _ word, .idle => some ((s.releaseWord word).atClaim p .unlocking)
  | .unlock, .unlocking, _ =>
    some { s.atClaim p .idle with lease := if s.lease = some p then none else s.lease }
  | .reapLoad only, .idle, .idle => some (if s.Skips p only then s else s.atReap p .loaded)
  | .reapLoad only, .holding _ _, .idle => some (if s.Skips p only then s else s.atReap p .loaded)
  | .reapProbe, _, .loaded => some (s.atReap p (if s.LeaseFree p then .probed else .idle))
  | .reapUnreadable, _, .loaded => some (s.atReap p .idle)
  | .reapBump, _, .probed => some { s.atReap p .bumped with epoch := s.nextEpoch }
  | .reapStore, _, .bumped => some { s.atReap p .idle with owner := 0 }
  | _, _, _ => none

end Accesses

/-- One step. A death frees the bytes of the process, and nothing else. -/
def step (s : ClaimSys) : Event → Option ClaimSys
  | .join p =>
    if s.live p then none
    else some { (s.atClaim p .idle).atReap p .idle with live := upd s.live p true }
  | .die p =>
    if s.live p then
      some { s with
        live := upd s.live p false
        lease := if s.lease = some p then none else s.lease }
    else none
  | .access p a => if s.live p then s.access p a (s.claimer p) (s.reaper p) else none

end ClaimSys

/-- The ring itself revokes no push, whatever happens to it meanwhile. -/
theorem push_never_revoked {F : Type} (r : SampleRing F) (stamp : ℤ) (iso : Iso3 F)
    (m : RingArena F) : (r.push stamp iso).wp RingOp.exec (fun _ _ => True) (fun _ _ => True)
      (fun res _ => res ≠ .error (.claimRevoked r.edge)) m := by
  have hslot : ∀ h m, (r.pushSlot h stamp iso >>= fun _ =>
      (return .ok () : RingProg F (Except PushError Unit))).wp RingOp.exec (fun _ _ => True)
        (fun _ _ => True) (fun res _ => res ≠ .error (.claimRevoked r.edge)) m := by
    intro h m
    exact Prog.wp_seq (Prog.wp_mono (fun _ _ _ => nofun) (Prog.wp_true _ _))
  refine Prog.wp_seq (Prog.wp_mono (fun h m _ => ?_) (Prog.wp_true _ _))
  split_ifs
  · refine Prog.wp_seq (Prog.wp_mono (fun last m _ => ?_) (Prog.wp_true _ _))
    split_ifs
    · exact nofun
    · exact hslot _ _
  · exact hslot _ _

/-! ## Owner words -/

theorem packOwner_mod (epoch : ℕ) (p : Slot) : packOwner epoch p % 2 ^ 16 = p.val + 1 := by
  have hp := p.isLt
  unfold packOwner
  rw [Nat.or_mod_two_pow, show epoch * 2 ^ 16 % 2 ^ 64 % 2 ^ 16 = 0 by omega, Nat.zero_or]
  exact Nat.mod_eq_of_lt (by omega)

/-- The word names the slot. -/
def Names (word : ℕ) (p : Slot) : Prop := word % 2 ^ 16 = p.val + 1

theorem Names.slotOf_eq {word : ℕ} {p : Slot} (h : Names word p) : slotOf word = p := by
  have hp := p.isLt
  unfold Names at h
  unfold slotOf claiming
  rw [if_neg (by omega)]
  omega

theorem Names.ne_zero {word : ℕ} {p : Slot} (h : Names word p) : word ≠ 0 := by
  rintro rfl
  cases h

theorem Names.inj {word : ℕ} {p q : Slot} (h : Names word p) (h' : Names word q) : p = q := by
  have hval := h.symm.trans h'
  exact Fin.ext (by omega)

/-! ## The lease and the words -/

/-- The owner word a phase will release or holds. -/
def ClaimPhase.word? : ClaimPhase → Option ℕ
  | .stored _ w | .refused w | .leased _ w | .revoked w | .holding _ w => some w
  | _ => none

/-- The phases in which a process has the lease. -/
def ClaimPhase.leases : ClaimPhase → Bool
  | .leased _ _ | .revoked _ | .unlocking | .holding _ _ => true
  | _ => false

/-- Between two calls. -/
def ClaimPhase.between : ClaimPhase → Bool
  | .idle | .holding _ _ => true
  | _ => false

namespace ClaimSys

variable {s s' : ClaimSys} {p q : Slot} {e : Event}

@[simp] theorem atClaim_claimer (s : ClaimSys) (p q : Slot) (c : ClaimPhase) :
    (s.atClaim p c).claimer q = if q = p then c else s.claimer q := rfl

@[simp] theorem atReap_reaper (s : ClaimSys) (p q : Slot) (r : ReapPhase) :
    (s.atReap p r).reaper q = if q = p then r else s.reaper q := rfl

/-- What an access of `p` can do to the record, the byte and the other processes. -/
structure Effect (s s' : ClaimSys) (p : Slot) : Prop where
  live : s'.live = s.live
  claimer : ∀ q, q ≠ p → s'.claimer q = s.claimer q
  reaper : ∀ q, q ≠ p → s'.reaper q = s.reaper q
  lease : s'.lease = s.lease ∨ s.LeaseFree p
  epoch : s'.epoch = s.epoch ∨ s.claimer p = .claiming ∨ s.reaper p = .probed
  owner : s'.owner = s.owner ∨ s.owner = 0 ∨ (∃ n, s.claimer p = .bumped n) ∨
    (s.claimer p).word? = some s.owner ∨ s.reaper p = .bumped
  claims : ∀ n, s'.claimer p = .claiming ∨ s'.claimer p = .bumped n →
    s.owner = 0 ∨ s.claimer p = .claiming ∨ s.claimer p = .bumped n
  reaps : s'.reaper p = .probed ∨ s'.reaper p = .bumped →
    s.LeaseFree p ∨ s.reaper p = .probed ∨ s.reaper p = .bumped

/-- An access of a claim or a drop. -/
theorem Effect.ofClaim {c : ClaimPhase} {owner epoch : ℕ} {lease : Option Slot}
    (hlease : lease = s.lease ∨ s.LeaseFree p)
    (hepoch : epoch = s.epoch ∨ s.claimer p = .claiming)
    (howner : owner = s.owner ∨ s.owner = 0 ∨ (∃ n, s.claimer p = .bumped n) ∨
      (s.claimer p).word? = some s.owner)
    (hclaims : ∀ n, c = .claiming ∨ c = .bumped n →
      s.owner = 0 ∨ s.claimer p = .claiming ∨ s.claimer p = .bumped n) :
    Effect s { s.atClaim p c with owner := owner, epoch := epoch, lease := lease } p where
  live := rfl
  claimer := fun q hq => if_neg hq
  reaper := fun _ _ => rfl
  lease := hlease
  epoch := hepoch.imp_right .inl
  owner := by
    rcases howner with h | h | h | h
    · exact .inl h
    · exact .inr (.inl h)
    · exact .inr (.inr (.inl h))
    · exact .inr (.inr (.inr (.inl h)))
  claims := fun n h => hclaims n (by simpa using h)
  reaps := fun h => .inr h

/-- An access of a reap. -/
theorem Effect.ofReap {r : ReapPhase} {owner epoch : ℕ}
    (hepoch : epoch = s.epoch ∨ s.reaper p = .probed)
    (howner : owner = s.owner ∨ s.reaper p = .bumped)
    (hreaps : r = .probed ∨ r = .bumped →
      s.LeaseFree p ∨ s.reaper p = .probed ∨ s.reaper p = .bumped) :
    Effect s { s.atReap p r with owner := owner, epoch := epoch } p where
  live := rfl
  claimer := fun _ _ => rfl
  reaper := fun q hq => if_neg hq
  lease := .inl rfl
  epoch := hepoch.imp_right .inr
  owner := howner.imp_right fun h => .inr (.inr (.inr h))
  claims := fun _ h => .inr h
  reaps := fun h => hreaps (by simpa using h)

theorem Effect.refl (s : ClaimSys) (p : Slot) : Effect s s p :=
  ⟨rfl, fun _ _ => rfl, fun _ _ => rfl, .inl rfl, .inl rfl, .inl rfl, fun _ h => .inr h,
    fun h => .inr h⟩

/-- The owner word after a release CAS changed only if it was the word released. -/
theorem releaseWord_owner (s : ClaimSys) (w : ℕ) :
    (s.releaseWord w).owner = s.owner ∨ s.owner = w := by
  unfold releaseWord
  split_ifs with h
  · exact .inr h
  · exact .inl rfl

theorem access_effect {a : Access} {c : ClaimPhase} {r : ReapPhase} (hc : s.claimer p = c)
    (hr : s.reaper p = r) (h : s.access p a c r = some s') : Effect s s' p := by
  have hrelease : ∀ w c', c.word? = some w → (∀ n, c' ≠ .claiming ∧ c' ≠ .bumped n) →
      Effect s ((s.releaseWord w).atClaim p c') p := by
    intro w c' hw hc'
    refine Effect.ofClaim (.inl rfl) (.inl rfl) ?_ fun n h => ?_
    · rcases releaseWord_owner s w with ho | ho
      · exact .inl ho
      · exact .inr (.inr (.inr (by rw [hc, hw, ho])))
    · exact (h.elim (hc' n).1 (hc' n).2).elim
  unfold access at h
  split at h
  · -- cas
    split_ifs at h with h0
    · cases h
      exact Effect.ofClaim (.inl rfl) (.inl rfl) (.inr (.inl h0)) fun _ _ => .inl h0
    · cases h
      exact .refl s p
  · -- bump
    cases h
    exact Effect.ofClaim (.inl rfl) (.inr hc) (.inl rfl) fun _ _ => .inr (.inl hc)
  · -- store
    cases h
    exact Effect.ofClaim (.inl rfl) (.inl rfl) (.inr (.inr (.inl ⟨_, hc⟩))) fun n h => by simp at h
  · -- takeLease
    split_ifs at h with hfree
    · cases h
      exact Effect.ofClaim (.inr hfree) (.inl rfl) (.inl rfl) fun n h => by simp at h
    · cases h
      exact Effect.ofClaim (.inl rfl) (.inl rfl) (.inl rfl) fun n h => by simp at h
  · -- leaseUnavailable
    cases h
    exact Effect.ofClaim (.inl rfl) (.inl rfl) (.inl rfl) fun n h => by simp at h
  · -- recheck
    split_ifs at h
    · cases h
      exact Effect.ofClaim (.inl rfl) (.inl rfl) (.inl rfl) fun n h => by simp at h
    · cases h
      exact Effect.ofClaim (.inl rfl) (.inl rfl) (.inl rfl) fun n h => by simp at h
  · -- release of a refused claim
    cases h
    exact hrelease _ _ rfl fun n => ⟨nofun, nofun⟩
  · -- release of a revoked claim
    cases h
    exact hrelease _ _ rfl fun n => ⟨nofun, nofun⟩
  · -- release of a writer
    cases h
    exact hrelease _ _ rfl fun n => ⟨nofun, nofun⟩
  · -- unlock
    cases h
    refine Effect.ofClaim ?_ (.inl rfl) (.inl rfl) fun n h => by simp at h
    split_ifs with hl
    · exact .inr (.inr hl)
    · exact .inl rfl
  · -- reapLoad, between calls
    cases h
    split_ifs
    · exact .refl s p
    · exact Effect.ofReap (.inl rfl) (.inl rfl) fun h => by simp at h
  · -- reapLoad, with a writer
    cases h
    split_ifs
    · exact .refl s p
    · exact Effect.ofReap (.inl rfl) (.inl rfl) fun h => by simp at h
  · -- reapProbe
    cases h
    refine Effect.ofReap (.inl rfl) (.inl rfl) fun h => .inl ?_
    by_contra hfree
    simp [hfree] at h
  · -- reapUnreadable
    cases h
    exact Effect.ofReap (.inl rfl) (.inl rfl) fun h => by simp at h
  · -- reapBump
    cases h
    exact Effect.ofReap (.inr hr) (.inl rfl) fun _ => .inr (.inl hr)
  · -- reapStore
    cases h
    exact Effect.ofReap (.inl rfl) (.inr hr) fun h => by simp at h
  · cases h

/-! ### The lease and the words -/

/-- A process's word names it, it has the byte in its leased phases, and it does not
    reap inside a claim. -/
structure WfAt (s : ClaimSys) (q : Slot) : Prop where
  names : ∀ w, (s.claimer q).word? = some w → Names w q
  leases : s.live q = true → (s.claimer q).leases = true → s.lease = some q
  serial : (s.claimer q).between = false → s.reaper q = .idle

def Wf (s : ClaimSys) : Prop := ∀ q, s.WfAt q

theorem Wf.init : Wf init := fun _ => ⟨nofun, nofun, nofun⟩

/-- The accessing process. -/
theorem WfAt.access {a : Access} {c : ClaimPhase} {r : ReapPhase} (h : s.WfAt p)
    (hlive : s.live p = true) (hc : s.claimer p = c) (hr : s.reaper p = r)
    (hs : s.access p a c r = some s') : s'.WfAt p := by
  obtain ⟨hnames, hleases, hserial⟩ := h
  rw [hc] at hnames hleases hserial
  unfold ClaimSys.access at hs
  split at hs
  · -- cas
    split_ifs at hs
    · cases hs
      exact ⟨by simp [ClaimPhase.word?], by simp [ClaimPhase.leases], fun _ => hr⟩
    · cases hs
      exact ⟨by simp [hc, ClaimPhase.word?], by simp [hc, ClaimPhase.leases],
        by simp [hc, ClaimPhase.between]⟩
  · -- bump
    cases hs
    exact ⟨by simp [ClaimPhase.word?], by simp [ClaimPhase.leases], fun _ => hserial rfl⟩
  · -- store
    cases hs
    refine ⟨fun w hw => ?_, by simp [ClaimPhase.leases], fun _ => hserial rfl⟩
    obtain rfl : packOwner _ p = w := by simpa [ClaimPhase.word?] using hw
    exact packOwner_mod _ p
  · -- takeLease
    split_ifs at hs
    · cases hs
      exact ⟨by simpa [ClaimPhase.word?] using hnames, fun _ _ => rfl, fun _ => hserial rfl⟩
    · cases hs
      exact ⟨by simpa [ClaimPhase.word?] using hnames, by simp [ClaimPhase.leases],
        fun _ => hserial rfl⟩
  · -- leaseUnavailable
    cases hs
    exact ⟨by simpa [ClaimPhase.word?] using hnames, by simp [ClaimPhase.leases],
      fun _ => hserial rfl⟩
  · -- recheck
    split_ifs at hs
    · cases hs
      exact ⟨by simpa [ClaimPhase.word?] using hnames, fun _ _ => hleases hlive rfl,
        fun _ => hserial rfl⟩
    · cases hs
      exact ⟨by simpa [ClaimPhase.word?] using hnames, fun _ _ => hleases hlive rfl,
        by simp [ClaimPhase.between]⟩
  · -- release of a refused claim
    cases hs
    exact ⟨by simp [ClaimPhase.word?], by simp [ClaimPhase.leases], by simp [ClaimPhase.between]⟩
  · -- release of a revoked claim
    cases hs
    exact ⟨by simp [ClaimPhase.word?], fun _ _ => hleases hlive rfl, fun _ => hserial rfl⟩
  · -- release of a writer
    cases hs
    exact ⟨by simp [ClaimPhase.word?], fun _ _ => hleases hlive rfl, fun _ => hr⟩
  · -- unlock
    cases hs
    exact ⟨by simp [ClaimPhase.word?], by simp [ClaimPhase.leases], by simp [ClaimPhase.between]⟩
  · -- reapLoad, between calls
    cases hs
    split_ifs
    · exact ⟨hc ▸ hnames, hc ▸ hleases, hc ▸ hserial⟩
    · exact ⟨hc ▸ hnames, hc ▸ hleases, by simp [atReap, hc, ClaimPhase.between]⟩
  · -- reapLoad, with a writer
    cases hs
    split_ifs
    · exact ⟨hc ▸ hnames, hc ▸ hleases, hc ▸ hserial⟩
    · exact ⟨hc ▸ hnames, hc ▸ hleases, by simp [atReap, hc, ClaimPhase.between]⟩
  · -- reapProbe
    cases hs
    refine ⟨hc ▸ hnames, hc ▸ hleases, fun hb => ?_⟩
    rw [hserial (hc ▸ hb)] at hr
    cases hr
  · -- reapUnreadable
    cases hs
    exact ⟨hc ▸ hnames, hc ▸ hleases, fun _ => by simp⟩
  · -- reapBump
    cases hs
    refine ⟨hc ▸ hnames, hc ▸ hleases, fun hb => ?_⟩
    rw [hserial (hc ▸ hb)] at hr
    cases hr
  · -- reapStore
    cases hs
    exact ⟨hc ▸ hnames, hc ▸ hleases, fun _ => by simp⟩
  · cases hs

theorem Wf.step (h : Wf s) (hs : s.step e = some s') : Wf s' := by
  intro q
  obtain ⟨hnames, hleases, hserial⟩ := h q
  cases e with
  | join p =>
    simp only [ClaimSys.step] at hs
    split_ifs at hs
    cases hs
    by_cases hq : q = p
    · exact ⟨by simp [atReap, hq, ClaimPhase.word?], by simp [atReap, hq, ClaimPhase.leases],
        by simp [atReap, hq]⟩
    · exact ⟨by simpa [atReap, hq] using hnames, by simpa [atClaim, atReap, upd, hq] using hleases,
        by simpa [atReap, atClaim, upd, hq] using hserial⟩
  | die p =>
    simp only [ClaimSys.step] at hs
    by_cases hp : s.live p = true
    · rw [if_pos hp] at hs
      cases hs
      refine ⟨hnames, fun hlive hl => ?_, hserial⟩
      have hq : q ≠ p := by
        rintro rfl
        simp at hlive
      have hlease := hleases (by simpa [upd, hq] using hlive) hl
      show (if s.lease = some p then none else s.lease) = some q
      rw [if_neg (by rw [hlease]; exact fun heq => hq (Option.some_inj.mp heq)), hlease]
    · rw [if_neg hp] at hs
      cases hs
  | access p a =>
    simp only [ClaimSys.step] at hs
    split_ifs at hs with hlive
    by_cases hq : q = p
    · subst hq
      exact WfAt.access (h q) hlive rfl rfl hs
    · have heff := access_effect rfl rfl hs
      have hc := heff.claimer q hq
      refine ⟨hc ▸ hnames, fun hl hleased => ?_, by rw [hc, heff.reaper q hq]; exact hserial⟩
      have hlease := hleases (heff.live ▸ hl) (hc ▸ hleased)
      rcases heff.lease with heq | hfree | hfree
      · rw [heq, hlease]
      · rw [hlease] at hfree
        cases hfree
      · rw [hlease] at hfree
        exact absurd (Option.some_inj.mp hfree) hq

/-! ### A writer nothing in flight can reach -/

/-- The next access of `q` touches the record of `p`'s claim: `q` is past the probe of
    its reap, or between the CAS and the owner store of its claim. -/
def InFlight (s : ClaimSys) (p q : Slot) : Prop :=
  (s.reaper q = .probed ∨ s.reaper q = .bumped) ∨
    q ≠ p ∧ (s.claimer q = .claiming ∨ ∃ n, s.claimer q = .bumped n)

/-- The record has `p`'s word, and no live process is about to touch it. -/
structure Undisturbed (s : ClaimSys) (p : Slot) (word : ℕ) : Prop where
  owner : s.owner = word
  quiet : ∀ q, s.live q = true → ¬ s.InFlight p q

/-- What makes the writer of `p` safe from every other process. -/
structure Secure (s : ClaimSys) (p : Slot) (epoch word : ℕ) : Prop
    extends s.Undisturbed p word where
  epoch : s.epoch = epoch
  serial : s.reaper p = .idle

variable {n w : ℕ}

/-- A process with a writer does not touch its own record without dropping it: its reap
    skips its own word. -/
theorem access_holding {a : Access} (h : s.Secure p n w) (hw : Names w p)
    (hs : s.access p a (.holding n w) .idle = some s') (hp : s'.claimer p = .holding n w) :
    s' = s := by
  unfold ClaimSys.access at hs
  split at hs
  all_goals first | contradiction | skip
  · cases hs
    simp at hp
  · cases hs
    have hskip : ∀ only, s.Skips p only := by
      intro only
      right; left
      rw [h.owner, hw.slotOf_eq]
    rw [if_pos (hskip _)]

/-- Nothing another process does reaches a secure writer. -/
theorem Secure.step (hwf : Wf s) (h : s.Secure p n w) (hp : s.claimer p = .holding n w)
    (hlive : s.live p = true) (hs : s.step e = some s') (hp' : s'.claimer p = .holding n w)
    (hlive' : s'.live p = true) : s'.Secure p n w := by
  have hnames : Names w p := (hwf p).names w (by rw [hp]; rfl)
  have hlease : s.lease = some p := (hwf p).leases hlive (by rw [hp]; rfl)
  cases e with
  | join q =>
    simp only [ClaimSys.step] at hs
    split_ifs at hs with hq
    cases hs
    have hqp : p ≠ q := by
      rintro rfl
      exact hq hlive
    refine ⟨⟨h.owner, fun r hr hflight => ?_⟩, h.epoch, by simpa [atClaim, hqp] using h.serial⟩
    by_cases hrq : r = q
    · subst hrq
      simp [InFlight, atReap, atClaim, upd] at hflight
    · refine h.quiet r (by simpa [upd, hrq] using hr) ?_
      simpa [InFlight, atReap, atClaim, upd, hrq] using hflight
  | die q =>
    simp only [ClaimSys.step] at hs
    by_cases hq : s.live q = true
    · rw [if_pos hq] at hs
      cases hs
      refine ⟨⟨h.owner, fun r hr => h.quiet r ?_⟩, h.epoch, h.serial⟩
      by_contra hdead
      by_cases hrq : r = q
      · subst hrq
        simp at hr
      · exact hdead (by simpa [upd, hrq] using hr)
    · rw [if_neg hq] at hs
      cases hs
  | access q a =>
    simp only [ClaimSys.step] at hs
    split_ifs at hs with hq
    by_cases hqp : q = p
    · subst hqp
      rw [hp, h.serial] at hs
      rw [access_holding h hnames hs hp']
      exact h
    · have heff := access_effect rfl rfl hs
      have hquiet := h.quiet q hq
      have hfree : ¬ s.LeaseFree q := by
        rintro (hnone | hsome)
        · rw [hlease] at hnone
          cases hnone
        · rw [hlease] at hsome
          exact hqp (Option.some_inj.mp hsome).symm
      have howner : s'.owner = s.owner := by
        rcases heff.owner with ho | ho | ho | ho | ho
        · exact ho
        · exact absurd (h.owner.symm.trans ho) hnames.ne_zero
        · exact absurd (.inr ⟨hqp, .inr ho⟩) hquiet
        · rw [h.owner] at ho
          exact absurd (((hwf q).names w ho).inj hnames) hqp
        · exact absurd (.inl (.inr ho)) hquiet
      have hepoch : s'.epoch = s.epoch := by
        rcases heff.epoch with he | he | he
        · exact he
        · exact absurd (.inr ⟨hqp, .inl he⟩) hquiet
        · exact absurd (.inl (.inl he)) hquiet
      refine ⟨⟨howner.trans h.owner, fun r hr hflight => ?_⟩, hepoch.trans h.epoch,
        (heff.reaper p (Ne.symm hqp)).trans h.serial⟩
      rw [heff.live] at hr
      by_cases hrq : r = q
      · subst hrq
        rcases hflight with hreap | ⟨-, hclaim⟩
        · rcases heff.reaps hreap with hf | hf
          · exact hfree hf
          · exact hquiet (.inl hf)
        · obtain ⟨m, hclaim⟩ : ∃ m, s'.claimer r = .claiming ∨ s'.claimer r = .bumped m := by
            rcases hclaim with hc | ⟨m, hc⟩
            · exact ⟨0, .inl hc⟩
            · exact ⟨m, .inr hc⟩
          rcases heff.claims m hclaim with ho | hc | hc
          · exact hnames.ne_zero (h.owner.symm.trans ho)
          · exact hquiet (.inr ⟨hqp, .inl hc⟩)
          · exact hquiet (.inr ⟨hqp, .inr ⟨m, hc⟩⟩)
      · unfold InFlight at hflight
        rw [heff.claimer r hrq, heff.reaper r hrq] at hflight
        exact h.quiet r hr hflight

/-- `Tree::claim` returns `Ok` at the re-check, and nowhere else. -/
theorem step_holding (hs : s.step e = some s') (hp : s'.claimer p = .holding n w) :
    s.claimer p = .holding n w ∨ e = .access p .recheck ∧ s.claimer p = .leased n w ∧
      s.epoch = n ∧ s' = s.atClaim p (.holding n w) := by
  cases e with
  | join q =>
    simp only [ClaimSys.step] at hs
    split_ifs at hs
    cases hs
    left
    by_cases hpq : p = q
    · simp [atReap, hpq] at hp
    · simpa [atReap, hpq] using hp
  | die q =>
    simp only [ClaimSys.step] at hs
    by_cases hq : s.live q = true
    · rw [if_pos hq] at hs
      cases hs
      exact .inl hp
    · rw [if_neg hq] at hs
      cases hs
  | access q a =>
    simp only [ClaimSys.step] at hs
    split_ifs at hs
    by_cases hpq : p = q
    · subst hpq
      generalize hc : s.claimer p = c at hs
      generalize hr : s.reaper p = r at hs
      unfold ClaimSys.access at hs
      split at hs
      all_goals first | contradiction | (try split_ifs at hs) <;> cases hs
      all_goals simp_all [atReap]
    · left
      rw [← (access_effect rfl rfl hs).claimer p hpq]
      exact hp

/-! ## Runs -/

/-- A re-check that finds its epoch unchanged passes over nothing in flight. -/
def Quiet (s : ClaimSys) (e : Event) : Prop :=
  ∀ p n w, e = .access p .recheck → s.claimer p = .leased n w → s.epoch = n → s.Undisturbed p w

/-- Every live writer is secure. -/
def Inv (s : ClaimSys) : Prop :=
  Wf s ∧ ∀ p n w, s.live p = true → s.claimer p = .holding n w → s.Secure p n w

theorem Inv.init : Inv init := ⟨.init, fun _ _ _ h => by cases h⟩

theorem Inv.preserved : Preserved step Quiet Inv := by
  rintro s e s' ⟨hwf, hsec⟩ hquiet hs
  refine ⟨hwf.step hs, fun p n w hlive hp => ?_⟩
  rcases step_holding hs hp with hold | ⟨rfl, hleased, hepoch, rfl⟩
  · by_cases hlive' : s.live p = true
    · exact Secure.step hwf (hsec p n w hlive' hold) hold hlive' hs hp hlive
    · -- a slot that is joined starts idle
      cases e with
      | join q =>
        simp only [ClaimSys.step] at hs
        split_ifs at hs
        cases hs
        by_cases hpq : p = q
        · simp [atReap, hpq] at hp
        · exact absurd (by simpa [upd, hpq] using hlive) hlive'
      | die q =>
        simp only [ClaimSys.step] at hs
        by_cases hq : s.live q = true
        · rw [if_pos hq] at hs
          cases hs
          by_cases hpq : p = q
          · simp [hpq] at hlive
          · exact absurd (by simpa [upd, hpq] using hlive) hlive'
        · rw [if_neg hq] at hs
          cases hs
      | access q a =>
        simp only [ClaimSys.step] at hs
        split_ifs at hs
        exact absurd ((access_effect rfl rfl hs).live ▸ hlive) hlive'
  · obtain ⟨howner, hq⟩ := hquiet p n w rfl hleased hepoch
    have hserial : s.reaper p = .idle := (hwf p).serial (by rw [hleased]; rfl)
    refine ⟨⟨howner, fun q hlive' hflight => hq q hlive' ?_⟩, hepoch, hserial⟩
    rcases hflight with hreap | ⟨hne, hclaim⟩
    · exact .inl hreap
    · refine .inr ⟨hne, ?_⟩
      simpa [hne] using hclaim

theorem step_access {a : Access} {c : ClaimPhase} {r : ReapPhase} (hlive : s.live p = true)
    (hc : s.claimer p = c) (hr : s.reaper p = r) :
    s.step (.access p a) = s.access p a c r := by
  simp only [ClaimSys.step]
  rw [if_pos hlive, hc, hr]

/-- A re-check that passes over something in flight: the writer it returns can be
    revoked, or is already without its word. -/
theorem disturbed_breaks (hwf : Wf s) (hlive : s.live p = true)
    (hp : s.claimer p = .leased n w) (hepoch : s.epoch = n) (hbad : ¬ s.Undisturbed p w) :
    ∃ s₁ s₂, s.step (.access p .recheck) = some s₁ ∧ Reachable step s₁ s₂ ∧ s₂.live p = true ∧
      s₂.claimer p = .holding n w ∧ ¬ (s₂.epoch = n ∧ s₂.owner = w) := by
  have hnames : Names w p := (hwf p).names w (by rw [hp]; rfl)
  have hserial : s.reaper p = .idle := (hwf p).serial (by rw [hp]; rfl)
  have hrecheck : s.step (.access p .recheck) = some (s.atClaim p (.holding n w)) := by
    rw [step_access hlive hp hserial]
    exact if_neg (not_not.mpr hepoch)
  have hnext : s.nextEpoch ≠ n := by
    unfold nextEpoch
    omega
  by_cases howner : s.owner = w
  · obtain ⟨q, hq, hflight⟩ : ∃ q, s.live q = true ∧ s.InFlight p q := by
      by_contra hnone
      push Not at hnone
      exact hbad ⟨howner, hnone⟩
    have hqp : q ≠ p := by
      rintro rfl
      rcases hflight with (hr | hr) | ⟨hne, -⟩
      · rw [hserial] at hr
        cases hr
      · rw [hserial] at hr
        cases hr
      · exact hne rfl
    have hclaimer : ∀ c, s.claimer q = c → (s.atClaim p (.holding n w)).claimer q = c := by
      intro c hc
      rw [atClaim_claimer, if_neg hqp, hc]
    have hholding : ∀ c, upd (s.atClaim p (.holding n w)).claimer q c p = .holding n w := by
      intro c
      rw [upd_of_ne _ _ hqp.symm, atClaim_claimer, if_pos rfl]
    rcases hflight with (hr | hr) | ⟨-, hc | ⟨m, hc⟩⟩
    · -- the reap bumps the epoch
      have hstep := step_access (s := s.atClaim p (.holding n w)) (a := .reapBump) hq rfl hr
      exact ⟨_, _, hrecheck, .step .refl trivial hstep, hlive, by simp [atReap],
        fun h => hnext h.1⟩
    · -- the reap clears the owner word
      have hstep := step_access (s := s.atClaim p (.holding n w)) (a := .reapStore) hq rfl hr
      exact ⟨_, _, hrecheck, .step .refl trivial hstep, hlive, by simp [atReap],
        fun h => hnames.ne_zero h.2.symm⟩
    · -- the other claim bumps the epoch
      have hstep := step_access (s := s.atClaim p (.holding n w)) (a := .bump) hq
        (hclaimer _ hc) rfl
      exact ⟨_, _, hrecheck, .step .refl trivial hstep, hlive, hholding _, fun h => hnext h.1⟩
    · -- the other claim stores its word
      have hstep := step_access (s := s.atClaim p (.holding n w)) (a := .store) hq
        (hclaimer _ hc) rfl
      refine ⟨_, _, hrecheck, .step .refl trivial hstep, hlive, hholding _, ?_⟩
      rintro ⟨-, hw⟩
      have hq' : Names w q := hw ▸ packOwner_mod m q
      exact hqp (hq'.inj hnames)
  · exact ⟨_, _, hrecheck, .refl, hlive, by simp, fun h => howner h.2⟩

/-- **Main theorem.** In every run whose re-checks pass over nothing in flight, the
    record of a live writer keeps the writer's epoch and word, so no push of it is
    revoked, whatever happens to its ring meanwhile. And after a re-check that does
    pass over a reap or a claim in flight, the writer can lose its record. -/
theorem reap_spares_live_claims (s : ClaimSys) (p : Slot) (n w : ℕ) :
    (Runs step Quiet init s → s.live p = true → s.claimer p = .holding n w →
      s.epoch = n ∧ s.owner = w ∧ ∀ (F : Type) (r : SampleRing F) stamp iso m,
        (publisherPush r s.epoch n stamp iso).wp RingOp.exec (fun _ _ => True) (fun _ _ => True)
          (fun res _ => res ≠ .error (.claimRevoked r.edge)) m) ∧
    (Reachable step init s → s.live p = true → s.claimer p = .leased n w →
      s.epoch = n → ¬ s.Undisturbed p w →
      ∃ s₁ s₂, s.step (.access p .recheck) = some s₁ ∧ Reachable step s₁ s₂ ∧
        s₂.live p = true ∧ s₂.claimer p = .holding n w ∧ ¬ (s₂.epoch = n ∧ s₂.owner = w)) := by
  constructor
  · intro hrun hlive hp
    have hsec := (hrun.invariant Inv.preserved .init).2 p n w hlive hp
    refine ⟨hsec.epoch, hsec.owner, fun F r stamp iso m => ?_⟩
    rw [publisherPush, if_neg (not_not.mpr hsec.epoch)]
    exact push_never_revoked r stamp iso m
  · intro hrun hlive hp hepoch hbad
    have hwf : Wf s := hrun.invariant (fun _ _ _ h _ hs => h.step hs) .init
    exact disturbed_breaks hwf hlive hp hepoch hbad

/-- One process claims the edge. Another one is refused meanwhile, and comes to reap the
    claim: its probe finds the lease. -/
theorem reap_spares_live_claims_probed : ∃ s, Runs step Quiet init s ∧ s.live 1 = true ∧
    s.claimer 0 = .holding 1 (packOwner 1 0) ∧ s.epoch = 1 ∧ s.owner = packOwner 1 0 := by
  have hother : ∀ {s : ClaimSys} {e : Event}, (∀ p, e ≠ .access p .recheck) → Quiet s e :=
    fun h p _ _ he => absurd he (h p)
  have h1 : Runs step Quiet init _ := .step (e := .join 0) .refl (hother nofun) rfl
  have h2 := h1.step (e := .join 1) (hother nofun) rfl
  have h3 := h2.step (e := .access 0 .cas) (hother nofun) rfl
  have h4 := h3.step (e := .access 0 .bump) (hother nofun) rfl
  have h5 := h4.step (e := .access 1 .cas) (hother nofun) rfl
  have h6 := h5.step (e := .access 0 .store) (hother nofun) rfl
  have h7 := h6.step (e := .access 1 (.reapLoad none)) (hother nofun) rfl
  have h8 := h7.step (e := .access 0 .takeLease) (hother nofun) rfl
  have h9 := h8.step (e := .access 0 .recheck) (fun p n w he hp _ => ?_) rfl
  · have h10 := h9.step (e := .access 1 .reapProbe) (hother nofun) rfl
    obtain ⟨hepoch, howner, -⟩ := (reap_spares_live_claims _ 0 1 (packOwner 1 0)).1 h10 rfl rfl
    exact ⟨_, h10, rfl, rfl, hepoch, howner⟩
  · cases he
    cases hp
    refine ⟨rfl, fun q hlive hflight => ?_⟩
    have hjoined : upd (upd (fun _ => false) 0 true) 1 true q = true := hlive
    rw [upd_apply, upd_apply] at hjoined
    split_ifs at hjoined with hq hq'
    · -- the reaper has loaded the owner word, and has not probed
      subst hq
      rcases hflight with (hr | hr) | ⟨-, hc | ⟨n, hc⟩⟩
      · cases hr
      · cases hr
      · cases hc
      · cases hc
    · subst hq'
      rcases hflight with (hr | hr) | ⟨hne, -⟩
      · cases hr
      · cases hr
      · exact hne rfl

/-- A reaper probes the byte before the claimer takes it, and reaps the claimer after
    its re-check. -/
def revokingRun : List Event :=
  [.join 0, .join 1, .access 0 .cas, .access 0 .bump, .access 0 .store,
    .access 1 (.reapLoad none), .access 1 .reapProbe, .access 0 .takeLease, .access 0 .recheck,
    .access 1 .reapBump, .access 1 .reapStore]

/-- The writer is alive and has its lease; its record is free and its pushes fail. -/
theorem live_claim_revoked : ∃ s, execAll step init revokingRun = some s ∧
    Reachable step init s ∧ s.live 0 = true ∧ s.claimer 0 = .holding 1 (packOwner 1 0) ∧
    s.lease = some 0 ∧ s.owner = 0 ∧
    ∀ (r : SampleRing ℚ) stamp iso,
      publisherPush r s.epoch 1 stamp iso = .ret (.error (.claimRevoked r.edge)) := by
  have hexec : execAll step init revokingRun = some _ := rfl
  refine ⟨_, hexec, reachable_of_execAll hexec, ?_, ?_, ?_, ?_, ?_⟩
  · rfl
  · rfl
  · rfl
  · rfl
  · intro r stamp iso
    rfl

end ClaimSys

end TfTree
