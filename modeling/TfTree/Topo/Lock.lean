import TfTree.Conc.System
import Mathlib.Data.Int.Notation
import Mathlib.Tactic.Common
import Mathlib.Algebra.Group.Nat.Defs

/-!
# The topology lock

`TopoLockView::acquire` and the drop of a `TopoGuard` (`tf_tree_core/src/topology.rs`) by
the participants of one arena without a lock file: every access to the owner word and
every liveness query is a step of its own, between the registrations, deaths and
reclamations of participants. A participant is a process registered in a slot; it has one
call in progress (`Tree::reparent` holds a process-local mutex). The query is truthful at
the instant it is asked.

`TopoSys.stored` is auxiliary: the participant whose compare-and-swap stored the owner
word. No step reads it.

Results:
* `Inv.step`: the owner word names the slot of the participant that stored it.
* `Exclusive.step`: a steal that replaces no live participant's word leaves one owner.
* `lock_exclusive`: along every run without a stale steal one live participant holds a
  guard; a drop releases the participant's own word in every run; and each stale steal can
  be followed by two guards.
-/

namespace TfTree

open Conc

/-! ## Model of `topology.rs` -/

/-- `TOPO_LOCK_SPIN_LIMIT`. -/
def topoLockSpinLimit : ℕ := 1024

/-- `slot_of` (lines 84–88). -/
def topoSlotOf (word : ℕ) : ℕ := (word - 1) % 2 ^ 32

/-- Where a participant is in `acquire`, or with its guard. -/
inductive TopoPhase where
  /-- Not registered yet. -/
  | unborn
  | idle
  /-- `acquire` has returned `Contended { owner_slot }`. -/
  | refused (ownerSlot : ℕ)
  /-- In the spin loop, with this many attempts left. -/
  | spinning (left : ℕ)
  /-- The owner word was loaded as `0`: `finish` is next. -/
  | finishing
  /-- The owner word was loaded; its slot is to be asked about. -/
  | asking (held : ℕ)
  /-- The slot has no live participant: the steal is next. -/
  | stealing (held : ℕ)
  /-- A compare-and-swap has succeeded; `acquired_at_nanos` is not stored. -/
  | acquired
  /-- `acquire` has returned the guard, and it is not dropped. -/
  | holding
  deriving DecidableEq, Repr

/-- From the compare-and-swap to the drop of the guard. -/
def TopoPhase.owns : TopoPhase → Bool
  | .acquired | .holding => true
  | _ => false

/-- The lock, the participant slots and the participants. -/
structure TopoSys where
  owner : ℕ
  acquiredAt : ℤ
  stored : Option ℕ
  /-- The participant registered in a slot. -/
  occupant : ℕ → Option ℕ
  live : ℕ → Bool
  slot : ℕ → ℕ
  phase : ℕ → TopoPhase

namespace TopoSys

/-- A fresh arena. -/
def init : TopoSys where
  owner := 0
  acquiredAt := 0
  stored := none
  occupant := fun _ => none
  live := fun _ => false
  slot := fun _ => 0
  phase := fun _ => .unborn

/-- The accesses of `acquire` and of the drop of its guard, one an atomic step. -/
inductive Access where
  /-- `acquire` is called. -/
  | call
  /-- One compare-and-swap of the spin loop. -/
  | cas
  /-- The load of `held`. -/
  | load
  /-- `is_alive(owner_slot)`. -/
  | ask
  /-- The compare-and-swap from `held`. -/
  | steal
  /-- The compare-and-swap of `finish`. -/
  | finish
  /-- `acquired_at_nanos.store`. -/
  | stamp (nowNanos : ℤ)
  /-- `TopoGuard::drop`. -/
  | drop
  deriving DecidableEq, Repr

/-- The steps of the system. -/
inductive Event where
  /-- A new participant registers in a free slot. -/
  | join (p slot : ℕ)
  | die (p : ℕ)
  /-- A clean detach: the slot is released. -/
  | leave (p : ℕ)
  /-- The slot of a dead participant is freed. -/
  | reclaim (slot : ℕ)
  | access (p : ℕ) (a : Access)
  deriving DecidableEq, Repr

section Accesses

variable (s : TopoSys) (p : ℕ)

/-- `want`: the owner word of `p`. -/
def want : ℕ := s.slot p + 1

/-- `p` goes to `c`. -/
def goto (c : TopoPhase) : TopoSys := { s with phase := upd s.phase p c }

/-- A compare-and-swap to `want` that succeeds. -/
def take : TopoSys := { s.goto p .acquired with owner := s.want p, stored := some p }

/-- The compare-and-swap of the drop. -/
def release : TopoSys :=
  if s.owner = s.want p then { s.goto p .idle with owner := 0, stored := none }
  else s.goto p .idle

/-- The truth about the slot's occupant. -/
def isAlive (slot : ℕ) : Bool := (s.occupant slot).any s.live

/-- An access of the live participant `p`. -/
def access : Access → TopoPhase → Option TopoSys
  | .call, .idle => some (s.goto p (.spinning topoLockSpinLimit))
  | .call, .refused _ => some (s.goto p (.spinning topoLockSpinLimit))
  | .cas, .spinning (n + 1) =>
    if s.owner = 0 then some (s.take p) else some (s.goto p (.spinning n))
  | .load, .spinning 0 =>
    if s.owner = 0 then some (s.goto p .finishing)
    else if topoSlotOf s.owner = s.slot p then some (s.goto p (.refused (topoSlotOf s.owner)))
    else some (s.goto p (.asking s.owner))
  | .ask, .asking held =>
    if s.isAlive (topoSlotOf held) then some (s.goto p (.refused (topoSlotOf held)))
    else some (s.goto p (.stealing held))
  | .steal, .stealing held =>
    if s.owner = held then some (s.take p) else some (s.goto p (.refused (topoSlotOf held)))
  | .finish, .finishing =>
    if s.owner = 0 then some (s.take p) else some (s.goto p (.refused (topoSlotOf s.owner)))
  | .stamp nowNanos, .acquired => some { s.goto p .holding with acquiredAt := nowNanos }
  | .drop, .holding => some (s.release p)
  | _, _ => none

end Accesses

/-- One step. -/
def step (s : TopoSys) : Event → Option TopoSys
  | .join p k =>
    if s.phase p = .unborn ∧ s.occupant k = none ∧ k < 2 ^ 32 then
      some { s.goto p .idle with
        occupant := upd s.occupant k (some p), live := upd s.live p true, slot := upd s.slot p k }
    else none
  | .die p => if s.live p then some { s with live := upd s.live p false } else none
  | .leave p =>
    if s.live p ∧ s.phase p = .idle then
      some { s with live := upd s.live p false, occupant := upd s.occupant (s.slot p) none }
    else none
  | .reclaim k => if s.isAlive k then none else some { s with occupant := upd s.occupant k none }
  | .access p a => if s.live p then s.access p a (s.phase p) else none

/-- The participant is live and has a guard. -/
def Guards (s : TopoSys) (p : ℕ) : Prop := s.live p = true ∧ s.phase p = .holding

/-- A steal that replaces the word of a live participant: the slot was taken over, and the
    lock was acquired through it, after the liveness query. -/
def Stale (s : TopoSys) : Event → Prop
  | .access p .steal =>
    s.phase p = .stealing s.owner ∧ ∃ a, s.stored = some a ∧ s.live a = true
  | _ => False

/-! ## What an access does -/

section Effects

variable {s s' : TopoSys} {p q : ℕ} {a : Access} {e : Event}

@[simp] theorem goto_phase (s : TopoSys) (p q : ℕ) (c : TopoPhase) :
    (s.goto p c).phase q = if q = p then c else s.phase q := rfl

@[simp] theorem goto_goto (s : TopoSys) (p : ℕ) (c c' : TopoPhase) :
    (s.goto p c).goto p c' = s.goto p c' := by
  unfold goto
  congr 1
  funext q
  simp only [upd_apply]
  split_ifs <;> rfl

/-- What an access of `p` can do. -/
inductive Effect (s : TopoSys) (p : ℕ) (a : Access) : TopoSys → Prop
  | quiet (c : TopoPhase) (nowNanos : ℤ) (hc : c.owns = (s.phase p).owns) (hne : c ≠ .unborn) :
    Effect s p a { s.goto p c with acquiredAt := nowNanos }
  | take (h : s.owner = 0 ∨ a = .steal ∧ s.phase p = .stealing s.owner) : Effect s p a (s.take p)
  | drop (h : s.phase p = .holding) : Effect s p a (s.release p)

theorem access_effect (h : s.access p a (s.phase p) = some s') : Effect s p a s' := by
  have hquiet : ∀ c, c.owns = (s.phase p).owns → c ≠ .unborn → Effect s p a (s.goto p c) :=
    fun c hc hne => .quiet c s.acquiredAt hc hne
  generalize hph : s.phase p = ph at h hquiet
  unfold access at h
  split at h
  · cases h
    exact hquiet _ rfl nofun
  · cases h
    exact hquiet _ rfl nofun
  · split_ifs at h with h0
    · cases h
      exact .take (.inl h0)
    · cases h
      exact hquiet _ rfl nofun
  · split_ifs at h
    · cases h
      exact hquiet _ rfl nofun
    · cases h
      exact hquiet _ rfl nofun
    · cases h
      exact hquiet _ rfl nofun
  · split_ifs at h
    · cases h
      exact hquiet _ rfl nofun
    · cases h
      exact hquiet _ rfl nofun
  · split_ifs at h with hheld
    · cases h
      exact .take (.inr ⟨rfl, hheld ▸ hph⟩)
    · cases h
      exact hquiet _ rfl nofun
  · split_ifs at h with h0
    · cases h
      exact .take (.inl h0)
    · cases h
      exact hquiet _ rfl nofun
  · cases h
    exact .quiet .holding _ (by rw [hph]; rfl) nofun
  · cases h
    exact .drop hph
  · cases h

end Effects

/-! ## The owner word -/

/-- A live participant is registered in its slot; the owner word is that of the participant
    that stored it, which, while it lives, has not dropped its guard. A live owner in the
    slot that the word names has stored it. -/
structure Inv (s : TopoSys) : Prop where
  seat : ∀ p, s.live p = true → s.occupant (s.slot p) = some p
  word : (s.owner = 0 ∧ s.stored = none) ∨ ∃ a, s.stored = some a ∧ s.owner = s.want a
  keeps : ∀ a, s.stored = some a → s.live a = true → (s.phase a).owns = true
  same : ∀ p a, s.live p = true → (s.phase p).owns = true → s.stored = some a →
    s.slot a = s.slot p → a = p
  unborn : ∀ p, s.phase p = .unborn → s.live p = false ∧ s.stored ≠ some p

theorem inv_init : Inv init where
  seat := nofun
  word := .inl ⟨rfl, rfl⟩
  keeps := nofun
  same := nofun
  unborn := fun _ _ => ⟨rfl, nofun⟩

section Step

variable {s s' : TopoSys} {p q a : ℕ} {e : Event}

/-- Two live participants have different slots. -/
theorem Inv.slot_inj (hi : Inv s) (hp : s.live p = true) (hq : s.live q = true)
    (h : s.slot p = s.slot q) : p = q := by
  have h1 := hi.seat p hp
  rw [h, hi.seat q hq] at h1
  exact (Option.some_inj.mp h1).symm

theorem Inv.owner_eq (hi : Inv s) (ha : s.stored = some a) : s.owner = s.want a := by
  rcases hi.word with ⟨-, hnone⟩ | ⟨b, hb, hw⟩
  · rw [hnone] at ha
    cases ha
  · rw [hb] at ha
    cases ha
    exact hw

/-- The owner word names the slot of a live owner only if it stored it. -/
theorem Inv.stored_of_want (hi : Inv s) (hp : s.live p = true) (howns : (s.phase p).owns = true)
    (hw : s.owner = s.want p) : s.stored = some p := by
  rcases hi.word with ⟨h0, -⟩ | ⟨a, ha, hwa⟩
  · rw [hw] at h0
    cases h0
  · have hslot : s.slot a = s.slot p := by
      unfold want at hw hwa
      omega
    rw [← hi.same p a hp howns ha hslot]
    exact ha

theorem release_own (hw : s.owner = s.want p) :
    s.release p = { s.goto p .idle with owner := 0, stored := none } := if_pos hw

theorem release_other (hw : s.owner ≠ s.want p) : s.release p = s.goto p .idle := if_neg hw

theorem release_phase (s : TopoSys) (p q : ℕ) :
    (s.release p).phase q = if q = p then .idle else s.phase q := by
  by_cases hw : s.owner = s.want p
  · rw [release_own hw]
    rfl
  · rw [release_other hw]
    rfl

theorem fewer_of_upd {live : ℕ → Bool} (hl : upd live p false q = true) : live q = true := by
  rw [upd_apply] at hl
  split_ifs at hl
  exact hl

/-- Fewer live participants, and other free slots. -/
theorem Inv.fewer (hi : Inv s) {live : ℕ → Bool} {occupant : ℕ → Option ℕ}
    (hlive : ∀ q, live q = true → s.live q = true)
    (hseat : ∀ q, live q = true → occupant (s.slot q) = some q) :
    Inv { s with live := live, occupant := occupant } where
  seat := hseat
  word := hi.word
  keeps := fun a ha hl => hi.keeps a ha (hlive a hl)
  same := fun q a hl => hi.same q a (hlive q hl)
  unborn := by
    intro q hq
    obtain ⟨hdead, hnever⟩ := hi.unborn q hq
    refine ⟨?_, hnever⟩
    show live q = false
    rw [← Bool.not_eq_true]
    intro hl
    rw [hlive q hl] at hdead
    cases hdead

/-- **Step lemma.** An access keeps the invariant. -/
theorem Inv.effect {x : Access} (hi : Inv s) (hp : s.live p = true) (h : Effect s p x s') :
    Inv s' := by
  have hborn : s.phase p ≠ .unborn := by
    intro hph
    rw [(hi.unborn p hph).1] at hp
    cases hp
  cases h with
  | quiet c nowNanos hc hne =>
    have howns : ∀ q, ((s.goto p c).phase q).owns = (s.phase q).owns := by
      intro q
      rw [goto_phase]
      split_ifs with hq
      · rw [hq]
        exact hc
      · rfl
    refine ⟨hi.seat, hi.word, ?_, ?_, ?_⟩
    · intro a ha hl
      show ((s.goto p c).phase a).owns = true
      rw [howns]
      exact hi.keeps a ha hl
    · intro q a hl ho ha hslot
      apply hi.same q a hl _ ha hslot
      rw [← howns]
      exact ho
    · intro q hq
      apply hi.unborn q
      have hq' : (s.goto p c).phase q = .unborn := hq
      rw [goto_phase] at hq'
      split_ifs at hq' with heq
      · exact absurd hq' hne
      · exact hq'
  | take _ =>
    refine ⟨hi.seat, .inr ⟨p, rfl, rfl⟩, ?_, ?_, ?_⟩
    · rintro a ⟨⟩ hl
      show ((s.goto p .acquired).phase p).owns = true
      simp [TopoPhase.owns]
    · rintro q a hl ho ⟨⟩ hslot
      exact hi.slot_inj hp hl hslot
    · intro q hq
      have hq' : (s.goto p .acquired).phase q = .unborn := hq
      rw [goto_phase] at hq'
      split_ifs at hq' with heq
      refine ⟨(hi.unborn q hq').1, ?_⟩
      rintro ⟨⟩
      exact heq rfl
  | drop hph =>
    have howns : (s.phase p).owns = true := by rw [hph]; rfl
    have hunborn : ∀ q, (s.release p).phase q = .unborn → s.phase q = .unborn := by
      intro q hq
      rw [release_phase] at hq
      split_ifs at hq
      exact hq
    have hothers : ∀ q, ((s.release p).phase q).owns = true → q ≠ p ∧ (s.phase q).owns = true := by
      intro q hq
      rw [release_phase] at hq
      split_ifs at hq with heq
      · cases hq
      · exact ⟨heq, hq⟩
    by_cases hw : s.owner = s.want p
    · rw [release_own hw] at hunborn hothers ⊢
      refine ⟨hi.seat, .inl ⟨rfl, rfl⟩, nofun, nofun, ?_⟩
      exact fun q hq => ⟨(hi.unborn q (hunborn q hq)).1, nofun⟩
    · rw [release_other hw] at hunborn hothers ⊢
      refine ⟨hi.seat, hi.word, ?_, ?_, fun q hq => hi.unborn q (hunborn q hq)⟩
      · intro a ha hl
        have hap : a ≠ p := by
          rintro rfl
          exact hw (hi.owner_eq ha)
        rw [goto_phase, if_neg hap]
        exact hi.keeps a ha hl
      · intro q a hl ho ha hslot
        exact hi.same q a hl (hothers q ho).2 ha hslot

/-- **Step lemma.** Every step keeps the invariant. -/
theorem Inv.step (hi : Inv s) (hs : s.step e = some s') : Inv s' := by
  cases e with
  | join p k =>
    simp only [TopoSys.step] at hs
    split_ifs at hs with h
    obtain ⟨hborn, hfree, -⟩ := h
    obtain ⟨hdead, hnever⟩ := hi.unborn p hborn
    cases hs
    have hslot : ∀ q, q ≠ p → upd s.slot p k q = s.slot q := fun q hq => upd_of_ne _ _ hq
    have hlive : ∀ q, q ≠ p → upd s.live p true q = true → s.live q = true := by
      intro q hq hl
      rwa [upd_of_ne _ _ hq] at hl
    refine ⟨?_, ?_, ?_, ?_, ?_⟩
    · intro q hl
      show upd s.occupant k (some p) (upd s.slot p k q) = some q
      by_cases hq : q = p
      · subst hq
        rw [upd_self, upd_self]
      · have hseat := hi.seat q (hlive q hq hl)
        have hk : s.slot q ≠ k := by
          rintro rfl
          rw [hfree] at hseat
          cases hseat
        rw [hslot q hq, upd_of_ne _ _ hk]
        exact hseat
    · rcases hi.word with h0 | ⟨a, ha, hw⟩
      · exact .inl h0
      · refine .inr ⟨a, ha, ?_⟩
        have hap : a ≠ p := by
          rintro rfl
          exact hnever ha
        show s.owner = upd s.slot p k a + 1
        rw [hslot a hap]
        exact hw
    · intro a ha hl
      have hap : a ≠ p := by
        rintro rfl
        exact hnever ha
      show ((s.goto p .idle).phase a).owns = true
      rw [goto_phase, if_neg hap]
      exact hi.keeps a ha (hlive a hap hl)
    · intro q a hl ho ha hsame
      have hap : a ≠ p := by
        rintro rfl
        exact hnever ha
      have ho' : ((s.goto p .idle).phase q).owns = true := ho
      have hq : q ≠ p := by
        rintro rfl
        simp [TopoPhase.owns] at ho'
      rw [goto_phase, if_neg hq] at ho'
      have hsame' : upd s.slot p k a = upd s.slot p k q := hsame
      rw [hslot a hap, hslot q hq] at hsame'
      exact hi.same q a (hlive q hq hl) ho' ha hsame'
    · intro q hq
      have hq' : (s.goto p .idle).phase q = .unborn := hq
      rw [goto_phase] at hq'
      split_ifs at hq' with heq
      obtain ⟨h1, h2⟩ := hi.unborn q hq'
      exact ⟨(upd_of_ne _ _ heq).trans h1, h2⟩
  | die p =>
    simp only [TopoSys.step] at hs
    split_ifs at hs
    cases hs
    exact hi.fewer (fun q hl => fewer_of_upd hl) fun q hl => hi.seat q (fewer_of_upd hl)
  | leave p =>
    simp only [TopoSys.step] at hs
    split_ifs at hs with h
    cases hs
    refine hi.fewer (fun q hl => fewer_of_upd hl) fun q hl => ?_
    have hq : q ≠ p := by
      rintro rfl
      rw [upd_self] at hl
      cases hl
    have hslot : s.slot q ≠ s.slot p := fun heq => hq (hi.slot_inj (fewer_of_upd hl) h.1 heq)
    rw [upd_of_ne _ _ hslot]
    exact hi.seat q (fewer_of_upd hl)
  | reclaim k =>
    simp only [TopoSys.step] at hs
    split_ifs at hs with h
    cases hs
    refine hi.fewer (fun _ hl => hl) fun q hl => ?_
    have hk : s.slot q ≠ k := by
      rintro rfl
      apply h
      rw [isAlive, hi.seat q hl]
      exact hl
    rw [upd_of_ne _ _ hk]
    exact hi.seat q hl
  | access p a =>
    simp only [TopoSys.step] at hs
    split_ifs at hs with hp
    exact hi.effect hp (access_effect hs)

end Step

/-! ## One owner -/

/-- Every live participant from its compare-and-swap to the drop of its guard has stored
    the owner word. -/
def Exclusive (s : TopoSys) : Prop :=
  ∀ p, s.live p = true → (s.phase p).owns = true → s.stored = some p

section Exclusive

variable {s s' : TopoSys} {p q : ℕ} {e : Event}

/-- **Step lemma.** A steal of no live participant's word leaves one owner, and every other
    step does. -/
theorem Exclusive.step (hx : Exclusive s) (hi : Inv s) (hfresh : ¬ Stale s e)
    (hs : s.step e = some s') : Exclusive s' := by
  cases e with
  | join p k =>
    simp only [TopoSys.step] at hs
    split_ifs at hs
    cases hs
    intro q hl ho
    have ho' : ((s.goto p .idle).phase q).owns = true := ho
    have hq : q ≠ p := by
      rintro rfl
      simp [TopoPhase.owns] at ho'
    rw [goto_phase, if_neg hq] at ho'
    have hl' : upd s.live p true q = true := hl
    rw [upd_of_ne _ _ hq] at hl'
    exact hx q hl' ho'
  | die p =>
    simp only [TopoSys.step] at hs
    split_ifs at hs
    cases hs
    exact fun q hl ho => hx q (fewer_of_upd hl) ho
  | leave p =>
    simp only [TopoSys.step] at hs
    split_ifs at hs
    cases hs
    exact fun q hl ho => hx q (fewer_of_upd hl) ho
  | reclaim k =>
    simp only [TopoSys.step] at hs
    split_ifs at hs
    cases hs
    exact hx
  | access p a =>
    simp only [TopoSys.step] at hs
    split_ifs at hs with hp
    intro q hl ho
    cases access_effect hs with
    | quiet c nowNanos hc hne =>
      apply hx q hl
      have ho' : ((s.goto p c).phase q).owns = true := ho
      rw [goto_phase] at ho'
      split_ifs at ho' with hq
      · rw [hq, ← hc]
        exact ho'
      · exact ho'
    | take h =>
      show some p = some q
      have ho' : ((s.goto p .acquired).phase q).owns = true := ho
      rw [goto_phase] at ho'
      split_ifs at ho' with hq
      · rw [hq]
      · -- `q` has stored the word: neither is it `0`, nor is the steal fresh
        have hstored := hx q hl ho'
        rcases h with h0 | ⟨rfl, hsteal⟩
        · rw [hi.owner_eq hstored] at h0
          cases h0
        · exact absurd ⟨hsteal, q, hstored, hl⟩ hfresh
    | drop hph =>
      rw [release_phase] at ho
      split_ifs at ho with hq
      · cases ho
      · have hown : s.stored = some p := hx p hp (by rw [hph]; rfl)
        have hlq : s.live q = true := by
          rw [release_own (hi.owner_eq hown)] at hl
          exact hl
        rw [hx q hlq ho] at hown
        exact absurd (Option.some_inj.mp hown) hq

theorem exclusive_init : Exclusive init := nofun

/-- A participant whose compare-and-swap has succeeded goes on to its guard. -/
theorem reach_guard (hl : s.live p = true) (ho : (s.phase p).owns = true) :
    ∃ s', Reachable step s s' ∧ s'.live = s.live ∧ s'.phase p = .holding ∧
      ∀ q, q ≠ p → s'.phase q = s.phase q := by
  generalize hph : s.phase p = ph at ho
  unfold TopoPhase.owns at ho
  split at ho
  · have hstep : s.step (.access p (.stamp 0)) =
        some { s.goto p .holding with acquiredAt := 0 } := by
      simp only [step, hl, hph]
      rfl
    refine ⟨_, Runs.refl.step trivial hstep, rfl, ?_, fun q hq => if_neg hq⟩
    exact if_pos rfl
  · exact ⟨s, .refl, rfl, hph, fun _ _ => rfl⟩
  · cases ho

/-- A stale steal leaves two owners, and both go on to their guards. -/
theorem stale_two_guards (hi : Inv s) (hstale : Stale s e) (hs : s.step e = some s') :
    ∃ s'' p q, Reachable step s' s'' ∧ p ≠ q ∧ s''.Guards p ∧ s''.Guards q := by
  unfold Stale at hstale
  split at hstale
  swap
  · exact hstale.elim
  rename_i p
  obtain ⟨hph, q, hq, hlq⟩ := hstale
  simp only [step] at hs
  split_ifs at hs with hlp
  rw [hph] at hs
  have htake : s.access p .steal (.stealing s.owner) = some (s.take p) := if_pos rfl
  rw [htake] at hs
  cases hs
  have hpq : q ≠ p := by
    rintro rfl
    have howns := hi.keeps q hq hlq
    rw [hph] at howns
    cases howns
  have hp1 : ((s.take p).phase p).owns = true := by
    show ((s.goto p .acquired).phase p).owns = true
    simp [TopoPhase.owns]
  obtain ⟨s1, hr1, hl1, hg1, hf1⟩ := reach_guard (s := s.take p) hlp hp1
  have hq1 : (s1.phase q).owns = true := by
    rw [hf1 q hpq]
    show ((s.goto p .acquired).phase q).owns = true
    rw [goto_phase, if_neg hpq]
    exact hi.keeps q hq hlq
  have hlq1 : s1.live q = true := by
    rw [hl1]
    exact hlq
  obtain ⟨s2, hr2, hl2, hg2, hf2⟩ := reach_guard hlq1 hq1
  refine ⟨s2, p, q, hr1.trans hr2, hpq.symm, ⟨?_, ?_⟩, ⟨?_, hg2⟩⟩
  · rw [hl2, hl1]
    exact hlp
  · rw [hf2 p hpq.symm]
    exact hg1
  · rw [hl2]
    exact hlq1

/-- A drop that changes the owner word finds the participant's own. -/
theorem drop_own (hi : Inv s) (hs : s.step (.access p .drop) = some s')
    (hne : s'.owner ≠ s.owner) : s.stored = some p := by
  simp only [step] at hs
  split_ifs at hs with hp
  cases hph : s.phase p with
  | holding =>
    rw [hph] at hs
    cases hs
    by_cases hw : s.owner = s.want p
    · exact hi.stored_of_want hp (by rw [hph]; rfl) hw
    · rw [release_other hw] at hne
      exact absurd rfl hne
  | _ =>
    rw [hph] at hs
    cases hs

/-- A participant spins out while the lock is held. -/
theorem spin_out {ok : TopoSys → Event → Prop} (hok : ∀ s, ok s (.access p .cas)) {n : ℕ}
    (hl : s.live p = true) (h0 : s.owner ≠ 0) (hph : s.phase p = .spinning n) :
    Runs step ok s (s.goto p (.spinning 0)) := by
  induction n generalizing s with
  | zero =>
    have hself : s.goto p (.spinning 0) = s := by
      unfold goto
      congr 1
      funext q
      rw [upd_apply]
      split_ifs with hq
      · rw [hq, hph]
      · rfl
    rw [hself]
    exact .refl
  | succ n ih =>
    have hstep : s.step (.access p .cas) = some (s.goto p (.spinning n)) := by
      simp only [step, hl, hph, if_true]
      exact if_neg h0
    have hrest := ih (s := s.goto p (.spinning n)) hl h0 (if_pos rfl)
    rw [goto_goto] at hrest
    exact (Runs.refl.step (hok s) hstep).trans hrest

/-- **Main theorem.** Along every run without a stale steal at most one live participant
    holds a guard. In every run a drop releases no word but the participant's own; and a
    stale steal can be followed by two guards. -/
theorem lock_exclusive (s : TopoSys) :
    (Runs step (fun s e => ¬ Stale s e) init s →
      ∀ p q, s.Guards p → s.Guards q → p = q) ∧
    (Reachable step init s →
      (∀ p s', s.step (.access p .drop) = some s' → s'.owner ≠ s.owner → s.stored = some p) ∧
      ∀ e s', Stale s e → s.step e = some s' →
        ∃ s'' p q, Reachable step s' s'' ∧ p ≠ q ∧ s''.Guards p ∧ s''.Guards q) := by
  constructor
  · intro hr p q hp hq
    have hkept : Preserved step (fun s e => ¬ Stale s e) fun s => Inv s ∧ Exclusive s := by
      rintro s e s' ⟨hi, hx⟩ hfresh hs
      exact ⟨hi.step hs, hx.step hi hfresh hs⟩
    have hinv := hr.invariant hkept ⟨inv_init, exclusive_init⟩
    have h1 := hinv.2 p hp.1 (by rw [hp.2]; rfl)
    have h2 := hinv.2 q hq.1 (by rw [hq.2]; rfl)
    rw [h1] at h2
    exact Option.some_inj.mp h2
  · intro hr
    have hi : Inv s := hr.invariant (fun s e s' hi _ hs => hi.step hs) inv_init
    exact ⟨fun p s' hs hne => drop_own hi hs hne,
      fun e s' hstale hs => stale_two_guards hi hstale hs⟩

/-- One participant acquires the lock and dies with it; another one spins out, finds it dead
    and steals the lock. -/
theorem lock_exclusive_stolen : ∃ s, Runs step (fun s e => ¬ Stale s e) init s ∧ s.Guards 1 ∧
    ∀ p, s.Guards p → p = 1 := by
  have h1 : Runs step (fun s e => ¬ Stale s e) init _ := .step (e := .join 0 0) .refl id rfl
  have h2 := h1.step (e := .join 1 1) id rfl
  have h3 := h2.step (e := .access 0 .call) id rfl
  have h4 := h3.step (e := .access 0 .cas) id rfl
  have h5 := h4.step (e := .access 1 .call) id rfl
  have h6 := h5.step (e := .access 0 (.stamp 0)) id rfl
  have h7 := h6.trans (spin_out (p := 1) (n := topoLockSpinLimit) (fun _ => id) rfl (by decide) rfl)
  have h8 := h7.step (e := .access 1 .load) id rfl
  have h9 := h8.step (e := .die 0) id rfl
  have h10 := h9.step (e := .access 1 .ask) id rfl
  have h11 := h10.step (e := .access 1 .steal) (fun hstale => ?_) rfl
  · have h12 := h11.step (e := .access 1 (.stamp 1)) id rfl
    exact ⟨_, h12, ⟨rfl, rfl⟩, fun p hp => (lock_exclusive _).1 h12 p 1 hp ⟨rfl, rfl⟩⟩
  · -- the word is the dead participant's
    obtain ⟨-, a, ha, hlive⟩ := hstale
    cases ha
    cases hlive

end Exclusive

/-! ## A slot that is taken over -/

/-- Participant `0` holds the lock, and participant `1` calls `acquire`. -/
def reuseOpening : List Event :=
  [.join 0 0, .join 1 1, .access 0 .call, .access 0 .cas, .access 0 (.stamp 0), .access 1 .call]

def reuseStart : TopoSys := (execAll step init reuseOpening).getD init

/-- Participant `1` has spun out and reads the owner word. Participant `0` drops its guard
    and dies, its slot is freed, and the query finds nobody in it. Participant `2` registers
    in the slot and acquires the lock; then participant `1` steals it. -/
def reuseRun : List Event :=
  [.access 1 .load, .access 0 .drop, .die 0, .reclaim 0, .access 1 .ask, .join 2 0,
    .access 2 .call, .access 2 .cas, .access 2 (.stamp 1), .access 1 .steal, .access 1 (.stamp 2)]

/-- Two live participants hold a guard. -/
theorem two_guards : ∃ s, Reachable step init s ∧ s.Guards 1 ∧ s.Guards 2 := by
  have hopen : execAll step init reuseOpening = some reuseStart := rfl
  have hstart := reachable_of_execAll hopen
  have hspin : Reachable step reuseStart _ :=
    spin_out (p := 1) (n := topoLockSpinLimit) (fun _ => trivial) rfl (by decide) rfl
  have hrun : ∃ s, execAll step (reuseStart.goto 1 (.spinning 0)) reuseRun = some s ∧
      s.Guards 1 ∧ s.Guards 2 := ⟨_, rfl, ⟨rfl, rfl⟩, rfl, rfl⟩
  obtain ⟨s, hs, hg⟩ := hrun
  exact ⟨s, (hstart.trans hspin).trans (reachable_of_execAll hs), hg⟩

end TopoSys

end TfTree
