import Mathlib
import TfTree.Shm.Claim

/-!
# The owner words of a claim record

One claim record (`tf_tree_core/src/edge.rs`) and any number of threads that claim it,
release it and reap it, each access a step of its own. A thread may die at any step. The
lease and the re-check of the epoch, which `Shm.Claim` has, are left out: this is what the
record alone gives to its callers.

Results:
* `ownerWord_inj`, `slotOf_ownerWord`: what the low 48 bits of the epoch and the slot leave
  of an owner word.
* `Inv.step`, `Latest.step`: what every access preserves, and what it preserves when no reap
  clears the record under a claim.
* `owner_words_sound`: the owner words along every run.
* `owner_words_fail`: a reap under a claim, and an epoch that has come round.
-/

namespace TfTree

open Conc

/-! ## Model of `edge.rs` -/

/-- `pack_owner`, for any slot. -/
def ownerWord (epoch slot : ℕ) : ℕ := (epoch * 2 ^ 16 % 2 ^ 64) ||| (slot + 1)

theorem packOwner_eq (epoch : ℕ) (p : Slot) : packOwner epoch p = ownerWord epoch p.val := rfl

/-- A claim that got its epoch. -/
structure Acquisition where
  epoch : ℕ
  slot : ℕ
  deriving DecidableEq

/-- The owner word of an acquisition. -/
def Acquisition.word (a : Acquisition) : ℕ := ownerWord a.epoch a.slot

/-- Where a thread is in `claim`, with a claim, or in `reap`. -/
inductive ClaimStage where
  | idle
  /-- The compare-and-swap to `CLAIMING` has succeeded. -/
  | claiming (slot : ℕ)
  /-- The epoch is bumped; the owner word is not stored. -/
  | bumped (a : Acquisition)
  /-- `claim` has returned; the word is not released. -/
  | held (a : Acquisition)
  /-- `reap` has bumped the epoch; the owner word is not cleared. -/
  | reaping
  deriving DecidableEq

/-- Between the compare-and-swap and the owner store of `claim`. -/
def ClaimStage.InFlight : ClaimStage → Prop
  | .claiming _ | .bumped _ => True
  | _ => False

/-- A claim record and its threads. `bumps` and `acquired` are auxiliary: how often the
    epoch was bumped, and the acquisitions, newest first. -/
structure OwnerSys (ι : Type) where
  owner : ℕ
  epoch : ℕ
  thread : ι → ClaimStage
  bumps : ℕ
  acquired : List Acquisition

namespace OwnerSys

variable {ι : Type}

/-- A fresh record. -/
def init : OwnerSys ι where
  owner := 0
  epoch := 0
  thread := fun _ => .idle
  bumps := 0
  acquired := []

inductive Event (ι : Type) where
  /-- `claim` is called: its compare-and-swap. -/
  | cas (i : ι) (slot : ℕ)
  /-- `claim`: `epoch.fetch_add`. -/
  | bump (i : ι)
  /-- `claim`: the owner store. -/
  | store (i : ι)
  /-- `release`, with the word that `claim` returned. -/
  | release (i : ι)
  /-- `reap` is called: its `epoch.fetch_add`. -/
  | reapBump (i : ι)
  /-- `reap`: the owner store. -/
  | reapStore (i : ι)
  | die (i : ι)

variable [DecidableEq ι] (s : OwnerSys ι) (i : ι)

/-- The thread goes to a stage. -/
def goto (c : ClaimStage) : OwnerSys ι := { s with thread := upd s.thread i c }

/-- `epoch.fetch_add(1)`. -/
def bumpEpoch : OwnerSys ι :=
  { s with epoch := (s.epoch + 1) % 2 ^ 64, bumps := s.bumps + 1 }

/-- `owner.compare_exchange(word, 0)`. -/
def exchange (word : ℕ) : OwnerSys ι := { s with owner := if s.owner = word then 0 else s.owner }

/-- One step. -/
def step (s : OwnerSys ι) : Event ι → Option (OwnerSys ι)
  | .cas i slot =>
    match s.thread i with
    | .idle =>
      if slot < 65535 then
        -- a record that is not free is `EdgeAlreadyClaimed`
        some (if s.owner = 0 then { s.goto i (.claiming slot) with owner := claiming } else s)
      else none
    | _ => none
  | .bump i =>
    match s.thread i with
    | .claiming slot =>
      let a : Acquisition := ⟨(s.epoch + 1) % 2 ^ 64, slot⟩
      some { s.bumpEpoch.goto i (.bumped a) with acquired := a :: s.acquired }
    | _ => none
  | .store i =>
    match s.thread i with
    | .bumped a => some { s.goto i (.held a) with owner := a.word }
    | _ => none
  | .release i =>
    match s.thread i with
    | .held a => some ((s.exchange a.word).goto i .idle)
    | _ => none
  | .reapBump i =>
    match s.thread i with
    | .idle => some (s.bumpEpoch.goto i .reaping)
    | _ => none
  | .reapStore i =>
    match s.thread i with
    | .reaping => some { s.goto i .idle with owner := 0 }
    | _ => none
  | .die i => some (s.goto i .idle)

/-- No reap clears the record while a claim is in flight. -/
def Spares (s : OwnerSys ι) : Event ι → Prop
  | .reapStore _ => ∀ j, ¬ (s.thread j).InFlight
  | _ => True

/-- Fewer bumps than owner words have epochs, and one less. -/
def Fits (s : OwnerSys ι) : Prop := s.bumps < 2 ^ 48 - 1

end OwnerSys

/-! ## Owner words -/

theorem ownerWord_eq {slot : ℕ} (hs : slot < 65535) (epoch : ℕ) :
    ownerWord epoch slot = 2 ^ 16 * (epoch % 2 ^ 48) + (slot + 1) := by
  have hshift : epoch * 2 ^ 16 % 2 ^ 64 = 2 ^ 16 * (epoch % 2 ^ 48) := by omega
  rw [ownerWord, hshift, ← Nat.two_pow_add_eq_or_of_lt (by omega)]

theorem ownerWord_ne_zero {slot : ℕ} (hs : slot < 65535) (epoch : ℕ) :
    ownerWord epoch slot ≠ 0 := by
  rw [ownerWord_eq hs]
  omega

theorem ownerWord_ne_claiming {epoch slot : ℕ} (hs : slot < 65535) (he : epoch < 2 ^ 48 - 1) :
    ownerWord epoch slot ≠ claiming := by
  rw [ownerWord_eq hs, claiming]
  omega

/-- Acquisitions of different epochs have different words. -/
theorem ownerWord_inj {m n p q : ℕ} (hp : p < 65535) (hq : q < 65535) (hm : m < 2 ^ 48)
    (hn : n < 2 ^ 48) (h : ownerWord m p = ownerWord n q) : m = n ∧ p = q := by
  rw [ownerWord_eq hp, ownerWord_eq hq, Nat.mod_eq_of_lt hm, Nat.mod_eq_of_lt hn] at h
  omega

theorem slotOf_ownerWord {epoch slot : ℕ} (hs : slot < 65535) (he : epoch < 2 ^ 48 - 1) :
    slotOf (ownerWord epoch slot) = slot := by
  unfold slotOf
  rw [if_neg (not_or.mpr ⟨ownerWord_ne_zero hs _, ownerWord_ne_claiming hs he⟩), ownerWord_eq hs]
  omega

/-! ## What every access preserves -/

namespace OwnerSys

variable {ι : Type} {s s' : OwnerSys ι} {i : ι} {a : Acquisition}

/-- A thread has an admissible slot, or an acquisition. -/
def Has (s : OwnerSys ι) : ClaimStage → Prop
  | .claiming slot => slot < 65535
  | .bumped a | .held a => a ∈ s.acquired
  | _ => True

/-- The epoch counts the bumps, the acquisitions have rising epochs, and the record is free,
    mid-claim, or has the word of an acquisition. -/
structure Inv (s : OwnerSys ι) : Prop where
  epoch : s.epoch = s.bumps
  rising : s.acquired.Pairwise fun a b => b.epoch < a.epoch
  known : ∀ a ∈ s.acquired, a.epoch ≤ s.bumps ∧ a.slot < 65535
  owner : s.owner = 0 ∨ s.owner = claiming ∨ ∃ a ∈ s.acquired, s.owner = a.word
  threads : ∀ i, s.Has (s.thread i)

theorem Inv.init : (init : OwnerSys ι).Inv where
  epoch := rfl
  rising := .nil
  known := nofun
  owner := .inl rfl
  threads := fun _ => trivial

theorem Has.mono {c : ClaimStage} (h : s.Has c) (hsub : s.acquired ⊆ s'.acquired) : s'.Has c := by
  cases c with
  | idle | reaping => trivial
  | claiming slot => exact h
  | bumped a | held a => exact hsub h

/-- The word of an acquisition names its participant. -/
theorem Inv.names (h : s.Inv) (hfit : s.Fits) (ha : a ∈ s.acquired) :
    slotOf a.word = a.slot ∧ a.word ≠ 0 ∧ a.word ≠ claiming := by
  obtain ⟨hepoch, hslot⟩ := h.known a ha
  have hlt : a.epoch < 2 ^ 48 - 1 := lt_of_le_of_lt hepoch hfit
  exact ⟨slotOf_ownerWord hslot hlt, ownerWord_ne_zero hslot _, ownerWord_ne_claiming hslot hlt⟩

/-- Two acquisitions with one word are one. -/
theorem Inv.word_inj (h : s.Inv) (hfit : s.Fits) {b : Acquisition} (ha : a ∈ s.acquired)
    (hb : b ∈ s.acquired) (hw : a.word = b.word) : a = b := by
  obtain ⟨hea, hsa⟩ := h.known a ha
  obtain ⟨heb, hsb⟩ := h.known b hb
  have hbound : s.bumps < 2 ^ 48 - 1 := hfit
  obtain ⟨he, hs⟩ := ownerWord_inj hsa hsb (by omega) (by omega) hw
  cases a
  cases b
  simp only at he hs
  rw [he, hs]

/-- Only the owner word changes. -/
theorem Inv.setOwner (h : s.Inv) {w : ℕ}
    (hw : w = 0 ∨ w = claiming ∨ ∃ a ∈ s.acquired, w = a.word) : Inv { s with owner := w } where
  epoch := h.epoch
  rising := h.rising
  known := h.known
  owner := hw
  threads := fun j => (h.threads j).mono (List.Subset.refl _)

theorem Inv.bumpEpoch (h : s.Inv) (hfit : s.bumpEpoch.Fits) : s.bumpEpoch.Inv where
  epoch := by
    have hbound : s.bumps + 1 < 2 ^ 48 - 1 := hfit
    show (s.epoch + 1) % 2 ^ 64 = s.bumps + 1
    rw [h.epoch]
    omega
  rising := h.rising
  known := fun a ha => ⟨(h.known a ha).1.trans (Nat.le_succ _), (h.known a ha).2⟩
  owner := h.owner
  threads := fun j => (h.threads j).mono (List.Subset.refl _)

/-- The owner word after a release is the old one, or free. -/
theorem Inv.exchange (h : s.Inv) (w : ℕ) : (s.exchange w).Inv := by
  refine h.setOwner ?_
  split_ifs
  · exact .inl rfl
  · exact h.owner

section Step

variable [DecidableEq ι]

theorem Inv.goto (h : s.Inv) {c : ClaimStage} (hc : s.Has c) : (s.goto i c).Inv where
  epoch := h.epoch
  rising := h.rising
  known := h.known
  owner := h.owner
  threads := by
    intro j
    show s.Has (upd s.thread i c j)
    by_cases hj : j = i
    · subst hj
      rwa [upd_self]
    · rw [upd_of_ne _ _ hj]
      exact h.threads j

/-- A claim gets its epoch. -/
theorem Inv.acquire (h : s.Inv) (hfit : s.bumpEpoch.Fits) {slot : ℕ}
    (hslot : slot < 65535) (ha : a = ⟨(s.epoch + 1) % 2 ^ 64, slot⟩) :
    Inv { s.bumpEpoch.goto i (.bumped a) with acquired := a :: s.acquired } := by
  have hb := h.bumpEpoch hfit
  have hepoch : a.epoch = s.bumps + 1 := by
    rw [ha]
    exact hb.epoch
  refine ⟨hb.epoch, List.pairwise_cons.mpr ⟨fun b hb' => ?_, h.rising⟩, fun b hb' => ?_, ?_,
    fun j => ?_⟩
  · rw [hepoch]
    exact Nat.lt_succ_of_le (h.known b hb').1
  · rcases List.mem_cons.mp hb' with rfl | hb'
    · exact ⟨le_of_eq hepoch, by rw [ha]; exact hslot⟩
    · exact hb.known b hb'
  · rcases h.owner with h0 | hc | ⟨b, hb', hw⟩
    · exact .inl h0
    · exact .inr (.inl hc)
    · exact .inr (.inr ⟨b, List.mem_cons_of_mem _ hb', hw⟩)
  · show Has _ (upd s.thread i (.bumped a) j)
    by_cases hj : j = i
    · subst hj
      rw [upd_self]
      exact List.mem_cons_self
    · rw [upd_of_ne _ _ hj]
      exact (h.threads j).mono (List.subset_cons_self _ _)

/-- What a step can do. -/
inductive Moves (s : OwnerSys ι) : Event ι → OwnerSys ι → Prop
  /-- `EdgeAlreadyClaimed`. -/
  | held (i : ι) (slot : ℕ) : Moves s (.cas i slot) s
  | cas (i : ι) (slot : ℕ) (hfree : s.owner = 0) (hslot : slot < 65535) :
    Moves s (.cas i slot) { s.goto i (.claiming slot) with owner := claiming }
  | bump (i : ι) (slot : ℕ) (a : Acquisition) (hi : s.thread i = .claiming slot)
    (ha : a = ⟨(s.epoch + 1) % 2 ^ 64, slot⟩) :
    Moves s (.bump i) { s.bumpEpoch.goto i (.bumped a) with acquired := a :: s.acquired }
  | store (i : ι) (a : Acquisition) (hi : s.thread i = .bumped a) :
    Moves s (.store i) { s.goto i (.held a) with owner := a.word }
  | release (i : ι) (a : Acquisition) (hi : s.thread i = .held a) :
    Moves s (.release i) ((s.exchange a.word).goto i .idle)
  | reapBump (i : ι) (hi : s.thread i = .idle) : Moves s (.reapBump i) (s.bumpEpoch.goto i .reaping)
  | reapStore (i : ι) : Moves s (.reapStore i) { s.goto i .idle with owner := 0 }
  | die (i : ι) : Moves s (.die i) (s.goto i .idle)

theorem moves_of_step {e : Event ι} (h : step s e = some s') : s.Moves e s' := by
  cases e with
  | cas i slot =>
    simp only [step] at h
    split at h
    · split_ifs at h with hslot hfree
      · cases h
        exact .cas i slot hfree hslot
      · cases h
        exact .held i slot
    · cases h
  | bump i =>
    simp only [step] at h
    split at h
    · rename_i slot hi
      cases h
      exact .bump i slot _ hi rfl
    · cases h
  | store i =>
    simp only [step] at h
    split at h
    · rename_i a hi
      cases h
      exact .store i a hi
    · cases h
  | release i =>
    simp only [step] at h
    split at h
    · rename_i a hi
      cases h
      exact .release i a hi
    · cases h
  | reapBump i =>
    simp only [step] at h
    split at h
    · rename_i hi
      cases h
      exact .reapBump i hi
    · cases h
  | reapStore i =>
    simp only [step] at h
    split at h
    · cases h
      exact .reapStore i
    · cases h
  | die i =>
    cases h
    exact .die i

/-- A step bumps the epoch at most once. -/
theorem Moves.bumps {e : Event ι} (h : s.Moves e s') : s.bumps ≤ s'.bumps := by
  cases h with
  | bump | reapBump => exact Nat.le_succ _
  | held | cas | store | release | reapStore | die => exact le_rfl

theorem Moves.fits {e : Event ι} (h : s.Moves e s') (hfit : s'.Fits) : s.Fits :=
  lt_of_le_of_lt h.bumps hfit

/-- **Step lemma.** -/
theorem Inv.step {e : Event ι} (h : s.Inv) (hm : s.Moves e s') (hfit : s'.Fits) : s'.Inv := by
  cases hm with
  | held i slot => exact h
  | cas i slot hfree hslot =>
    exact (h.goto (i := i) (c := .claiming slot) hslot).setOwner (.inr (.inl rfl))
  | bump i slot a hi ha =>
    have hslot := h.threads i
    rw [hi] at hslot
    exact h.acquire hfit hslot ha
  | store i a hi =>
    have ha := h.threads i
    rw [hi] at ha
    exact (h.goto (i := i) (c := .held a) ha).setOwner (.inr (.inr ⟨a, ha, rfl⟩))
  | release i a hi => exact (h.exchange a.word).goto trivial
  | reapBump i hi => exact (h.bumpEpoch hfit).goto trivial
  | reapStore i => exact (h.goto (i := i) (c := .idle) trivial).setOwner (.inl rfl)
  | die i => exact h.goto trivial

/-- The epoch does not decrease. -/
theorem Inv.epoch_le {e : Event ι} (h : s.Inv) (hm : s.Moves e s') (hfit : s'.Fits) :
    s.epoch ≤ s'.epoch := by
  rw [h.epoch, (h.step hm hfit).epoch]
  exact hm.bumps

/-- A release frees the acquisition whose word it has, and no other. -/
theorem Inv.release (h : s.Inv) (hfit : s.Fits) {b : Acquisition} (hi : s.thread i = .held a)
    (hb : b ∈ s.acquired) (hne : b ≠ a) (howner : s.owner = b.word)
    (hstep : OwnerSys.step s (.release i) = some s') : s'.owner = s.owner := by
  have ha := h.threads i
  rw [hi] at ha
  cases moves_of_step hstep with
  | release _ a' hi' =>
    rw [hi] at hi'
    cases hi'
    refine if_neg fun hw => hne ?_
    exact h.word_inj hfit hb ha (howner.symm.trans hw)

end Step

/-! ## When no reap clears the record under a claim -/

/-- One claim is in flight at most, and marks the record; a record with the word of an
    acquisition has that of the newest. -/
structure Latest (s : OwnerSys ι) : Prop where
  alone : ∀ i j, (s.thread i).InFlight → (s.thread j).InFlight → i = j
  marked : ∀ i, (s.thread i).InFlight → s.owner = claiming
  newest : ∀ i a, s.thread i = .bumped a → s.acquired.head? = some a
  held : s.owner ≠ 0 → s.owner ≠ claiming → ∃ a, s.acquired.head? = some a ∧ s.owner = a.word

theorem Latest.init : (init : OwnerSys ι).Latest where
  alone := fun _ _ h => h.elim
  marked := fun _ h => h.elim
  newest := nofun
  held := fun h => absurd rfl h

/-- The record changes while no claim is in flight. -/
theorem Latest.setOwner (h : s.Latest) (hnone : ∀ j, ¬ (s.thread j).InFlight) {w : ℕ}
    (hw : w ≠ 0 → ∃ a, s.acquired.head? = some a ∧ w = a.word) :
    Latest { s with owner := w } where
  alone := h.alone
  marked := fun j hj => absurd hj (hnone j)
  newest := h.newest
  held := fun h0 _ => hw h0

section LatestStep

variable [DecidableEq ι]

/-- The threads in flight after a thread went to a stage that is not. -/
theorem inFlight_goto {c : ClaimStage} (hc : ¬ c.InFlight) {j : ι}
    (hj : ((s.goto i c).thread j).InFlight) :
    (s.thread j).InFlight ∧ (s.goto i c).thread j = s.thread j := by
  have hji : j ≠ i := by
    rintro rfl
    exact hc (by simpa [OwnerSys.goto] using hj)
  have hsame : (s.goto i c).thread j = s.thread j := upd_of_ne _ _ hji
  exact ⟨hsame ▸ hj, hsame⟩

theorem Latest.goto (h : s.Latest) {c : ClaimStage} (hc : ¬ c.InFlight) : (s.goto i c).Latest where
  alone := fun j k hj hk => h.alone j k (inFlight_goto hc hj).1 (inFlight_goto hc hk).1
  marked := fun j hj => h.marked j (inFlight_goto hc hj).1
  newest := by
    intro j a hj
    have hflight : ((s.goto i c).thread j).InFlight := by
      rw [hj]
      trivial
    exact h.newest j a ((inFlight_goto hc hflight).2 ▸ hj)
  held := h.held

/-- A free record is claimed. -/
theorem Latest.cas (h : s.Latest) (hfree : s.owner = 0) (slot : ℕ) :
    Latest { s.goto i (.claiming slot) with owner := claiming } := by
  have hnone : ∀ j, ¬ (s.thread j).InFlight := by
    intro j hj
    have hc := h.marked j hj
    rw [hfree] at hc
    exact absurd hc (by decide)
  have honly : ∀ j, (upd s.thread i (.claiming slot) j).InFlight → j = i := by
    intro j hj
    by_contra hji
    rw [upd_of_ne _ _ hji] at hj
    exact hnone j hj
  refine ⟨fun j k hj hk => (honly j hj).trans (honly k hk).symm, fun _ _ => rfl, ?_,
    fun _ hc => absurd rfl hc⟩
  intro j a hj
  change upd s.thread i (.claiming slot) j = .bumped a at hj
  obtain rfl := honly j (by rw [hj]; trivial)
  rw [upd_self] at hj
  cases hj

/-- The claim in flight gets its epoch. -/
theorem Latest.bump (h : s.Latest) (hi : (s.thread i).InFlight) :
    Latest { s.bumpEpoch.goto i (.bumped a) with acquired := a :: s.acquired } := by
  have honly : ∀ j, (upd s.thread i (.bumped a) j).InFlight → j = i := by
    intro j hj
    by_contra hji
    rw [upd_of_ne _ _ hji] at hj
    exact hji (h.alone j i hj hi)
  refine ⟨fun j k hj hk => (honly j hj).trans (honly k hk).symm, fun _ _ => h.marked i hi, ?_,
    fun _ hc => absurd (h.marked i hi) hc⟩
  intro j b hj
  change upd s.thread i (.bumped a) j = .bumped b at hj
  obtain rfl := honly j (by rw [hj]; trivial)
  rw [upd_self] at hj
  cases hj
  rfl

/-- **Step lemma.** -/
theorem Latest.step {e : Event ι} (h : s.Latest) (hinv : s.Inv) (hm : s.Moves e s')
    (hfit : s'.Fits) (hok : s.Spares e) : s'.Latest := by
  cases hm with
  | held i slot => exact h
  | cas i slot hfree hslot => exact h.cas hfree slot
  | bump i slot a hi ha => exact h.bump (by rw [hi]; trivial)
  | store i a hi =>
    have hflight : (s.thread i).InFlight := by
      rw [hi]
      trivial
    have hnone : ∀ j, ¬ ((s.goto i (.held a)).thread j).InFlight := by
      intro j hj
      obtain rfl := h.alone j i (inFlight_goto id hj).1 hflight
      exact absurd hj (by simp [OwnerSys.goto, ClaimStage.InFlight])
    exact (h.goto (i := i) (c := .held a) id).setOwner hnone fun _ => ⟨a, h.newest i a hi, rfl⟩
  | release i a hi =>
    have ha := hinv.threads i
    rw [hi] at ha
    have hword := (hinv.names hfit ha).2.2
    refine Latest.goto (s := s.exchange a.word) ⟨h.alone, fun j hj => ?_, h.newest, ?_⟩ id
    · show (if s.owner = a.word then 0 else s.owner) = claiming
      rw [if_neg (by rw [h.marked j hj]; exact hword.symm)]
      exact h.marked j hj
    · show (if s.owner = a.word then 0 else s.owner) ≠ 0 →
        (if s.owner = a.word then 0 else s.owner) ≠ claiming → ∃ b, s.acquired.head? = some b ∧
          (if s.owner = a.word then 0 else s.owner) = b.word
      split_ifs
      · exact fun h0 => absurd rfl h0
      · exact h.held
  | reapBump i hi => exact Latest.goto (s := s.bumpEpoch) ⟨h.alone, h.marked, h.newest, h.held⟩ id
  | reapStore i =>
    have hnone : ∀ j, ¬ ((s.goto i .idle).thread j).InFlight :=
      fun j hj => hok j (inFlight_goto id hj).1
    exact (h.goto (i := i) (c := .idle) id).setOwner hnone fun h0 => absurd rfl h0
  | die i => exact h.goto id

/-! ## Runs -/

/-- What holds of the owner words in a state. -/
structure Sound (s : OwnerSys ι) : Prop where
  /-- The owner words of different acquisitions are different. -/
  distinct : s.acquired.Pairwise fun a b => a.word ≠ b.word
  /-- `slot_of` recovers the participant. -/
  named : ∀ a ∈ s.acquired, slotOf a.word = a.slot
  holders : ∀ i a, s.thread i = .held a → a ∈ s.acquired
  record : s.owner = 0 ∨ s.owner = claiming ∨
    ∃ a ∈ s.acquired, s.owner = a.word ∧ slotOf s.owner = a.slot
  /-- A release frees no other acquisition. -/
  spared : ∀ i a b s', s.thread i = .held a → b ∈ s.acquired → b ≠ a → s.owner = b.word →
    OwnerSys.step s (.release i) = some s' → s'.owner = s.owner
  epoch : ∀ e s', OwnerSys.step s e = some s' → s'.Fits → s.epoch ≤ s'.epoch

/-- **Run lemma.** -/
theorem inv_of_reachable (hreach : Reachable step (init : OwnerSys ι) s) (hfit : s.Fits) :
    s.Inv := by
  have hpres : Preserved (OwnerSys.step (ι := ι)) anyStep fun s => s.Fits → s.Inv :=
    fun s e s' h _ hstep hfit' =>
      (h ((moves_of_step hstep).fits hfit')).step (moves_of_step hstep) hfit'
  exact hreach.invariant hpres (fun _ => Inv.init) hfit

/-- **Run lemma.** -/
theorem latest_of_runs (hrun : Runs step Spares (init : OwnerSys ι) s) (hfit : s.Fits) :
    s.Inv ∧ s.Latest := by
  have hpres : Preserved (OwnerSys.step (ι := ι)) Spares fun s => s.Fits → s.Inv ∧ s.Latest := by
    intro s e s' h hok hstep hfit'
    have hm := moves_of_step hstep
    obtain ⟨hinv, hlatest⟩ := h (hm.fits hfit')
    exact ⟨hinv.step hm hfit', hlatest.step hinv hm hfit' hok⟩
  exact hrun.invariant hpres (fun _ => ⟨Inv.init, Latest.init⟩) hfit

/-- **Main theorem.** In every state that fewer than `2 ^ 48 - 1` bumps of the epoch lead to,
    whatever the order of the accesses and deaths, the owner words of all acquisitions are
    different and name their participants, the record is free, mid-claim or has the word of
    an acquisition, no release frees another acquisition than its own, and the epoch does not
    decrease; and that acquisition is the latest one if no reap has cleared the record while
    a claim was in flight. -/
theorem owner_words_sound (s : OwnerSys ι) :
    (Reachable step init s → s.Fits → s.Sound) ∧
    (Runs step Spares init s → s.Fits → s.owner = 0 ∨ s.owner = claiming ∨
      ∃ a, s.acquired.head? = some a ∧ s.owner = a.word ∧ slotOf s.owner = a.slot) := by
  refine ⟨fun hreach hfit => ?_, fun hrun hfit => ?_⟩
  · have hinv := inv_of_reachable hreach hfit
    refine ⟨?_, fun a ha => (hinv.names hfit ha).1, fun i a hi => ?_, ?_, ?_, ?_⟩
    · refine hinv.rising.imp_of_mem fun ha hb hlt hw => ?_
      obtain rfl := hinv.word_inj hfit ha hb hw
      exact absurd hlt (lt_irrefl _)
    · have ha := hinv.threads i
      rw [hi] at ha
      exact ha
    · rcases hinv.owner with h0 | hc | ⟨a, ha, hw⟩
      · exact .inl h0
      · exact .inr (.inl hc)
      · exact .inr (.inr ⟨a, ha, hw, hw ▸ (hinv.names hfit ha).1⟩)
    · exact fun i a b s' hi hb hne howner hstep => hinv.release hfit hi hb hne howner hstep
    · exact fun e s' hstep hfit' => hinv.epoch_le (moves_of_step hstep) hfit'
  · obtain ⟨hinv, hlatest⟩ := latest_of_runs hrun hfit
    by_cases h0 : s.owner = 0
    · exact .inl h0
    by_cases hc : s.owner = claiming
    · exact .inr (.inl hc)
    obtain ⟨a, ha, hw⟩ := hlatest.held h0 hc
    have hmem : a ∈ s.acquired := List.mem_of_mem_head? ha
    exact .inr (.inr ⟨a, ha, hw, hw ▸ (hinv.names hfit hmem).1⟩)

end LatestStep

theorem spares_of_ne {e : Event ι} (h : ∀ i, e ≠ .reapStore i) : s.Spares e := by
  cases e with
  | reapStore i => exact absurd rfl (h i)
  | cas | bump | store | release | reapBump | die => trivial

/-- Thread `0` claims for slot `7` and dies; thread `1`, which was refused, claims for slot `5`
    after thread `2` has reaped the record. -/
theorem owner_words_sound_reaped : ∃ s : OwnerSys ℕ, s.acquired = [⟨3, 5⟩, ⟨1, 7⟩] ∧
    s.owner = ownerWord 3 5 ∧ s.Sound ∧ (s.owner = 0 ∨ s.owner = claiming ∨
      ∃ a, s.acquired.head? = some a ∧ s.owner = a.word ∧ slotOf s.owner = a.slot) := by
  have h1 : Runs step Spares (init : OwnerSys ℕ) _ :=
    .step (e := .cas 0 7) .refl (spares_of_ne nofun) rfl
  have h2 := h1.step (e := .cas 1 5) (spares_of_ne nofun) rfl
  have h3 := h2.step (e := .bump 0) (spares_of_ne nofun) rfl
  have h4 := h3.step (e := .store 0) (spares_of_ne nofun) rfl
  have h5 := h4.step (e := .reapBump 2) (spares_of_ne nofun) rfl
  have h6 := h5.step (e := .die 0) (spares_of_ne nofun) rfl
  have h7 := h6.step (e := .reapStore 2) (fun j hflight => ?_) rfl
  · have h8 := h7.step (e := .cas 1 5) (spares_of_ne nofun) rfl
    have h9 := h8.step (e := .bump 1) (spares_of_ne nofun) rfl
    have h10 := h9.step (e := .store 1) (spares_of_ne nofun) rfl
    have hfit : (3 : ℕ) < 2 ^ 48 - 1 := by decide
    exact ⟨_, rfl, rfl, (owner_words_sound _).1 (h10.mono fun _ _ _ => trivial) hfit,
      (owner_words_sound _).2 h10 hfit⟩
  · -- thread `0` is dead, and thread `2` is in its reap
    have hstage : (upd (upd (upd (upd (upd (fun _ => .idle) 0 (.claiming 7)) 0 (.bumped ⟨1, 7⟩)) 0
      (.held ⟨1, 7⟩)) 2 .reaping) 0 .idle j : ClaimStage).InFlight := hflight
    simp only [upd_apply] at hstage
    split_ifs at hstage <;> exact hstage

/-! ## A reap under a claim, and an epoch that has come round -/

/-- Slot `1` is reaped while its claim is in flight; slot `2` claims, and the store of slot
    `1` follows. -/
def overtakenEvents : List (Event ℕ) :=
  [.cas 1 1, .bump 1, .reapBump 3, .reapStore 3, .cas 2 2, .bump 2, .store 2, .store 1]

/-- Any number of reaps, by thread `1`. -/
theorem reaps {s : OwnerSys ℕ} (hidle : s.thread 1 = .idle) (hepoch : s.epoch < 2 ^ 64) (n : ℕ) :
    ∃ s', Reachable step s s' ∧ s'.thread = s.thread ∧ s'.acquired = s.acquired ∧
      s'.epoch = (s.epoch + n) % 2 ^ 64 ∧ (0 < n → s'.owner = 0) := by
  induction n with
  | zero =>
    exact ⟨s, .refl, rfl, rfl, (Nat.mod_eq_of_lt hepoch).symm, fun h => absurd h (by decide)⟩
  | succ n ih =>
    obtain ⟨s', hreach, hthread, hacquired, hepoch', -⟩ := ih
    have hidle' : s'.thread 1 = .idle := by rw [hthread, hidle]
    have h1 : step s' (.reapBump 1) = some (s'.bumpEpoch.goto 1 .reaping) := by
      simp only [step, hidle']
    have h2 : step (s'.bumpEpoch.goto 1 .reaping) (.reapStore 1) =
        some { (s'.bumpEpoch.goto 1 .reaping).goto 1 .idle with owner := 0 } := rfl
    refine ⟨_, (hreach.step trivial h1).step trivial h2, ?_, hacquired, ?_, fun _ => rfl⟩
    · show upd (upd s'.thread 1 .reaping) 1 .idle = s.thread
      rw [upd_upd, ← hthread]
      funext j
      by_cases hj : j = 1
      · subst hj
        rw [upd_self, hidle']
      · rw [upd_of_ne _ _ hj]
    · show (s'.epoch + 1) % 2 ^ 64 = (s.epoch + (n + 1)) % 2 ^ 64
      rw [hepoch']
      omega

/-- After the overtaken store the record names slot `1`, while slot `2` has the latest
    acquisition. After `2 ^ 48 - 1` reaps the second acquisition of slot `0` has the word of
    the first, and the release of the first frees the second. -/
theorem owner_words_fail :
    (∃ s : OwnerSys ℕ, Reachable step init s ∧ s.acquired = [⟨3, 2⟩, ⟨1, 1⟩] ∧
      slotOf s.owner = 1) ∧
    ∃ s s' : OwnerSys ℕ, Reachable step init s ∧ s.acquired = [⟨2 ^ 48 + 1, 0⟩, ⟨1, 0⟩] ∧
      s.thread 0 = .held ⟨1, 0⟩ ∧ s.owner = ownerWord (2 ^ 48 + 1) 0 ∧
      ownerWord (2 ^ 48 + 1) 0 = ownerWord 1 0 ∧
      step s (.release 0) = some s' ∧ s'.owner = 0 := by
  refine ⟨?_, ?_⟩
  · obtain ⟨s, hs, hacquired, howner⟩ : ∃ s,
        execAll step (init : OwnerSys ℕ) overtakenEvents = some s ∧
        s.acquired = [⟨3, 2⟩, ⟨1, 1⟩] ∧ s.owner = ownerWord 1 1 := ⟨_, rfl, rfl, rfl⟩
    refine ⟨s, reachable_of_execAll hs, hacquired, ?_⟩
    rw [howner]
    decide
  · obtain ⟨s₁, hs₁, hthread₁, hacquired₁, hepoch₁⟩ : ∃ s, execAll step (init : OwnerSys ℕ)
        [.cas 0 0, .bump 0, .store 0] = some s ∧ s.thread = upd (upd (upd (fun _ => .idle) 0
          (.claiming 0)) 0 (.bumped ⟨1, 0⟩)) 0 (.held ⟨1, 0⟩) ∧ s.acquired = [⟨1, 0⟩] ∧
        s.epoch = 1 := ⟨_, rfl, rfl, rfl, rfl⟩
    obtain ⟨s₂, hreach₂, hthread₂, hacquired₂, hepoch₂, howner₂⟩ :=
      reaps (s := s₁) (by rw [hthread₁]; rfl) (by rw [hepoch₁]; decide) (2 ^ 48 - 1)
    have hfree := howner₂ (by decide)
    rw [hthread₁] at hthread₂
    rw [hacquired₁] at hacquired₂
    rw [hepoch₁, show (1 + (2 ^ 48 - 1)) % 2 ^ 64 = 2 ^ 48 by decide] at hepoch₂
    -- the second claim of slot `0`, by thread `2`
    obtain ⟨owner, epoch, thread, bumps, acquired⟩ := s₂
    subst hfree hthread₂ hacquired₂ hepoch₂
    have h3 := ((reachable_of_execAll hs₁).trans hreach₂).step (e := .cas 2 0) trivial rfl
    have h4 := h3.step (e := .bump 2) trivial rfl
    have h5 := h4.step (e := .store 2) trivial rfl
    have hsame : ownerWord (2 ^ 48 + 1) 0 = ownerWord 1 0 := by decide
    exact ⟨_, _, h5, rfl, rfl, rfl, hsame, rfl, if_pos hsame⟩

end OwnerSys

end TfTree
