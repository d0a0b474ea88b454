import Mathlib
import TfTree.Shm.Identity

/-!
# Registrations in the participant table

`register`, `register_at`, `fill_slot` and `release` of `tf_tree_core/src/participant.rs`,
over a table of any capacity and any number of threads, each access a step of its own. A
thread may crash between any two accesses, and a pair of a slot and an incarnation may be
released late and again.

Results:
* `Inv.step`: what a step makes of the records and of the registrations.
* `Inv.release`: only the registration that holds a slot frees it.
* `registrations_exclusive`: in every run with fewer than `2 ^ 30` reuses of a slot, a live
  slot is held by the last registration that filled it, and by no other.
-/

namespace TfTree

open Conc

/-! ## Model of `participant.rs` -/

/-- `ParticipantError`. -/
inductive ParticipantError where
  | tableFull
  | slotTaken (slot : ℕ)
  | slotOutOfRange (slot capacity : ℕ)
  deriving DecidableEq, Repr

/-- Where a thread is in `fill_slot` after its compare-and-swap. -/
inductive FillStage where
  | reserved
  | pidStored
  | startStored
  | attachedStored
  | heartbeatStored
  /-- `incarnation.fetch_add` has returned; the live word is not stored. -/
  | counted (incarnation : ℕ)
  deriving DecidableEq, Repr

/-- Where a thread is in a call. -/
inductive CallPhase where
  | idle
  /-- The top of the loop of `register`, at a slot. -/
  | scanning (slot : ℕ) (r : Registrant)
  | filling (slot : ℕ) (stage : FillStage) (r : Registrant)
  | registered (slot incarnation : ℕ)
  | failed (e : ParticipantError)
  | crashed
  deriving DecidableEq

/-- The thread is in no call. -/
def CallPhase.Ready : CallPhase → Bool
  | .idle | .registered _ _ | .failed _ => true
  | _ => false

/-- A registration that `fill_slot` has published. -/
@[ext] structure Registration (ι : Type) where
  owner : ι
  slot : ℕ
  incarnation : ℕ
  registrant : Registrant
  deriving DecidableEq

/-- The records of an arena and the threads of its processes. `filled` and `released` are
auxiliary: the registrations that were published, the last one first, and those of them
that `release` was called for. -/
structure Table (ι : Type) where
  /-- `max_participants` of the header. -/
  capacity : Fin (2 ^ 32)
  record : ℕ → ParticipantRecord
  thread : ι → CallPhase
  filled : List (Registration ι)
  released : List (Registration ι)

namespace Table

variable {ι : Type}

/-- A fresh arena. -/
def init (ι : Type) (capacity : Fin (2 ^ 32)) : Table ι where
  capacity := capacity
  record := fun _ => ⟨FREE, 0, 0, 0, 0, 0⟩
  thread := fun _ => .idle
  filled := []
  released := []

inductive Event (ι : Type) where
  /-- `register` is called. -/
  | register (i : ι) (r : Registrant)
  /-- A turn of the loop of `register`: the compare-and-swap of `fill_slot`, or the end. -/
  | scan (i : ι)
  /-- `register_at` is called: the check of the slot and the compare-and-swap. -/
  | registerAt (i : ι) (slot : ℕ) (r : Registrant)
  /-- The next access of `fill_slot`. -/
  | fill (i : ι)
  /-- `release`, with what a registration returned. -/
  | release (g : Registration ι)
  /-- The process of a thread is killed. -/
  | crash (i : ι)

section Model

variable [DecidableEq ι] (s : Table ι) (i : ι)

/-- The thread goes to a phase. -/
def goto (p : CallPhase) : Table ι := { s with thread := upd s.thread i p }

/-- The compare-and-swap of `fill_slot` (lines 138–140), or `failed`. -/
def reserve (slot : ℕ) (r : Registrant) (failed : CallPhase) : Table ι :=
  if (s.record slot).state = FREE then
    { s.goto i (.filling slot .reserved r) with
      record := upd s.record slot { s.record slot with state := RESERVED } }
  else s.goto i failed

/-- The accesses of `fill_slot` after it (lines 142–148). -/
def fill (slot : ℕ) (r : Registrant) : FillStage → Table ι
  | .reserved =>
    { s.goto i (.filling slot .pidStored r) with
      record := upd s.record slot { s.record slot with pid := r.pid } }
  | .pidStored =>
    { s.goto i (.filling slot .startStored r) with
      record := upd s.record slot { s.record slot with startTime := r.startTime } }
  | .startStored =>
    { s.goto i (.filling slot .attachedStored r) with
      record := upd s.record slot { s.record slot with attachedAtNanos := r.now } }
  | .attachedStored =>
    { s.goto i (.filling slot .heartbeatStored r) with
      record := upd s.record slot { s.record slot with heartbeat := 0 } }
  | .heartbeatStored =>
    let incarnation := ((s.record slot).incarnation + 1) % 2 ^ 64
    { s.goto i (.filling slot (.counted incarnation) r) with
      record := upd s.record slot { s.record slot with incarnation := incarnation } }
  | .counted incarnation =>
    { s.goto i (.registered slot incarnation) with
      record := upd s.record slot { s.record slot with state := liveWord incarnation }
      filled := ⟨i, slot, incarnation, r⟩ :: s.filled }

/-- The check of the slot and the compare-and-swap of `release` (lines 223–231). -/
def exchange (slot incarnation : ℕ) : Table ι :=
  if slot < s.capacity then
    if (s.record slot).state = liveWord incarnation then
      { s with record := upd s.record slot { s.record slot with state := FREE } }
    else s
  else s

/-- One step. -/
def step (s : Table ι) : Event ι → Option (Table ι)
  | .register i r => if (s.thread i).Ready then some (s.goto i (.scanning 0 r)) else none
  | .scan i =>
    match s.thread i with
    | .scanning k r =>
      if k < s.capacity then some (s.reserve i k r (.scanning (k + 1) r))
      else some (s.goto i (.failed .tableFull))
    | _ => none
  | .registerAt i k r =>
    if (s.thread i).Ready then
      if k < s.capacity then some (s.reserve i k r (.failed (.slotTaken k)))
      else some (s.goto i (.failed (.slotOutOfRange k s.capacity)))
    else none
  | .fill i =>
    match s.thread i with
    | .filling k stage r => some (s.fill i k r stage)
    | _ => none
  | .release g =>
    if g ∈ s.filled then some { s.exchange g.slot g.incarnation with released := g :: s.released }
    else none
  | .crash i => some (s.goto i .crashed)

end Model

/-- The registrations that have filled a slot, the last one first. -/
def of (s : Table ι) (k : ℕ) : List (Registration ι) := s.filled.filter fun g => g.slot = k

/-- The registration has a slot: it was published, and its registrant has not released it. -/
def Holds (s : Table ι) (g : Registration ι) : Prop := g ∈ s.filled ∧ g ∉ s.released

/-- A slot is counted up only while it was filled fewer than `2 ^ 30` times. -/
def FewReuses (s : Table ι) : Event ι → Prop
  | .fill i => ∀ k r, s.thread i = .filling k .heartbeatStored r → (s.of k).length < 2 ^ 30
  | _ => True

/-! ## Slots -/

/-- The fields of a record that a registrant has stored so far. -/
def Stored (r : Registrant) (record : ParticipantRecord) : FillStage → Prop
  | .reserved => True
  | .pidStored => record.pid = r.pid
  | .startStored => record.pid = r.pid ∧ record.startTime = r.startTime
  | .attachedStored | .heartbeatStored | .counted _ =>
    record.pid = r.pid ∧ record.startTime = r.startTime ∧ record.attachedAtNanos = r.now

/-- Whether the incarnation is counted up already. -/
def bumped : FillStage → ℕ
  | .counted _ => 1
  | _ => 0

/-- A slot that a thread fills: reserved, with the fields stored so far. -/
structure BeingFilled (record : ParticipantRecord) (fills : ℕ) (stage : FillStage)
    (r : Registrant) : Prop where
  reserved : record.state = RESERVED
  stored : Stored r record stage
  incarnation : record.incarnation = fills + bumped stage
  few : fills + bumped stage ≤ 2 ^ 30
  value : ∀ n, stage = .counted n → n = record.incarnation

/-- Who has a slot, of the registrations that filled it. -/
inductive Occupancy (record : ParticipantRecord) (released : List (Registration ι)) :
    List (Registration ι) → Prop where
  | none {of : List (Registration ι)} : record.state = FREE ∨ record.state = RESERVED →
      (∀ g ∈ of, g ∈ released) → Occupancy record released of
  | held {g : Registration ι} {earlier : List (Registration ι)} :
      record.state = liveWord g.incarnation → record.incarnation = g.incarnation →
      Stored g.registrant record (.counted g.incarnation) → g ∉ released →
      (∀ h ∈ earlier, h ∈ released) → Occupancy record released (g :: earlier)

/-- What a slot keeps: its registrations are numbered, and the last one may have it. -/
structure SlotInv (record : ParticipantRecord) (released of : List (Registration ι)) : Prop where
  numbered : of.map Registration.incarnation = (List.range' 1 of.length).reverse
  few : of.length ≤ 2 ^ 30
  counted : record.state ≠ RESERVED → record.incarnation = of.length
  occupancy : Occupancy record released of

/-- Two incarnations of a slot that is not reused too often have different words. -/
theorem liveWord_inj_pos {m n : ℕ} (hm : 1 ≤ m ∧ m ≤ 2 ^ 30) (hn : 1 ≤ n ∧ n ≤ 2 ^ 30)
    (h : liveWord m = liveWord n) : m = n := by
  rw [liveWord_eq, liveWord_eq] at h
  omega

section Slot

variable {record : ParticipantRecord} {released of : List (Registration ι)} {g h : Registration ι}

theorem SlotInv.range (hs : SlotInv record released of) (hg : g ∈ of) :
    1 ≤ g.incarnation ∧ g.incarnation ≤ of.length := by
  have hmem : g.incarnation ∈ of.map Registration.incarnation := List.mem_map_of_mem hg
  rw [hs.numbered, List.mem_reverse, List.mem_range'_1] at hmem
  omega

/-- The incarnation names the registration. -/
theorem SlotInv.unique (hs : SlotInv record released of) (hg : g ∈ of) (hh : h ∈ of)
    (heq : g.incarnation = h.incarnation) : g = h := by
  have hnodup : (of.map Registration.incarnation).Nodup := by
    rw [hs.numbered, List.nodup_reverse]
    exact List.nodup_range'
  exact List.inj_on_of_nodup_map hnodup hg hh heq

/-- Later registrations have larger incarnations. -/
theorem SlotInv.increasing (hs : SlotInv record released of) :
    of.Pairwise fun g h => h.incarnation < g.incarnation := by
  have hpair : (of.map Registration.incarnation).Pairwise fun m n => n < m := by
    rw [hs.numbered, List.pairwise_reverse]
    exact List.pairwise_lt_range'
  exact List.pairwise_map.mp hpair

/-- A slot that is not live belongs to nobody. -/
theorem SlotInv.all_released (hs : SlotInv record released of)
    (hstate : record.state = FREE ∨ record.state = RESERVED) : ∀ g ∈ of, g ∈ released := by
  cases hs.occupancy with
  | none _ hall => exact hall
  | held hword _ _ _ _ =>
    rw [hword] at hstate
    rcases hstate with hfree | hreserved
    · exact absurd hfree (liveWord_ne_free _)
    · exact absurd hreserved (liveWord_ne_reserved _)

/-- A slot that nobody has may be reserved, and its fields stored. -/
theorem SlotInv.reserve (hs : SlotInv record released of) {record' : ParticipantRecord}
    (hstate : record.state = FREE ∨ record.state = RESERVED)
    (hstate' : record'.state = RESERVED) : SlotInv record' released of where
  numbered := hs.numbered
  few := hs.few
  counted := fun hne => absurd hstate' hne
  occupancy := .none (.inr hstate') (hs.all_released hstate)

/-- The live word makes the registrant the holder. -/
theorem SlotInv.publish (hs : SlotInv record released of) {record' : ParticipantRecord}
    (hstate : record.state = RESERVED) (hfew : of.length + 1 ≤ 2 ^ 30)
    (hinc : g.incarnation = of.length + 1) (hstate' : record'.state = liveWord g.incarnation)
    (hinc' : record'.incarnation = g.incarnation)
    (hstored : Stored g.registrant record' (.counted g.incarnation)) (hg : g ∉ released) :
    SlotInv record' released (g :: of) where
  numbered := by
    rw [List.map_cons, hs.numbered, List.length_cons, hinc, List.range'_concat,
      List.reverse_concat]
    simp [Nat.add_comm]
  few := hfew
  counted := fun _ => by rw [hinc', hinc, List.length_cons]
  occupancy := .held hstate' hinc' hstored hg (hs.all_released (.inr hstate))

/-- A release that is not of the holder. -/
theorem SlotInv.cons (hs : SlotInv record released of) (hg : g ∈ of → g ∈ released) :
    SlotInv record (g :: released) of where
  numbered := hs.numbered
  few := hs.few
  counted := hs.counted
  occupancy := by
    cases hs.occupancy with
    | none hstate hall => exact .none hstate fun h hh => List.mem_cons_of_mem g (hall h hh)
    | held hword hinc hstored hfresh hearlier =>
      refine .held hword hinc hstored ?_ fun h hh => List.mem_cons_of_mem g (hearlier h hh)
      intro hmem
      rcases List.mem_cons.mp hmem with rfl | hmem
      · exact hfresh (hg List.mem_cons_self)
      · exact hfresh hmem

/-- The compare-and-swap of `release` succeeds for the holder, and frees the slot. -/
theorem SlotInv.release (hs : SlotInv record released of) (hg : g ∈ of)
    (hword : record.state = liveWord g.incarnation) :
    g ∉ released ∧ SlotInv { record with state := FREE } (g :: released) of := by
  have hrange := hs.range hg
  have hcount := hs.counted (by rw [hword]; exact liveWord_ne_reserved _)
  have hfew := hs.few
  suffices h : g ∉ released ∧ ∀ h ∈ of, h ∈ g :: released from
    ⟨h.1, hs.numbered, hs.few, fun _ => hcount, .none (.inl rfl) h.2⟩
  cases hs.occupancy with
  | none hstate hall =>
    rw [hword] at hstate
    rcases hstate with hfree | hreserved
    · exact absurd hfree (liveWord_ne_free _)
    · exact absurd hreserved (liveWord_ne_reserved _)
  | @held h earlier hword' _ _ hfresh hearlier =>
    have hrange' := hs.range (g := h) List.mem_cons_self
    have hinc : g.incarnation = h.incarnation := by
      apply liveWord_inj_pos (by omega) (by omega)
      rw [← hword, ← hword']
    have hgh := hs.unique hg List.mem_cons_self hinc
    subst hgh
    refine ⟨hfresh, fun h hh => ?_⟩
    rcases List.mem_cons.mp hh with rfl | hh
    · exact List.mem_cons_self
    · exact List.mem_cons_of_mem _ (hearlier h hh)

/-- The compare-and-swap of `release` fails for every other registration. -/
theorem SlotInv.mem_released (hs : SlotInv record released of) (hg : g ∈ of)
    (hword : record.state ≠ liveWord g.incarnation) : g ∈ released := by
  cases hs.occupancy with
  | none _ hall => exact hall g hg
  | held hword' _ _ _ hearlier =>
    rcases List.mem_cons.mp hg with rfl | hg
    · exact absurd hword' hword
    · exact hearlier g hg

/-- The holder is the last registration, and the record is its own. -/
theorem SlotInv.holder (hs : SlotInv record released of) (hg : g ∈ of) (hfresh : g ∉ released) :
    of.head? = some g ∧ record.state = liveWord g.incarnation ∧
      record.identity = ⟨g.registrant.pid, g.registrant.startTime, g.incarnation⟩ := by
  cases hs.occupancy with
  | none _ hall => exact absurd (hall g hg) hfresh
  | held hword hinc hstored _ hearlier =>
    rcases List.mem_cons.mp hg with rfl | hg
    · refine ⟨rfl, hword, ?_⟩
      rw [ParticipantRecord.identity, hstored.1, hstored.2.1, hinc]
    · exact absurd (hearlier g hg) hfresh

/-- A live slot has a holder. -/
theorem SlotInv.live (hs : SlotInv record released of) (hlive : stateOf record.state = LIVE) :
    ∃ g ∈ of, g ∉ released := by
  cases hs.occupancy with
  | none hstate _ =>
    rcases hstate with hfree | hreserved
    · rw [hfree] at hlive
      exact absurd hlive (by decide)
    · rw [hreserved] at hlive
      exact absurd hlive (by decide)
  | @held g earlier _ _ _ hfresh _ => exact ⟨g, List.mem_cons_self, hfresh⟩

end Slot

theorem mem_of {s : Table ι} {k : ℕ} {g : Registration ι} :
    g ∈ s.of k ↔ g ∈ s.filled ∧ g.slot = k := by
  rw [of, List.mem_filter, decide_eq_true_iff]

/-! ## The table -/

/-- One thread fills a slot at most, and every slot keeps its invariant. -/
structure Inv (s : Table ι) : Prop where
  alone : ∀ i j k p q r r', s.thread i = .filling k p r → s.thread j = .filling k q r' → i = j
  filling : ∀ i k p r, s.thread i = .filling k p r →
    BeingFilled (s.record k) (s.of k).length p r
  slot : ∀ k, SlotInv (s.record k) s.released (s.of k)
  released_sub : s.released ⊆ s.filled
  filling_lt : ∀ i k p r, s.thread i = .filling k p r → k < s.capacity
  filled_lt : ∀ g ∈ s.filled, g.slot < s.capacity

theorem Inv.init (capacity : Fin (2 ^ 32)) : (init ι capacity).Inv where
  alone := fun _ _ _ _ _ _ _ h => nomatch h
  filling := fun _ _ _ _ h => nomatch h
  slot := fun _ => ⟨rfl, Nat.zero_le _, fun _ => rfl, .none (.inl rfl) fun _ hg => nomatch hg⟩
  released_sub := fun _ hg => nomatch hg
  filling_lt := fun _ _ _ _ h => nomatch h
  filled_lt := fun _ hg => nomatch hg

section Steps

variable [DecidableEq ι] {s s' : Table ι} {i : ι} {k : ℕ} {r : Registrant}

/-- A thread goes to a phase in which it fills no slot. -/
theorem Inv.goto (h : s.Inv) {phase : CallPhase}
    (hphase : ∀ k p r, phase ≠ .filling k p r) : (s.goto i phase).Inv := by
  have hwas : ∀ j k p r, upd s.thread i phase j = .filling k p r →
      s.thread j = .filling k p r := by
    intro j k p r hj
    by_cases hji : j = i
    · subst hji
      rw [upd_self] at hj
      exact absurd hj (hphase k p r)
    · rwa [upd_of_ne _ _ hji] at hj
  exact ⟨fun i j k p q r r' hi hj => h.alone i j k p q r r' (hwas i k p r hi) (hwas j k q r' hj),
    fun j k p r hj => h.filling j k p r (hwas j k p r hj), h.slot, h.released_sub,
    fun j k p r hj => h.filling_lt j k p r (hwas j k p r hj), h.filled_lt⟩

/-- A step of one thread on one slot that it fills afterwards. -/
theorem Inv.on_slot (h : s.Inv) {p : FillStage} {record : ParticipantRecord}
    (hk : k < s.capacity) (hothers : ∀ j p' r', s.thread j = .filling k p' r' → j = i)
    (hslot : SlotInv record s.released (s.of k))
    (hfill : BeingFilled record (s.of k).length p r) :
    Inv { s.goto i (.filling k p r) with record := upd s.record k record } := by
  -- the thread fills `k`; another thread fills what it filled before, which is not `k`
  have hwas : ∀ j k' p' r', upd s.thread i (.filling k p r) j = .filling k' p' r' →
      (j = i ∧ k' = k ∧ p' = p ∧ r' = r) ∨ (k' ≠ k ∧ s.thread j = .filling k' p' r') := by
    intro j k' p' r' hj
    by_cases hji : j = i
    · subst hji
      rw [upd_self] at hj
      cases hj
      exact .inl ⟨rfl, rfl, rfl, rfl⟩
    · rw [upd_of_ne _ _ hji] at hj
      refine .inr ⟨?_, hj⟩
      rintro rfl
      exact hji (hothers j p' r' hj)
  refine ⟨fun j j' k' p' q r' r'' hj hj' => ?_, fun j k' p' r' hj => ?_, fun k' => ?_,
    h.released_sub, fun j k' p' r' hj => ?_, h.filled_lt⟩
  · rcases hwas j k' p' r' hj with ⟨rfl, rfl, -, -⟩ | ⟨hne, hj⟩
    · rcases hwas j' k' q r'' hj' with ⟨rfl, -, -, -⟩ | ⟨hne, -⟩
      · rfl
      · exact absurd rfl hne
    · rcases hwas j' k' q r'' hj' with ⟨-, rfl, -, -⟩ | ⟨-, hj'⟩
      · exact absurd rfl hne
      · exact h.alone j j' k' p' q r' r'' hj hj'
  · change BeingFilled (upd s.record k record k') (s.of k').length p' r'
    rcases hwas j k' p' r' hj with ⟨-, rfl, rfl, rfl⟩ | ⟨hne, hj⟩
    · rw [upd_self]
      exact hfill
    · rw [upd_of_ne _ _ hne]
      exact h.filling j k' p' r' hj
  · change SlotInv (upd s.record k record k') s.released (s.of k')
    by_cases hkk : k' = k
    · subst hkk
      rw [upd_self]
      exact hslot
    · rw [upd_of_ne _ _ hkk]
      exact h.slot k'
  · rcases hwas j k' p' r' hj with ⟨-, rfl, -, -⟩ | ⟨-, hj⟩
    · exact hk
    · exact h.filling_lt j k' p' r' hj

/-- The compare-and-swap of `fill_slot`. -/
theorem Inv.reserve (h : s.Inv) (hk : k < s.capacity) {failed : CallPhase}
    (hfailed : ∀ k p r, failed ≠ .filling k p r) : (s.reserve i k r failed).Inv := by
  rw [Table.reserve]
  split_ifs with hfree
  · refine h.on_slot hk ?_ ((h.slot k).reserve (.inl hfree) rfl) ?_
    · intro j p' r' hj
      have hreserved := (h.filling j k p' r' hj).reserved
      rw [hfree] at hreserved
      cases hreserved
    · have hcount := (h.slot k).counted (by rw [hfree]; decide)
      exact ⟨rfl, trivial, hcount, (h.slot k).few, by rintro _ ⟨⟩⟩
  · exact h.goto hfailed

/-- The live word of `fill_slot`. -/
theorem Inv.publish (h : s.Inv) {incarnation : ℕ}
    (hi : s.thread i = .filling k (.counted incarnation) r) :
    (s.fill i k r (.counted incarnation)).Inv := by
  have hfill := h.filling i k _ r hi
  have hinc : incarnation = (s.of k).length + 1 :=
    (hfill.value incarnation rfl).trans hfill.incarnation
  have hfresh : (⟨i, k, incarnation, r⟩ : Registration ι) ∉ s.released := by
    intro hmem
    have hof : (⟨i, k, incarnation, r⟩ : Registration ι) ∈ s.of k :=
      mem_of.mpr ⟨h.released_sub hmem, rfl⟩
    have hrange := (h.slot k).range hof
    change 1 ≤ incarnation ∧ incarnation ≤ _ at hrange
    omega
  have hof : ∀ k', (s.fill i k r (.counted incarnation)).of k' =
      if k' = k then ⟨i, k, incarnation, r⟩ :: s.of k else s.of k' := by
    intro k'
    change (_ :: s.filled).filter _ = _
    by_cases hk : k' = k
    · rw [if_pos hk, List.filter_cons_of_pos (by simp [hk]), hk]
      rfl
    · rw [if_neg hk, List.filter_cons_of_neg (by simpa using Ne.symm hk)]
      rfl
  have hwas : ∀ j k' p' r', (s.fill i k r (.counted incarnation)).thread j =
      .filling k' p' r' → k' ≠ k ∧ s.thread j = .filling k' p' r' := by
    intro j k' p' r' hj
    change upd s.thread i (.registered k incarnation) j = _ at hj
    by_cases hji : j = i
    · subst hji
      rw [upd_self] at hj
      cases hj
    · rw [upd_of_ne _ _ hji] at hj
      refine ⟨?_, hj⟩
      rintro rfl
      exact hji (h.alone j i k' p' _ r' r hj hi)
  refine ⟨fun j j' k' p q r₁ r₂ hj hj' => ?_, fun j k' p' r' hj => ?_, fun k' => ?_, ?_,
    fun j k' p' r' hj => h.filling_lt j k' p' r' (hwas j k' p' r' hj).2, fun g hg => ?_⟩
  · exact h.alone j j' k' p q r₁ r₂ (hwas j k' p r₁ hj).2 (hwas j' k' q r₂ hj').2
  · obtain ⟨hne, hj⟩ := hwas j k' p' r' hj
    rw [hof, if_neg hne]
    change BeingFilled (upd s.record k _ k') _ p' r'
    rw [upd_of_ne _ _ hne]
    exact h.filling j k' p' r' hj
  · rw [hof]
    change SlotInv (upd s.record k _ k') s.released _
    by_cases hk : k' = k
    · subst hk
      rw [if_pos rfl, upd_self]
      exact (h.slot k').publish hfill.reserved hfill.few hinc rfl
        (hfill.value incarnation rfl).symm hfill.stored hfresh
    · rw [if_neg hk, upd_of_ne _ _ hk]
      exact h.slot k'
  · exact fun g hg => List.mem_cons_of_mem _ (h.released_sub hg)
  · rcases List.mem_cons.mp hg with rfl | hg
    · exact h.filling_lt i k _ r hi
    · exact h.filled_lt g hg

/-- The accesses of `fill_slot`. -/
theorem Inv.fill (h : s.Inv) {stage : FillStage} (hi : s.thread i = .filling k stage r)
    (hfew : stage = .heartbeatStored → (s.of k).length < 2 ^ 30) :
    (s.fill i k r stage).Inv := by
  have hfill := h.filling i k stage r hi
  have hothers : ∀ j p' r', s.thread j = .filling k p' r' → j = i :=
    fun j p' r' hj => h.alone j i k p' stage r' r hj hi
  have hreserve : ∀ record : ParticipantRecord, record.state = RESERVED →
      SlotInv record s.released (s.of k) :=
    fun record hrecord => (h.slot k).reserve (.inr hfill.reserved) hrecord
  have hk := h.filling_lt i k stage r hi
  obtain ⟨hreserved, hstored, hinc, hle, -⟩ := hfill
  cases stage with
  | reserved =>
    exact h.on_slot hk hothers (hreserve _ hreserved)
      ⟨hreserved, rfl, hinc, hle, fun _ hp => nomatch hp⟩
  | pidStored =>
    exact h.on_slot hk hothers (hreserve _ hreserved)
      ⟨hreserved, ⟨hstored, rfl⟩, hinc, hle, fun _ hp => nomatch hp⟩
  | startStored =>
    exact h.on_slot hk hothers (hreserve _ hreserved)
      ⟨hreserved, ⟨hstored.1, hstored.2, rfl⟩, hinc, hle, fun _ hp => nomatch hp⟩
  | attachedStored =>
    exact h.on_slot hk hothers (hreserve _ hreserved)
      ⟨hreserved, hstored, hinc, hle, fun _ hp => nomatch hp⟩
  | heartbeatStored =>
    have hfew := hfew rfl
    change _ = (s.of k).length + 0 at hinc
    -- the counter is far from its end
    have hcount : ((s.record k).incarnation + 1) % 2 ^ 64 = (s.of k).length + 1 := by omega
    refine h.on_slot hk hothers (hreserve _ hreserved) ⟨hreserved, hstored, hcount, ?_, ?_⟩
    · change _ + 1 ≤ _
      omega
    · intro n hn
      cases hn
      rfl
  | counted incarnation => exact h.publish hi

omit [DecidableEq ι] in
/-- `release` of a registration that was published. -/
theorem Inv.release (h : s.Inv) {g : Registration ι} (hg : g ∈ s.filled) :
    Inv { s.exchange g.slot g.incarnation with released := g :: s.released } := by
  have hof : g ∈ s.of g.slot := mem_of.mpr ⟨hg, rfl⟩
  have hsub : g :: s.released ⊆ s.filled := by
    intro g' hg'
    rcases List.mem_cons.mp hg' with rfl | hg'
    · exact hg
    · exact h.released_sub hg'
  have helse : ∀ k, k ≠ g.slot → SlotInv (s.record k) (g :: s.released) (s.of k) := by
    intro k hk
    exact (h.slot k).cons fun hmem => absurd (mem_of.mp hmem).2.symm hk
  rw [exchange, if_pos (h.filled_lt g hg)]
  split_ifs with hword
  · obtain ⟨-, hfreed⟩ := (h.slot g.slot).release hof hword
    refine ⟨h.alone, fun j k p r hj => ?_, fun k => ?_, hsub, h.filling_lt, h.filled_lt⟩
    · have hne : k ≠ g.slot := by
        rintro rfl
        have hreserved := (h.filling j _ p r hj).reserved
        rw [hword] at hreserved
        exact liveWord_ne_reserved _ hreserved
      change BeingFilled (upd s.record g.slot _ k) _ p r
      rw [upd_of_ne _ _ hne]
      exact h.filling j k p r hj
    · change SlotInv (upd s.record g.slot _ k) _ (s.of k)
      by_cases hk : k = g.slot
      · rw [hk, upd_self]
        exact hfreed
      · rw [upd_of_ne _ _ hk]
        exact helse k hk
  · refine ⟨h.alone, h.filling, fun k => ?_, hsub, h.filling_lt, h.filled_lt⟩
    by_cases hk : k = g.slot
    · rw [hk]
      exact (h.slot g.slot).cons fun hmem => (h.slot g.slot).mem_released hmem hword
    · exact helse k hk

theorem Inv.step (h : s.Inv) {e : Event ι} (hfew : s.FewReuses e) (hstep : step s e = some s') :
    s'.Inv := by
  cases e with
  | register i r =>
    simp only [Table.step] at hstep
    split_ifs at hstep
    cases hstep
    exact h.goto fun _ _ _ hp => nomatch hp
  | scan i =>
    simp only [Table.step] at hstep
    split at hstep
    · split_ifs at hstep with hk
      · cases hstep
        exact h.reserve hk fun _ _ _ hp => nomatch hp
      · cases hstep
        exact h.goto fun _ _ _ hp => nomatch hp
    · cases hstep
  | registerAt i k r =>
    simp only [Table.step] at hstep
    split_ifs at hstep with hready hk
    · cases hstep
      exact h.reserve hk fun _ _ _ hp => nomatch hp
    · cases hstep
      exact h.goto fun _ _ _ hp => nomatch hp
  | fill i =>
    simp only [Table.step] at hstep
    split at hstep
    · rename_i k stage r hi
      cases hstep
      refine h.fill hi ?_
      rintro rfl
      exact hfew k r hi
    · cases hstep
  | release g =>
    simp only [Table.step] at hstep
    split_ifs at hstep with hg
    cases hstep
    exact h.release hg
  | crash i =>
    cases hstep
    exact h.goto fun _ _ _ hp => nomatch hp

/-- Whatever the threads do, with fewer than `2 ^ 30` reuses of a slot: a slot is live
exactly when a registration has it, and then this is the last one that filled the slot and
the record is its own; no slot has two; a release by another registration, late or repeated,
changes no record; and the incarnation of a slot grows with every registration. -/
theorem registrations_exclusive (capacity : Fin (2 ^ 32))
    (hrun : Runs Table.step FewReuses (init ι capacity) s) :
    (∀ k, stateOf (s.record k).state = LIVE ↔ ∃ g, s.Holds g ∧ g.slot = k) ∧
    (∀ g, s.Holds g → (s.of g.slot).head? = some g ∧
      (s.record g.slot).state = liveWord g.incarnation ∧
      (s.record g.slot).identity =
        ⟨g.registrant.pid, g.registrant.startTime, g.incarnation⟩) ∧
    (∀ g h, s.Holds g → s.Holds h → g.slot = h.slot → g = h) ∧
    (∀ g s', ¬ s.Holds g → Table.step s (.release g) = some s' → s'.record = s.record) ∧
    ∀ k, (s.of k).Pairwise fun g h => h.incarnation < g.incarnation := by
  have hinv : s.Inv := hrun.invariant (fun _ _ _ h hok hst => h.step hok hst) (Inv.init capacity)
  have hholder : ∀ g, s.Holds g → _ := fun g hg =>
    (hinv.slot g.slot).holder (mem_of.mpr ⟨hg.1, rfl⟩) hg.2
  refine ⟨fun k => ⟨fun hlive => ?_, ?_⟩, hholder, fun g h hg hh hslot => ?_,
    fun g s' hg hstep => ?_, fun k => (hinv.slot k).increasing⟩
  · obtain ⟨g, hof, hfresh⟩ := (hinv.slot k).live hlive
    exact ⟨g, ⟨(mem_of.mp hof).1, hfresh⟩, (mem_of.mp hof).2⟩
  · rintro ⟨g, hg, rfl⟩
    rw [(hholder g hg).2.1, stateOf_liveWord]
  · have hlast := (hholder h hh).1
    rw [← hslot, (hholder g hg).1] at hlast
    exact Option.some_inj.mp hlast
  · simp only [Table.step] at hstep
    split_ifs at hstep with hfilled
    cases hstep
    change (s.exchange g.slot g.incarnation).record = s.record
    rw [exchange]
    split_ifs with hk hword
    · -- the word is the one of a registration that has the slot
      have hfresh := ((hinv.slot g.slot).release (mem_of.mpr ⟨hfilled, rfl⟩) hword).1
      exact absurd ⟨hfilled, hfresh⟩ hg
    · rfl
    · rfl

end Steps

theorem fewReuses_of_filled {s : Table ι} (h : s.filled.length < 2 ^ 30) (e : Event ι) :
    s.FewReuses e := by
  cases e with
  | fill i => exact fun k _ _ => Nat.lt_of_le_of_lt (List.length_filter_le _ _) h
  | register | scan | registerAt | release | crash => trivial

/-- Thread `0` takes slot `0` and releases it, and thread `1` takes it again. -/
def reuseEvents : List (Event ℕ) :=
  [.register 0 ⟨100, 5, 0⟩, .scan 0, .fill 0, .fill 0, .fill 0, .fill 0, .fill 0, .fill 0,
    .release ⟨0, 0, 1, ⟨100, 5, 0⟩⟩,
    .registerAt 1 0 ⟨200, 9, 0⟩, .fill 1, .fill 1, .fill 1, .fill 1, .fill 1, .fill 1]

/-- The slot is the one of thread `1`, and a second release by thread `0` leaves it. -/
theorem registrations_exclusive_reuse : ∃ s : Table ℕ,
    s.Holds ⟨1, 0, 2, ⟨200, 9, 0⟩⟩ ∧ stateOf (s.record 0).state = LIVE ∧
    ∀ s', step s (.release ⟨0, 0, 1, ⟨100, 5, 0⟩⟩) = some s' → s'.record = s.record := by
  obtain ⟨s, hexec, hfilled, hreleased⟩ : ∃ s,
      exec step (fun s _ => s.filled.length < 2 ^ 30) (init ℕ 1) reuseEvents = some s ∧
      s.filled = [⟨1, 0, 2, ⟨200, 9, 0⟩⟩, ⟨0, 0, 1, ⟨100, 5, 0⟩⟩] ∧
      s.released = [⟨0, 0, 1, ⟨100, 5, 0⟩⟩] :=
    ⟨_, rfl, rfl, rfl⟩
  have hrun : Runs step FewReuses (init ℕ 1) s :=
    (runs_of_exec hexec).mono fun _ _ h => fewReuses_of_filled (of_decide_eq_true h) _
  obtain ⟨hlive, -, -, hlate, -⟩ := registrations_exclusive 1 hrun
  have hholds : s.Holds ⟨1, 0, 2, ⟨200, 9, 0⟩⟩ := by
    rw [Holds, hfilled, hreleased]
    decide
  refine ⟨s, hholds, (hlive 0).mpr ⟨_, hholds, rfl⟩, fun s' => hlate _ s' ?_⟩
  rw [Holds, hfilled, hreleased]
  decide

end Table

end TfTree
