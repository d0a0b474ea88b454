import Mathlib
import TfTree.Bridge.Drift
import TfTree.Bridge.Ledger

/-!
# After a halt

A clock reset under `OnClockReset::Halt` leaves the marks and the offsets as they are, and
nothing else refuses the samples that follow.

Results:
* `OffsetTable.observe_isSome_iff`: when a sample completes a common-mode step.
* `Ingest.offer_published_iff`: when a sample is published.
* `halted_publishes_nothing_iff`: nothing is published in a run exactly if every sample is
  older than the mark its edge had before, or is refused for what it is.
-/

namespace TfTree.Bridge

open Data

variable {F : Type}

/-! ## When a step is common -/

namespace OffsetTable

variable [Floats F] {t t' : OffsetTable F} {owner : String} {stampNanos received : ℤ}

/-- The sample steps away from its publisher's baseline, and so did another publisher, by as
    much. -/
def Completes (t : OffsetTable F) (owner : String) (stampNanos received : ℤ) : Prop :=
  received ≠ 0 ∧ ∃ (id : ℕ) (row : Offset),
    position (StrInterner.after t.ids.cap t.ids.table.keys owner) owner = some id ∧
    t.rows[id]? = some (some row) ∧
    t.policy.resetThresholdNanos < satAbs (satSub (satSub stampNanos received) row.baseline) ∧
    ∃ (j : ℕ) (other : Offset), j ≠ id ∧ t.rows[j]? = some (some other) ∧
      t.agrees (satSub (satSub stampNanos received) row.baseline) received (some other) = true

theorem agrees_congr (h : t'.policy = t.policy) (delta received : ℤ) (other : Option Offset) :
    t'.agrees delta received other = t.agrees delta received other := by
  unfold agrees tolerance
  rw [h]

/-- A step is common exactly if another row agrees with it. -/
theorem verdict_isSome_iff (t : OffsetTable F) (id : ℕ) (received delta : ℤ) :
    (t.verdict id received delta).isSome ↔ ∃ (j : ℕ) (other : Offset), j ≠ id ∧
      t.rows[j]? = some (some other) ∧ t.agrees delta received (some other) = true := by
  have hcount : ¬ t.agreeing id delta received < 2 ↔
      ∃ r ∈ t.rows.zipIdx, (r.2 ≠ id && t.agrees delta received r.1) = true := by
    unfold agreeing
    rw [← List.length_filter_pos_iff]
    unfold u32Max
    omega
  unfold verdict
  constructor
  · intro h
    split_ifs at h with htwo
    · cases h
    · obtain ⟨⟨other, j⟩, hmem, hr⟩ := hcount.mp htwo
      simp only [Bool.and_eq_true, decide_eq_true_eq] at hr
      have hget : t.rows[j]? = some other := List.mem_zipIdx_iff_getElem?.mp hmem
      cases other with
      | none => cases hr.2
      | some other => exact ⟨j, other, hr.1, hget, hr.2⟩
  · rintro ⟨j, other, hj, hget, hagrees⟩
    rw [if_neg (hcount.mpr ⟨(some other, j), List.mem_zipIdx_iff_getElem?.mpr hget, by
      simp [hj, hagrees]⟩)]
    rfl

/-- A sample is answered with a common-mode step exactly if it completes one. -/
theorem observe_isSome_iff (ht : t.ids.Ok) (owner : String) (stampNanos received : ℤ) :
    ∃ c t', t.observe owner stampNanos received = some (c, t') ∧ t'.ids.Ok ∧
      (c.isSome ↔ t.Completes owner stampNanos received) := by
  by_cases hr : received = 0
  · refine ⟨none, t, ?_, ht, ?_⟩
    · unfold observe
      rw [if_pos hr]
      rfl
    · exact ⟨fun h => by (cases h), fun h => absurd hr h.1⟩
  · obtain ⟨ids, hok, hkeys, ⟨hpos, hobs⟩ |
      ⟨id, row, v, t', hpos, hrow, hobs, hids, hpolicy, hrows, hv⟩⟩ :=
        observe_spec ht owner stampNanos hr
    · refine ⟨none, _, hobs, hok, fun h => by (cases h), ?_⟩
      rintro ⟨-, id, row, hid, -⟩
      rw [← hkeys, hpos] at hid
      cases hid
    · refine ⟨v, t', hobs, hids ▸ hok, ?_⟩
      have hothers : ∀ (j : ℕ) (other : Offset), j ≠ id →
          (t'.rows[j]? = some (some other) ↔ t.rows[j]? = some (some other)) := by
        intro j other hj
        rw [hrows, List.getElem?_set_ne (Ne.symm hj), getElem?_grown]
      constructor
      · intro hsome
        rw [hv] at hsome
        cases row with
        | none => cases hsome
        | some row =>
          unfold fold at hsome
          dsimp only at hsome
          split_ifs at hsome with hle
          · cases hsome
          · rw [Option.bind_some, verdict_isSome_iff] at hsome
            obtain ⟨j, other, hj, hget, hagrees⟩ := hsome
            rw [agrees_congr hpolicy] at hagrees
            exact ⟨hr, id, row, by rw [← hkeys]; exact hpos, getElem?_grown.mp hrow,
              not_le.mp hle, j, other, hj, (hothers j other hj).mp hget, hagrees⟩
      · rintro ⟨-, id', row', hid, hrow', hlt, j, other, hj, hget, hagrees⟩
        rw [← hkeys, hpos] at hid
        obtain rfl : id = id' := Option.some_inj.mp hid
        rw [getElem?_grown.mpr hrow'] at hrow
        cases hrow
        rw [hv]
        unfold fold
        dsimp only
        rw [if_neg (not_le.mpr hlt), Option.bind_some, verdict_isSome_iff]
        refine ⟨j, other, hj, (hothers j other hj).mpr hget, ?_⟩
        rw [agrees_congr hpolicy]
        exact hagrees

end OffsetTable

/-! ## When a sample is published -/

/-- The publisher may write the edge: it is the first, or the owner, or any will do. -/
def Authority.Admits (a : Authority) (slot : ℕ) (publisher : Publisher) : Prop :=
  ∀ owner, a.owners[slot]? = some (some owner) →
    owner.key = publisher.key ∨ a.policy = .lastWriterWins

theorem Authority.admitAt_accept_iff {a a' : Authority} {slot : ℕ} {publisher : Publisher}
    {v : Verdict} (h : a.admitAt slot publisher = some (v, a')) :
    v = .accept ↔ a.Admits slot publisher := by
  unfold Authority.admitAt at h
  obtain ⟨owner, howner, h⟩ := Option.bind_eq_some_iff.mp h
  cases owner with
  | none =>
    cases h
    refine ⟨fun _ owner ho => ?_, fun _ => rfl⟩
    rw [howner] at ho
    cases ho
  | some owner =>
    dsimp only at h
    by_cases hkey : owner.key = publisher.key
    · rw [if_pos hkey] at h
      cases h
      refine ⟨fun _ owner' ho => ?_, fun _ => rfl⟩
      rw [howner] at ho
      cases ho
      exact Or.inl hkey
    · rw [if_neg hkey] at h
      cases hpol : a.policy with
      | lastWriterWins =>
        rw [hpol] at h
        cases h
        exact ⟨fun _ _ _ => Or.inr hpol, fun _ => rfl⟩
      | strict =>
        rw [hpol] at h
        obtain ⟨r, -, h⟩ := Option.bind_eq_some_iff.mp h
        cases h
        refine ⟨fun h => by (cases h), fun h => ?_⟩
        rcases h owner howner with h | h
        · exact absurd h hkey
        · rw [hpol] at h
          cases h
      | firstWriterWins =>
        rw [hpol] at h
        obtain ⟨r, -, h⟩ := Option.bind_eq_some_iff.mp h
        cases h
        refine ⟨fun h => by (cases h), fun h => ?_⟩
        rcases h owner howner with h | h
        · exact absurd h hkey
        · rw [hpol] at h
          cases h

theorem Action.published_of_startupHalt {a : Action F} (h : a.isStartupHalt = true) :
    a.published = none := by
  unfold Action.isStartupHalt at h
  split at h
  · rfl
  · cases h

namespace Ingest

variable {s s' : Ingest F} {a : Action F} {topic : Topic} {slot : ℕ} {sample : Sample F}
  {publisher : Publisher}

/-- The sample comes to the clocks: on `/tf`, for a declared dynamic edge that its
    publisher may write. -/
structure Writes (s : Ingest F) (topic : Topic) (sample : Sample F) (publisher : Publisher)
    (slot : ℕ) : Prop where
  tf : topic = .tf
  declared : resolvedAs s.names.tfPrefix s.keys sample.edge = .declared slot
  dynamic : s.statics.kinds[slot]? = some .dynamic
  admits : s.authority.Admits slot publisher

/-- The offer is answered by the close of the startup window: the window is over, and the
    strict policy has a conflict of publishers or of static poses. -/
def ClosesWithHalt (s : Ingest F) : Prop :=
  s.startupWindowOpen = true ∧ s.stats.transforms ≥ startupWindowTransforms ∧
    s.authority.policy = .strict ∧ ∃ rows edges, s.authority.conflicts = some rows ∧
      s.statics.conflictsByEdge = some edges ∧ (rows ≠ [] ∨ edges ≠ [])

/-- The close of an open window halts exactly under the strict policy with a conflict. -/
theorem closeStartupWindow_halts_iff {s s' : Ingest F} {o : Option (Action F)}
    (hopen : s.startupWindowOpen = true) (h : s.closeStartupWindow = some (o, s')) :
    (∃ halt, o = some halt) ↔ s.authority.policy = .strict ∧
      ∃ rows edges, s.authority.conflicts = some rows ∧ s.statics.conflictsByEdge = some edges ∧
        (rows ≠ [] ∨ edges ≠ []) := by
  have hcount : ∀ {α : Type} (xs : List α), min xs.length u32Max = 0 ↔ xs = [] := by
    intro α xs
    rw [← List.length_eq_zero_iff]
    have hmax : 0 < u32Max := by decide
    omega
  unfold closeStartupWindow at h
  rw [if_pos hopen] at h
  by_cases hpol : s.authority.policy = .strict
  · rw [if_neg (not_not.mpr hpol)] at h
    obtain ⟨rows, hrows, h⟩ := Option.bind_eq_some_iff.mp h
    obtain ⟨edges, hedges, h⟩ := Option.bind_eq_some_iff.mp h
    dsimp only at hrows hedges h
    simp only [hcount] at h
    split_ifs at h with hnone
    · cases h
      constructor
      · rintro ⟨_, ⟨⟩⟩
      · rintro ⟨-, rows', edges', hrows', hedges', hsome⟩
        cases hrows.symm.trans hrows'
        cases hedges.symm.trans hedges'
        rcases hsome with hne | hne
        · exact absurd hnone.1 hne
        · exact absurd hnone.2 hne
    · cases h
      exact ⟨fun _ => ⟨hpol, rows, edges, hrows, hedges, not_and_or.mp hnone⟩, fun _ => ⟨_, rfl⟩⟩
  · rw [if_pos hpol] at h
    cases h
    constructor
    · rintro ⟨_, ⟨⟩⟩
    · exact fun h => absurd h.1 hpol

variable [Floats F]

/-- The sample is older than the mark of its edge, or is refused for what it is: it is not for
    the clocks, or completes a common-mode step. -/
def Refuses (s : Ingest F) (marks : List (Option ℤ)) (topic : Topic) (sample : Sample F)
    (publisher : Publisher) : Prop :=
  s.ClosesWithHalt ∨ ∀ slot, s.Writes topic sample publisher slot →
    s.offsets.Completes publisher.key sample.stampNanos sample.received ∨
      ∃ newest, marks[slot]? = some (some newest) ∧ sample.stampNanos < newest

/-- The clocks publish what is not before the mark, unless it completes a step. -/
theorem offerClock_published_iff (hs : s.Ok)
    (h : s.offerClock slot sample publisher = some (a, s')) :
    a.published = none ↔ s.offsets.Completes publisher.key sample.stampNanos sample.received ∨
      ∃ newest, s.marks[slot]? = some (some newest) ∧ sample.stampNanos < newest := by
  obtain ⟨c, offsets, hobs, -, hc⟩ := OffsetTable.observe_isSome_iff hs.offsets publisher.key
    sample.stampNanos sample.received
  unfold offerClock at h
  rw [hobs] at h
  rw [← hc]
  cases c with
  | some common =>
    have hreset := Option.some_inj.mp h
    unfold applyClockReset at hreset
    dsimp only at hreset
    refine ⟨fun _ => Or.inl rfl, fun _ => ?_⟩
    cases hpol : s.clock.onReset with
    | halt =>
      rw [hpol] at hreset
      cases hreset
      rfl
    | recreate =>
      rw [hpol] at hreset
      cases hreset
      rfl
  | none =>
    change (s.clocks[slot]?).bind _ = some (a, s') at h
    obtain ⟨guard, hguard, h⟩ := Option.bind_eq_some_iff.mp h
    have hmark : s.marks[slot]? = some guard.newest := by
      unfold marks
      rw [List.getElem?_map, show s.clocks[slot]? = some guard from hguard]
      rfl
    rw [hmark]
    have hcases := guard.observe_cases sample.stampNanos
    generalize guard.observe sample.stampNanos = r at h hcases
    obtain ⟨verdict, guard'⟩ := r
    obtain ⟨clocks, -, h⟩ := Option.bind_eq_some_iff.mp h
    rcases hcases with ⟨hforward, heq⟩ | ⟨⟨newest, hnewest, hlt⟩, hne, -⟩
    · obtain ⟨rfl, -⟩ := Prod.mk.inj heq
      obtain ⟨e, -, h⟩ := Option.bind_eq_some_iff.mp h
      cases h
      refine ⟨fun h => by (cases h), ?_⟩
      rintro (h | ⟨newest, hn, hlt⟩)
      · cases h
      · exact absurd hlt (not_lt.mpr (hforward newest (Option.some_inj.mp hn)))
    · refine ⟨fun _ => Or.inr ⟨newest, by rw [hnewest], hlt⟩, fun _ => ?_⟩
      cases verdict with
      | forward => exact absurd rfl hne
      | jitter byNanos =>
        cases h
        rfl
      | reset byNanos policy =>
        cases h
        rfl

theorem offerDynamic_published_iff (hs : s.Ok) (hslot : slot < s.keys.length)
    (h : s.offerDynamic slot sample publisher = some (a, s')) :
    a.published = none ↔ (s.authority.Admits slot publisher →
      s.offsets.Completes publisher.key sample.stampNanos sample.received ∨
        ∃ newest, s.marks[slot]? = some (some newest) ∧ sample.stampNanos < newest) := by
  unfold offerDynamic at h
  obtain ⟨e, -, h⟩ := Option.bind_eq_some_iff.mp h
  obtain ⟨⟨verdict, authority⟩, hadm, h⟩ := Option.bind_eq_some_iff.mp h
  have hadmits := Authority.admitAt_accept_iff hadm
  obtain ⟨v, authority', hadm', hok, hindex, -⟩ :=
    hs.authority.admitAt (by rw [hs.slots]; exact hslot) publisher
  rw [hadm] at hadm'
  cases hadm'
  cases verdict with
  | accept =>
    have hclock := offerClock_published_iff (hs.withAuthority hok hindex) h
    exact hclock.trans ⟨fun h _ => h, fun h => h (hadmits.mp rfl)⟩
  | reject owner intruder firstTime =>
    cases h
    exact ⟨fun _ h => by (cases hadmits.mpr h), fun _ => rfl⟩
  | fatal owner intruder firstTime =>
    cases h
    exact ⟨fun _ h => by (cases hadmits.mpr h), fun _ => rfl⟩

theorem offerStatic_published (h : s.offerStatic slot sample publisher = some (a, s')) :
    a.published = none := by
  unfold offerStatic at h
  obtain ⟨⟨verdict, statics⟩, -, h⟩ := Option.bind_eq_some_iff.mp h
  cases verdict with
  | kindChanged declared =>
    cases h
    rfl
  | _ =>
    obtain ⟨e, -, h⟩ := Option.bind_eq_some_iff.mp h
    cases h
    rfl

/-- A transform that is counted is published unless its edge, its publisher or the clocks
    refuse it. -/
theorem offerCounted_published_iff (hs : s.Ok)
    (h : s.offerCounted topic sample publisher = some (a, s')) :
    a.published = none ↔ ∀ slot, s.Writes topic sample publisher slot →
      s.offsets.Completes publisher.key sample.stampNanos sample.received ∨
        ∃ newest, s.marks[slot]? = some (some newest) ∧ sample.stampNanos < newest := by
  have hs₀ := hs.withStats { s.stats with transforms := s.stats.transforms + 1 } s.undeclared
  obtain ⟨s₁, hres, hs₁, hfixed, hclocks, hauth, hstat⟩ := hs₀.resolve sample
  obtain ⟨names, raw, hframe⟩ := resolve_frame hres
  have hkeys : s₁.keys = s.keys := hfixed.keys
  change _ = some (resolvedAs s.names.tfPrefix s.keys sample.edge, s₁) at hres
  unfold offerCounted at h
  simp only [Option.bind_eq_bind, hres, Option.bind_some] at h
  cases hr : resolvedAs s.names.tfPrefix s.keys sample.edge with
  | badName =>
    rw [hr] at h
    cases h
    refine ⟨fun _ slot hw => ?_, fun _ => rfl⟩
    have hdecl := hw.declared
    rw [hr] at hdecl
    cases hdecl
  | undeclared parent child =>
    rw [hr] at h
    cases h
    refine ⟨fun _ slot hw => ?_, fun _ => rfl⟩
    have hdecl := hw.declared
    rw [hr] at hdecl
    cases hdecl
  | declared slot =>
    rw [hr] at h
    unfold offerDeclared at h
    obtain ⟨kind, hkind, h⟩ := Option.bind_eq_some_iff.mp h
    have hkind' : s.statics.kinds[slot]? = some kind := by
      rw [hframe] at hkind
      exact hkind
    cases topic with
    | tfStatic =>
      have hnone := offerStatic_published h
      exact ⟨fun _ slot hw => by (cases hw.tf), fun _ => hnone⟩
    | tf =>
      dsimp only at h
      cases kind with
      | static =>
        rw [if_pos rfl] at h
        cases h
        refine ⟨fun _ slot' hw => ?_, fun _ => rfl⟩
        have hdecl := hw.declared
        rw [hr] at hdecl
        cases hdecl
        have hdyn := hw.dynamic
        rw [hkind'] at hdyn
        cases hdyn
      | dynamic =>
        rw [if_neg (by decide)] at h
        have hslot : slot < s₁.keys.length := by
          have hlt := (List.getElem?_eq_some_iff.mp hkind).1
          rw [hs₁.statics.kinds] at hlt
          exact hlt
        rw [offerDynamic_published_iff hs₁ hslot h, hauth,
          show s₁.marks = s.marks from congrArg (List.map ClockGuard.newest) hclocks,
          show s₁.offsets = s.offsets by rw [hframe]]
        constructor
        · intro hrefuse slot' hw
          have hdecl := hw.declared
          rw [hr] at hdecl
          cases hdecl
          exact hrefuse hw.admits
        · intro hrefuse hadmits
          exact hrefuse slot ⟨rfl, hr, hkind', hadmits⟩

/-- **Step lemma.** When an offer publishes nothing. -/
theorem offer_published_iff (hs : s.Ok) (h : s.offer topic sample publisher = some (a, s')) :
    a.published = none ↔ s.Refuses s.marks topic sample publisher := by
  unfold offer at h
  by_cases hwin : s.startupWindowOpen = true ∧ s.stats.transforms ≥ startupWindowTransforms
  · rw [if_pos hwin] at h
    obtain ⟨⟨halt, s₂⟩, hclose, h⟩ := Option.bind_eq_some_iff.mp h
    cases halt with
    | some halt =>
      cases h
      have hnone := Action.published_of_startupHalt ((closeStartupWindow_eq hclose).2 a rfl)
      have hhalts := (closeStartupWindow_halts_iff hwin.1 hclose).mp ⟨a, rfl⟩
      exact ⟨fun _ => Or.inl ⟨hwin.1, hwin.2, hhalts⟩, fun _ => hnone⟩
    | none =>
      have hopen : ¬s.ClosesWithHalt := by
        rintro ⟨-, -, hhalts⟩
        obtain ⟨halt, hnone⟩ := (closeStartupWindow_halts_iff hwin.1 hclose).mpr hhalts
        cases hnone
      obtain ⟨rfl, -⟩ := closeStartupWindow_eq hclose
      have hiff := offerCounted_published_iff (hs.withWindow false) h
      refine hiff.trans ⟨fun h => Or.inr fun slot hw => h slot ⟨hw.1, hw.2, hw.3, hw.4⟩,
        fun h slot hw => (h.resolve_left hopen) slot ⟨hw.1, hw.2, hw.3, hw.4⟩⟩
  · rw [if_neg hwin] at h
    have hopen : ¬s.ClosesWithHalt := fun h => hwin ⟨h.1, h.2.1⟩
    exact (offerCounted_published_iff hs h).trans
      ⟨fun h => Or.inr h, fun h => h.resolve_left hopen⟩

/-! ## Runs -/

/-- Every sample of the calls is older than the mark its edge has in `marks`, or is refused for
    what it is. -/
def RefusesAll (marks : List (Option ℤ)) : Ingest F → List (Call F) → Prop
  | _, [] => True
  | s, c :: cs =>
    (∀ topic sample publisher, c = .offer topic sample publisher →
      s.Refuses marks topic sample publisher) ∧
      ∀ o s', s.call c = some (o, s') → RefusesAll marks s' cs

omit [Floats F] in
/-- Without a recreate, a call that publishes nothing leaves the marks. -/
theorem Step.marks_eq {c : Call F} {o : Option (Action F)} (h : s.Step c o s')
    (hpol : s.clock.onReset = .halt) (hnone : ∀ a, o = some a → a.published = none) :
    s'.marks = s.marks := by
  cases o with
  | none => exact h.silent rfl
  | some a =>
    cases h.clocks a rfl with
    | kept published recreate same => exact same
    | forgot published recreate policy none =>
      rw [hpol] at policy
      cases policy
    | moved slot e t published recreate at_slot forward mark =>
      rw [hnone a rfl] at published
      cases published

/-- **Step lemma.** A call publishes nothing exactly if it is no offer, or one that is
    refused. -/
theorem call_published_iff (hs : s.Ok) {c : Call F} {o : Option (Action F)}
    (h : s.call c = some (o, s')) :
    (∀ a, o = some a → a.published = none) ↔ ∀ topic sample publisher,
      c = .offer topic sample publisher → s.Refuses s.marks topic sample publisher := by
  cases c with
  | offer topic sample publisher =>
    obtain ⟨⟨a, s₁⟩, hoffer, hret⟩ := Option.bind_eq_some_iff.mp h
    cases hret
    have hiff := offer_published_iff hs hoffer
    constructor
    · intro hnone topic' sample' publisher' heq
      cases heq
      exact hiff.mp (hnone a rfl)
    · intro hrefuse a' ha
      cases ha
      exact hiff.mpr (hrefuse topic sample publisher rfl)
  | noteTimeJump deltaNanos kind =>
    refine ⟨fun _ _ _ _ heq => by (cases heq), fun _ a ha => ?_⟩
    cases h
    cases ha
    dsimp only
    cases s.clock.onReset <;> rfl
  | closeStartupWindow =>
    exact ⟨fun _ _ _ _ heq => by (cases heq),
      fun _ a ha => Action.published_of_startupHalt ((closeStartupWindow_eq h).2 a ha)⟩

/-- **Run lemma.** Without a recreate, the marks stay as long as nothing is published. -/
theorem run_published_iff {calls : List (Call F)} {trace : List (Event F)} (hs : s.Ok)
    (hpol : s.clock.onReset = .halt) (h : s.run calls = some (trace, s')) :
    (∀ a ∈ actions trace, a.published = none) ↔ s.RefusesAll s.marks calls := by
  induction calls generalizing s trace with
  | nil =>
    cases h
    exact ⟨fun _ => trivial, fun _ a ha => by cases ha⟩
  | cons c cs ih =>
    obtain ⟨⟨o, s₁⟩, hcall, h⟩ := Option.bind_eq_some_iff.mp h
    obtain ⟨⟨rest, s₂⟩, hrest, h⟩ := Option.bind_eq_some_iff.mp h
    cases h
    have hstep := hs.step hcall
    have hiff := ih hstep.ok (hstep.fixed.clock ▸ hpol) hrest
    have hsplit : (∀ a ∈ actions ((c, o) :: rest), a.published = none) ↔
        (∀ a, o = some a → a.published = none) ∧ ∀ a ∈ actions rest, a.published = none := by
      unfold actions
      cases o <;> simp
    rw [hsplit, call_published_iff hs hcall, RefusesAll]
    refine and_congr_right fun hhead => ?_
    -- the marks are those of before
    have hmarks := hstep.marks_eq hpol ((call_published_iff hs hcall).mpr hhead)
    rw [hiff, hmarks]
    constructor
    · intro h o' s₁' hcall'
      rw [hcall] at hcall'
      cases hcall'
      exact h
    · exact fun h => h o s₁ hcall

end Ingest

/-- **Main theorem.** Under `OnClockReset::Halt`, whatever has been answered before, a clock halt
    among it: nothing is published any more exactly if every later sample is older than the
    mark its edge has now, or is refused for what it is. -/
theorem halted_publishes_nothing_iff [Floats F] {config : TopologyConfig F}
    {policy : AuthorityPolicy} {clock : ClockPolicy F} {tfPrefix : Option String}
    {calls more : List (Call F)} {trace trace' : List (Event F)} {s s' : Ingest F}
    (h : Ingest.runFrom config policy clock tfPrefix calls = some (trace, s))
    (hpol : clock.onReset = .halt) (hmore : s.run more = some (trace', s')) :
    (∀ a ∈ actions trace', a.published = none) ↔ s.RefusesAll s.marks more := by
  obtain ⟨hok, hclock, -⟩ := Ingest.runFrom_spec h
  exact Ingest.run_published_iff hok (by rw [hclock]; exact hpol) hmore

/-- One edge, and the time source reports that its clock went back. -/
def reportedJump : Option (List (Event Hundredths) × Ingest Hundredths) :=
  Ingest.runFrom { edges := [⟨"odom", "base", .dynamic (.slots 64), none, none⟩] }
    .firstWriterWins (exampleClock .halt) none
    [.offer .tf ⟨"odom", "base", 100000000000, 100000000000, .replicate 7 0⟩ (.topic "wheels"),
      .noteTimeJump (-9000000000) .backward]

set_option maxRecDepth 20000 in
/-- A sample from before the mark is refused. -/
theorem halted_publishes_nothing_before_mark :
    ∃ trace s trace' s', reportedJump = some (trace, s) ∧
      s.run [.offer .tf ⟨"odom", "base", 91000000000, 0, .replicate 7 0⟩ (.topic "wheels")] =
        some (trace', s') ∧
      s.RefusesAll s.marks
        [.offer .tf ⟨"odom", "base", 91000000000, 0, .replicate 7 0⟩ (.topic "wheels")] := by
  have hrun : (reportedJump.bind fun r =>
      (r.2.run [.offer .tf ⟨"odom", "base", 91000000000, 0, .replicate 7 0⟩
        (.topic "wheels")]).map fun r' =>
          (actions r'.1).all fun a => a.published.isNone) = some true := by
    decide
  obtain ⟨⟨trace, s⟩, hs, hrest⟩ := Option.bind_eq_some_iff.mp hrun
  obtain ⟨⟨trace', s'⟩, hmore, hall⟩ := Option.map_eq_some_iff.mp hrest
  refine ⟨trace, s, trace', s', hs, hmore, (halted_publishes_nothing_iff hs rfl hmore).mp ?_⟩
  intro a ha
  simpa using List.all_eq_true.mp hall a ha

set_option maxRecDepth 20000 in
/-- After the clock halt a sample that is not before the mark is published. -/
theorem halted_publishes_after_mark :
    ∃ trace s a s', reportedJump = some (trace, s) ∧
      Kind.clockHalt false ∈ (actions trace).map Action.kind ∧
      s.offer .tf ⟨"odom", "base", 100000000001, 0, .replicate 7 0⟩ (.topic "wheels") =
        some (a, s') ∧ a.published = some (("odom", "base"), 100000000001) := by
  have hrun : (reportedJump.bind fun r =>
      (r.2.offer .tf ⟨"odom", "base", 100000000001, 0, .replicate 7 0⟩
        (.topic "wheels")).map fun r' => (decide (Kind.clockHalt false ∈
          (actions r.1).map Action.kind), r'.1.published)) =
      some (true, some (("odom", "base"), 100000000001)) := by
    decide
  obtain ⟨⟨trace, s⟩, hs, hrest⟩ := Option.bind_eq_some_iff.mp hrun
  obtain ⟨⟨a, s'⟩, hoffer, heq⟩ := Option.map_eq_some_iff.mp hrest
  simp only [Prod.mk.injEq, decide_eq_true_eq] at heq
  exact ⟨trace, s, a, s', hs, heq.1, hoffer, heq.2⟩

end TfTree.Bridge
